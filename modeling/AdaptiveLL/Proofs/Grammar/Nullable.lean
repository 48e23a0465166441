import AdaptiveLL.Grammar.Nullable
import AdaptiveLL.Proofs.Grammar.Laid
import AdaptiveLL.Proofs.Network.Reading

/-!
# Which elements can match nothing

What the check of a grammar says about the parts of an element: whether a list of elements can match
nothing, which loops were looked at, and that a rule is marked whenever its body can match nothing
given the marks.
-/

set_option autoImplicit false

namespace AdaptiveLL.Grammar

variable {g : Grammar} {known : Array Bool}

/-! ## Lists of elements -/

/-- It is decided whether the element can match nothing. -/
def Decided (g : Grammar) (known : Array Bool) (e : Element) : Prop :=
  ∃ b, g.nullable known e = .ok b

theorem nullableAny_ok {es : List Element} (decided : ∀ e ∈ es, g.Decided known e) :
    ∃ b, g.nullableAny known es = .ok b ∧ (b = true ↔ ∃ e ∈ es, g.nullable known e = .ok true) := by
  induction es with
  | nil => exact ⟨false, rfl, by simp⟩
  | cons e es ih =>
    obtain ⟨b, rest, iff⟩ := ih fun e' member => decided e' (by simp [member])
    obtain ⟨here, isHere⟩ := decided e (by simp)
    rw [nullableAny, isHere]
    cases here with
    | true => exact ⟨true, rfl, by simp [isHere]⟩
    | false => exact ⟨b, rest, by simp [isHere, iff]⟩

theorem nullableAll_ok {es : List Element} (decided : ∀ e ∈ es, g.Decided known e) :
    ∃ b, g.nullableAll known es = .ok b ∧ (b = true ↔ ∀ e ∈ es, g.nullable known e = .ok true) := by
  induction es with
  | nil => exact ⟨true, rfl, by simp⟩
  | cons e es ih =>
    obtain ⟨b, rest, iff⟩ := ih fun e' member => decided e' (by simp [member])
    obtain ⟨here, isHere⟩ := decided e (by simp)
    rw [nullableAll, isHere]
    cases here with
    | true => exact ⟨b, rest, by simp [isHere, iff]⟩
    | false => exact ⟨false, rfl, by simp [isHere]⟩

theorem nullableAny_single (e : Element) : g.nullableAny known [e] = g.nullable known e := by
  rw [nullableAny]
  cases g.nullable known e with
  | error cause => rfl
  | ok b => cases b <;> rfl

/-- The body of a repetition can match nothing when one of its alternatives can. -/
theorem nullable_branches (body : Element) :
    g.nullable known body = g.nullableAny known body.branches := by
  cases body with
  | alt es => rw [nullable, Element.branches]
  | _ => exact (nullableAny_single _).symm

/-! ## Loops -/

variable {name : String}

theorem checkLoopsAll_ok {es : List Element} (checked : g.checkLoopsAll known name es = .ok ()) :
    ∀ e ∈ es, g.checkLoops known name e = .ok () := by
  induction es with
  | nil => simp
  | cons e es ih =>
    rw [checkLoopsAll] at checked
    obtain ⟨_, first, rest⟩ := except_bind_ok.1 checked
    intro e' member
    rcases List.mem_cons.1 member with rfl | later
    · exact first
    · exact ih rest e' later

theorem checkLoops_branches {body : Element} (checked : g.checkLoops known name body = .ok ()) :
    ∀ e ∈ body.branches, g.checkLoops known name e = .ok () := by
  cases body with
  | alt es =>
    rw [checkLoops] at checked
    exact checkLoopsAll_ok checked
  | _ =>
    intro e member
    rw [List.mem_singleton.1 member]
    exact checked

/-- The check of a repetition is a check of its body; the body of a loop cannot match nothing. -/
theorem checkLoops_repeated {q : Quantifier} {greedy : Bool} {body : Element}
    (checked : g.checkLoops known name (.repeated q greedy body) = .ok ()) :
    g.checkLoops known name body = .ok () ∧
      (q ≠ .optional → g.nullable known body = .ok false) := by
  have loop (ok : (do
      if ← g.nullable known body then throw (.emptyLoop name)
      checkLoops g known name body : Except BuildError Unit) = .ok ()) :
      g.checkLoops known name body = .ok () ∧ g.nullable known body = .ok false := by
    obtain ⟨b, isNullable, rest⟩ := except_bind_ok.1 ok
    cases b with
    | true => cases rest
    | false => exact ⟨rest, isNullable⟩
  cases q with
  | optional =>
    rw [checkLoops] at checked
    exact ⟨checked, fun other => absurd rfl other⟩
  | star =>
    rw [checkLoops] at checked
    · exact ⟨(loop checked).1, fun _ => (loop checked).2⟩
    · simp
  | plus =>
    rw [checkLoops] at checked
    · exact ⟨(loop checked).1, fun _ => (loop checked).2⟩
    · simp

/-! ## The marked rules -/

/-- Further rules are marked, or none. -/
structure Marks (known next : Array Bool) : Prop where
  size : next.size = known.size
  more : next = known ∨ known.count true < next.count true

theorem Marks.trans {a b c : Array Bool} (first : Marks a b) (second : Marks b c) : Marks a c := by
  refine ⟨second.size.trans first.size, ?_⟩
  rcases first.more with rfl | more
  · exact second.more
  · rcases second.more with rfl | more'
    · exact .inr more
    · exact .inr (Nat.lt_trans more more')

theorem Marks.eq_of_back {a b : Array Bool} (first : Marks a b) (second : Marks b a) : b = a := by
  rcases first.more with same | more
  · exact same
  · rcases second.more with same | more'
    · exact same.symm
    · omega

theorem count_setIfInBounds {known : Array Bool} {i : Nat} (unmarked : known.getD i false = false)
    (inside : i < known.size) : (known.setIfInBounds i true).count true = known.count true + 1 := by
  have here : known[i] = false := by simpa [Array.getD, inside] using unmarked
  rw [Array.setIfInBounds, dif_pos inside, Array.count_set, here]
  simp

theorem markNullable_marks {next : Array Bool} {r : RuleDef × Nat}
    (marked : g.markNullable known r = .ok next) : Marks known next := by
  have nothing : Marks known known := ⟨rfl, .inl rfl⟩
  unfold markNullable at marked
  split at marked
  · cases marked
    exact nothing
  · rename_i unmarked
    obtain ⟨b, -, rest⟩ := except_bind_ok.1 marked
    cases b with
    | false =>
      cases rest
      exact nothing
    | true =>
      cases rest
      refine ⟨by simp, ?_⟩
      by_cases inside : r.2 < known.size
      · rw [count_setIfInBounds (by simpa using unmarked) inside]
        exact .inr (Nat.lt_succ_self _)
      · exact .inl (by simp [Array.setIfInBounds, inside])

theorem markAll_marks {rs : List (RuleDef × Nat)} {next : Array Bool}
    (marked : rs.foldlM g.markNullable known = .ok next) :
    Marks known next ∧ (next = known → ∀ r ∈ rs, g.markNullable known r = .ok known) := by
  induction rs generalizing known with
  | nil =>
    cases marked
    exact ⟨⟨rfl, .inl rfl⟩, fun _ r member => absurd member List.not_mem_nil⟩
  | cons r rs ih =>
    rw [List.foldlM_cons] at marked
    obtain ⟨mid, first, rest⟩ := except_bind_ok.1 marked
    have toMid := markNullable_marks first
    obtain ⟨fromMid, later⟩ := ih rest
    refine ⟨toMid.trans fromMid, fun same r' member => ?_⟩
    subst same
    obtain rfl := toMid.eq_of_back fromMid
    rcases List.mem_cons.1 member with rfl | among
    · exact first
    · exact later rfl r' among

/-- Every rule whose body can match nothing, given the marks, is marked. -/
def MarksClosed (g : Grammar) (known : Array Bool) : Prop :=
  ∀ i r, g.rules[i]? = some r → g.nullable known r.body = .ok true → known.getD i false = true

theorem marksClosed_of_pass (size : known.size = g.rules.length)
    (marked : g.rules.zipIdx.foldlM g.markNullable known = .ok known) : g.MarksClosed known := by
  intro i r found isNullable
  have member : (r, i) ∈ g.rules.zipIdx := by simpa [List.mem_zipIdx_iff_getElem?] using found
  have mark := (markAll_marks marked).2 rfl _ member
  have inside : i < known.size := by
    rw [size]
    exact (List.getElem?_eq_some_iff.1 found).1
  by_contra unmarked
  rw [markNullable, if_neg unmarked, isNullable] at mark
  have same : known.setIfInBounds i true = known := Except.ok.inj mark
  have more := count_setIfInBounds (by simpa using unmarked) inside
  rw [same] at more
  omega

/-- Each pass that goes on marks a rule, so there are enough of them. -/
theorem nullablePasses_closed {passes : Nat} {final : Array Bool} (size : known.size = g.rules.length)
    (enough : g.rules.length < passes + known.count true)
    (passed : g.nullablePasses passes known = .ok final) : g.MarksClosed final := by
  induction passes generalizing known with
  | zero =>
    have := @Array.count_le_size _ _ true known
    omega
  | succ passes ih =>
    rw [nullablePasses] at passed
    obtain ⟨next, pass, rest⟩ := except_bind_ok.1 passed
    have marks := (markAll_marks pass).1
    by_cases same : next = known
    · rw [if_pos same] at rest
      cases rest
      exact marksClosed_of_pass size (by rw [pass, same])
    · rw [if_neg same] at rest
      have more := marks.more.resolve_left same
      exact ih (by rw [marks.size, size]) (by omega) rest

theorem nullableRules_closed (marked : g.nullableRules = .ok known) : g.MarksClosed known :=
  nullablePasses_closed (by simp) (by omega) marked


end AdaptiveLL.Grammar
