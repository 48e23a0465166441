import AdaptiveLL.Proofs.Grammar.Rules
import AdaptiveLL.Proofs.Grammar.Nullable

/-!
# The least marks

The rules that the check of a grammar marks are the least fixed point of nullability: the body of a rule can match
nothing, given the marks, exactly when the rule is marked (`nullable_body`), and whatever marks are closed under the
bodies mark these rules at least (`nullableRules_le`).

Whether an element can match nothing is decided for every element that was laid out, since then every rule that it
names is there, and further marks never take the answer back.
-/

set_option autoImplicit false

namespace AdaptiveLL

/-- The parts of an element that are laid out between ends of their own. The alternatives of a repetition lie side by
side within its own block. -/
inductive Element.Part : Element → Element → Prop
  | self (e : Element) : Part e e
  | seq {x e : Element} {es : List Element} (member : e ∈ es) (part : Part x e) : Part x (.seq es)
  | alt {x e : Element} {es : List Element} (member : e ∈ es) (part : Part x e) : Part x (.alt es)
  | repeated {x e body : Element} {q : Quantifier} {greedy : Bool} (member : e ∈ body.branches) (part : Part x e) :
      Part x (.repeated q greedy body)

namespace Grammar

variable {g : Grammar} {known other final : Array Bool} {name : String}

/-- The marks of the first are among those of the second. -/
def Below (known other : Array Bool) : Prop := ∀ i, known.getD i false = true → other.getD i false = true

/-- Every loop within an element was looked at. -/
theorem checkLoops_part {x e : Element} (part : x.Part e) (checked : g.checkLoops known name e = .ok ()) :
    g.checkLoops known name x = .ok () := by
  induction part with
  | self => exact checked
  | seq member part ih =>
    rw [checkLoops] at checked
    exact ih (checkLoopsAll_ok checked _ member)
  | alt member part ih =>
    rw [checkLoops] at checked
    exact ih (checkLoopsAll_ok checked _ member)
  | repeated member part ih => exact ih (checkLoops_branches (checkLoops_repeated checked).1 _ member)

theorem nullable_rule {callee : Nat} {precedence : Int} (index : g.ruleIndex name = .ok callee) :
    g.nullable known (.rule name precedence) = .ok (known.getD callee false) := by
  rw [nullable, index]
  rfl

/-- The body of a repetition is decided with its alternatives. -/
theorem nullable_branches_ok {body : Element} (decided : ∀ e ∈ body.branches, g.Decided known e) :
    ∃ b, g.nullable known body = .ok b ∧ (b = true ↔ ∃ e ∈ body.branches, g.nullable known e = .ok true) := by
  rw [nullable_branches]
  exact nullableAny_ok decided

end Grammar

/-- A single edge can be passed without a symbol when its label asks for none. -/
theorem LeafLabel.nullable {g : Grammar} {rule : Nat} {e : Element} {label : Label}
    (labelled : LeafLabel g rule e label) (known : Array Bool) :
    g.nullable known e = .ok label.isEpsilon := by
  cases labelled with
  | literal parser found =>
    rw [Grammar.nullable, parser, Layout.atomLabel_consumes]
    rfl
  | range inhabited => rw [Grammar.nullable, Layout.rangeLabel_consumes]
  | symbol v => rw [Grammar.nullable, Layout.atomLabel_consumes]
  | token found => rw [Grammar.nullable, Layout.atomLabel_consumes]
  | _ => rfl

namespace Network

variable {net : Network} {g : Grammar} {known other : Array Bool} {rule : Nat}

/-- Each part of a laid out element is laid out. -/
theorem Laid.part {x e : Element} (part : x.Part e) {seg : Segment} {lo hi : Nat}
    (laid : net.Laid g rule e seg lo hi) : ∃ seg lo hi, net.Laid g rule x seg lo hi := by
  induction part generalizing seg lo hi with
  | self => exact ⟨seg, lo, hi, laid⟩
  | seq member part ih =>
    cases laid with
    | leaf labelled => cases labelled
    | nothing => cases member
    | seq parts =>
      obtain ⟨seg, lo, hi, laid⟩ := parts.each _ member
      exact ih laid
  | alt member part ih =>
    cases laid with
    | leaf labelled => cases labelled
    | only laid =>
      cases List.mem_singleton.1 member
      exact ih laid
    | alt several parts =>
      obtain ⟨seg, lo, hi, laid⟩ := parts.each _ member
      exact ih laid
  | repeated member part ih =>
    cases laid with
    | leaf labelled => cases labelled
    | repeated parts =>
      obtain ⟨seg, lo, hi, laid⟩ := parts.each _ member
      exact ih laid

/-- It is decided whether the element can match nothing, also with further marks, and these do not take it back. -/
structure Grows (g : Grammar) (known other : Array Bool) (e : Element) : Prop where
  decided : g.Decided known e
  decided' : g.Decided other e
  grows : g.nullable known e = .ok true → g.nullable other e = .ok true

/-- An element whose answer comes from its parts, by any of them. -/
theorem grows_of_any {e : Element} {es : List Element} (parts : ∀ e ∈ es, Grows g known other e)
    (any : ∀ known, g.nullable known e = g.nullableAny known es) : Grows g known other e := by
  obtain ⟨b, isAny, iff⟩ := Grammar.nullableAny_ok fun e member => (parts e member).decided
  obtain ⟨b', isAny', iff'⟩ := Grammar.nullableAny_ok fun e member => (parts e member).decided'
  refine ⟨⟨b, (any known).trans isAny⟩, ⟨b', (any other).trans isAny'⟩, fun isNullable => ?_⟩
  rw [any, isAny] at isNullable
  obtain ⟨e', member, isNullable'⟩ := iff.1 (Except.ok.inj isNullable)
  rw [any, isAny', iff'.2 ⟨e', member, (parts e' member).grows isNullable'⟩]

/-- An element whose answer does not depend on the marks. -/
theorem grows_of_fixed {e : Element} {b : Bool} (fixed : ∀ known, g.nullable known e = .ok b) :
    Grows g known other e :=
  ⟨⟨b, fixed known⟩, ⟨b, fixed other⟩, fun isNullable => by rw [fixed] at *; exact isNullable⟩

theorem Laid.grows (below : Grammar.Below known other) {e : Element} {seg : Segment} {lo hi : Nat}
    (laid : net.Laid g rule e seg lo hi) : Grows g known other e := by
  have each {es : List Element} {segs : List Segment} {lo hi : Nat}
      (parts : Consecutive (fun e _ _ _ => Grows g known other e) es segs lo hi) :
      ∀ e ∈ es, Grows g known other e := by
    intro e member
    obtain ⟨_, _, _, grows⟩ := parts.each e member
    exact grows
  refine laid.elim (P := fun e _ _ _ => Grows g known other e) ?_ ?_ ?_ ?_ ?_ ?_ ?_ ?_
  · intro e label lo labelled _
    exact grows_of_fixed labelled.nullable
  · intro name precedence callee lo index _
    refine ⟨⟨_, Grammar.nullable_rule index⟩, ⟨_, Grammar.nullable_rule index⟩, fun isNullable => ?_⟩
    rw [Grammar.nullable_rule index] at *
    rw [below callee (Except.ok.inj isNullable)]
  · intro text lo right lexer _
    exact grows_of_fixed fun known => rfl
  · intro lo _
    exact grows_of_fixed fun known => rfl
  · intro es segs seg lo hi parts _
    obtain ⟨b, isAll, iff⟩ := Grammar.nullableAll_ok fun e member => (each parts e member).decided
    obtain ⟨b', isAll', iff'⟩ := Grammar.nullableAll_ok fun e member => (each parts e member).decided'
    refine ⟨⟨b, isAll⟩, ⟨b', isAll'⟩, fun isNullable => ?_⟩
    have all := iff.1 (Except.ok.inj (isAll.symm.trans isNullable))
    exact isAll'.trans (congrArg _ (iff'.2 fun e member => (each parts e member).grows (all e member)))
  · intro e seg lo hi part
    have parts : ∀ e' ∈ [e], Grows g known other e' := by simpa using part
    exact grows_of_any parts fun known => rfl
  · intro es segs lo mid _ parts _ _
    exact grows_of_any (each parts) fun known => rfl
  · intro q greedy body segs seg lo mid hi parts _
    cases q with
    | optional => exact grows_of_fixed fun known => rfl
    | star => exact grows_of_fixed fun known => rfl
    | plus => exact grows_of_any (each parts) fun known => Grammar.nullable_branches body

theorem LaidOut.grows (laid : net.LaidOut g) (below : Grammar.Below known other) {i : Nat} {r : RuleDef}
    (found : g.rules[i]? = some r) : Grows g known other r.body := by
  obtain ⟨seg, lo, hi, body⟩ := laid.body i r found
  exact body.laid.grows below

end Network

namespace Grammar

variable {g : Grammar} {known final : Array Bool} {net : Network}

/-! ## How rules come to be marked -/

theorem markAll_preserves {P : Array Bool → Prop} {next : Array Bool}
    (step : ∀ i r known next, g.rules[i]? = some r → P known → g.markNullable known (r, i) = .ok next → P next)
    {rs : List (RuleDef × Nat)} (among : ∀ r ∈ rs, g.rules[r.2]? = some r.1) (before : P known)
    (marked : rs.foldlM g.markNullable known = .ok next) : P next := by
  induction rs generalizing known with
  | nil =>
    cases marked
    exact before
  | cons r rs ih =>
    rw [List.foldlM_cons] at marked
    obtain ⟨mid, first, rest⟩ := except_bind_ok.1 marked
    apply ih (fun r' member => among r' (List.mem_cons_of_mem _ member)) _ rest
    exact step r.2 r.1 known mid (among r (List.mem_cons_self ..)) before first

theorem nullablePasses_preserves {P : Array Bool → Prop}
    (step : ∀ i r known next, g.rules[i]? = some r → P known → g.markNullable known (r, i) = .ok next → P next)
    {passes : Nat} (before : P known) (passed : g.nullablePasses passes known = .ok final) : P final := by
  induction passes generalizing known with
  | zero =>
    cases passed
    exact before
  | succ passes ih =>
    rw [nullablePasses] at passed
    obtain ⟨next, pass, rest⟩ := except_bind_ok.1 passed
    split at rest
    · cases rest
      exact before
    · apply ih _ rest
      apply markAll_preserves step _ before pass
      intro r member
      simpa [List.mem_zipIdx_iff_getElem?] using member

/-- A rule is marked at most because its body can match nothing, given rules marked before. -/
theorem markNullable_getD {i j : Nat} {r : RuleDef} {next : Array Bool}
    (marked : g.markNullable known (r, i) = .ok next) (isMarked : next.getD j false = true) :
    known.getD j false = true ∨ j = i ∧ g.nullable known r.body = .ok true := by
  unfold markNullable at marked
  split at marked
  · cases marked
    exact .inl isMarked
  · obtain ⟨b, isNullable, rest⟩ := except_bind_ok.1 marked
    cases b with
    | false =>
      cases rest
      exact .inl isMarked
    | true =>
      cases rest
      by_cases same : j = i
      · exact .inr ⟨same, isNullable⟩
      · rw [Array.getD_eq_getD_getElem?, Array.getElem?_setIfInBounds_ne (Ne.symm same)] at isMarked
        rw [Array.getD_eq_getD_getElem?]
        exact .inl isMarked

/-- What holds of a rule whose body can match nothing, given rules of which it holds, holds of all marked rules. -/
theorem nullableRules_induction {P : Nat → Prop} (marked : g.nullableRules = .ok final)
    (step : ∀ i r known, g.rules[i]? = some r → (∀ j, known.getD j false = true → P j) →
      g.nullable known r.body = .ok true → P i) {i : Nat} (isMarked : final.getD i false = true) : P i := by
  apply nullablePasses_preserves (P := fun known => ∀ j, known.getD j false = true → P j) _ _ marked i isMarked
  · intro i r known next found before mark j isMarked
    rcases markNullable_getD mark isMarked with already | ⟨rfl, isNullable⟩
    · exact before j already
    · exact step j r known found before isNullable
  · intro j isMarked
    rw [Array.getD_eq_getD_getElem?, Array.getElem?_replicate] at isMarked
    split at isMarked
    · cases isMarked
    · cases isMarked

theorem nullableRules_size (marked : g.nullableRules = .ok known) : known.size = g.rules.length := by
  apply nullablePasses_preserves (P := fun known => known.size = g.rules.length) _ _ marked
  · intro i r known next _ before mark
    rw [(markNullable_marks mark).size, before]
  · exact Array.size_replicate

/-! ## The least fixed point -/

/-- The marked rules are among those of any marks that are closed under the bodies of the rules. -/
theorem nullableRules_le (laid : net.LaidOut g) (marked : g.nullableRules = .ok known) {other : Array Bool}
    (closed : g.MarksClosed other) : Below known other := by
  intro i isMarked
  apply nullableRules_induction (P := fun i => other.getD i false = true) marked _ isMarked
  intro i r known' found before isNullable
  exact closed i r found ((laid.grows before found).grows isNullable)

/-- The body of a marked rule can match nothing: the rules that were marked before it are still marked. -/
theorem nullable_of_marked (laid : net.LaidOut g) (marked : g.nullableRules = .ok known) {i : Nat} {r : RuleDef}
    (found : g.rules[i]? = some r) (isMarked : known.getD i false = true) : g.nullable known r.body = .ok true := by
  have closed := nullableRules_closed marked
  have each := nullableRules_induction (P := fun i => known.getD i false = true ∧
    ∀ r, g.rules[i]? = some r → g.nullable known r.body = .ok true) marked ?_ isMarked
  · exact each.2 r found
  · intro i r known' found before isNullable
    have isNullable' := (laid.grows (fun j isMarked => (before j isMarked).1) found).grows isNullable
    refine ⟨closed i r found isNullable', fun r' found' => ?_⟩
    cases found.symm.trans found'
    exact isNullable'

/-- A rule is marked exactly when its body can match nothing, given the marks. -/
theorem nullable_body (laid : net.LaidOut g) (marked : g.nullableRules = .ok known) {i : Nat} {r : RuleDef}
    (found : g.rules[i]? = some r) : g.nullable known r.body = .ok (known.getD i false) := by
  have grows : Network.Grows g known known r.body := laid.grows (fun _ => id) found
  obtain ⟨b, decided⟩ := grows.decided
  have same : b = true ↔ known.getD i false = true := by
    constructor
    · rintro rfl
      exact nullableRules_closed marked i r found decided
    · intro isMarked
      exact Except.ok.inj (decided.symm.trans (nullable_of_marked laid marked found isMarked))
  rw [decided, Bool.eq_iff_iff.2 same]

end Grammar

end AdaptiveLL
