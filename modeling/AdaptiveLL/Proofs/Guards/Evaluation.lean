import AdaptiveLL.Proofs.Guards.Connectives

/-!
# The value of a guard

Where predicates always get the same answer, whatever was asked before, a guard has a value (`holds`), and
the evaluation of the guard finds it (`eval_eq_holds`). Conjunction and disjunction of guards are those of
their values for any guards whatever, while their laws as forms need operands that were put together by them
(`connectives_lawful`).
-/

set_option autoImplicit false

namespace AdaptiveLL

/-- Folding does not depend on the order of the list if neighbours can change places wherever the fold can
get to. -/
theorem foldl_perm {α β : Type} {f : β → α → β} {P : β → Prop} {Q : α → Prop}
    (closed : ∀ {z x}, P z → Q x → P (f z x))
    (swap : ∀ {z x y}, P z → Q x → Q y → f (f z x) y = f (f z y) x) {l l' : List α} (perm : l.Perm l')
    {z : β} (start : P z) (all : ∀ x ∈ l, Q x) : l.foldl f z = l'.foldl f z := by
  induction perm generalizing z with
  | nil => rfl
  | cons x _ ih =>
    rw [List.forall_mem_cons] at all
    exact ih (closed start all.1) all.2
  | swap x y l =>
    rw [List.forall_mem_cons, List.forall_mem_cons] at all
    rw [List.foldl_cons, List.foldl_cons, List.foldl_cons, List.foldl_cons, swap start all.1 all.2.1]
  | trans first _ ih ih' =>
    rw [ih start all, ih' start fun x member => all x (first.mem_iff.2 member)]

namespace Guard

variable {answer : Nat → Nat → Bool} {level : Int} {a b g : Guard} {gs : List Guard}

mutual

/-- The value of a guard, with the answers to the predicates and the precedence of the rule call. -/
def holds (answer : Nat → Nat → Bool) (level : Int) : Guard → Bool
  | .always => true
  | .predicate rule pred _ => answer rule pred
  | .precedence p => decide (level ≤ p)
  | .all gs => allHold answer level gs
  | .any gs => anyHolds answer level gs

/-- Do all guards have the value true? -/
def allHold (answer : Nat → Nat → Bool) (level : Int) : List Guard → Bool
  | [] => true
  | g :: gs => g.holds answer level && allHold answer level gs

/-- Does some guard have the value true? -/
def anyHolds (answer : Nat → Nat → Bool) (level : Int) : List Guard → Bool
  | [] => false
  | g :: gs => g.holds answer level || anyHolds answer level gs

end

theorem holds_all : (all gs).holds answer level = gs.all (·.holds answer level) := by
  rw [Guard.holds]
  induction gs with
  | nil => rfl
  | cons g gs ih => rw [allHold, ih, List.all_cons]

theorem holds_any : (any gs).holds answer level = gs.any (·.holds answer level) := by
  rw [Guard.holds]
  induction gs with
  | nil => rfl
  | cons g gs ih => rw [anyHolds, ih, List.any_cons]

/-- The evaluator keeps no state: it gives the same answers at all times, and compares precedences with that
of the rule call. -/
structure Evaluator.Steady {η : Type} (ev : Evaluator η) (answer : Nat → Nat → Bool) (level : Int) :
    Prop where
  predicate : ∀ rule pred h, ev.predicate rule pred h = (answer rule pred, h)
  precedence : ∀ p h, ev.precedence p h = (decide (level ≤ p), h)

section Evaluation

variable {η : Type} {ev : Evaluator η}

theorem evalAll_cons (g : Guard) (gs : List Guard) (h : η) :
    evalAll ev (g :: gs) h =
      if (eval ev g h).1 then evalAll ev gs (eval ev g h).2 else (false, (eval ev g h).2) := by
  rw [evalAll]
  change (if (eval ev g h).1 = true then evalAll ev gs else pure false) (eval ev g h).2 = _
  split <;> rfl

theorem evalAny_cons (g : Guard) (gs : List Guard) (h : η) :
    evalAny ev (g :: gs) h =
      if (eval ev g h).1 then (true, (eval ev g h).2) else evalAny ev gs (eval ev g h).2 := by
  rw [evalAny]
  change (if (eval ev g h).1 = true then pure true else evalAny ev gs) (eval ev g h).2 = _
  split <;> rfl

mutual

/-- Evaluation finds the value. -/
theorem eval_eq_holds (steady : ev.Steady answer level) (g : Guard) (h : η) :
    eval ev g h = (g.holds answer level, h) := by
  match g with
  | .always => rfl
  | .predicate rule pred _ => exact steady.predicate rule pred h
  | .precedence p => exact steady.precedence p h
  | .all gs => rw [eval, holds_all, evalAll_eq_all steady gs h]
  | .any gs => rw [eval, holds_any, evalAny_eq_any steady gs h]

theorem evalAll_eq_all (steady : ev.Steady answer level) (gs : List Guard) (h : η) :
    evalAll ev gs h = (gs.all (·.holds answer level), h) := by
  match gs with
  | [] => rfl
  | g :: gs =>
    rw [evalAll_cons, eval_eq_holds steady g h, List.all_cons, evalAll_eq_all steady gs h]
    cases g.holds answer level <;> rfl

theorem evalAny_eq_any (steady : ev.Steady answer level) (gs : List Guard) (h : η) :
    evalAny ev gs h = (gs.any (·.holds answer level), h) := by
  match gs with
  | [] => rfl
  | g :: gs =>
    rw [evalAny_cons, eval_eq_holds steady g h, List.any_cons, evalAny_eq_any steady gs h]
    cases g.holds answer level <;> rfl

end

end Evaluation

/-! ## The value of a connective -/

/-- What the canonical form leaves out is a precedence predicate for which a better one is there. -/
theorem mem_canonical_or_better {choose : List Int → Option Int} {better : Int → Int → Prop}
    (picks : Picks choose better) (member : g ∈ gs) :
    g ∈ canonical choose gs ∨
      ∃ p q, g = precedence q ∧ precedence p ∈ canonical choose gs ∧ better p q := by
  cases free : g.precedence? with
  | none => exact .inl ((mem_canonical picks).2 (.inl ⟨member, free⟩))
  | some q =>
    cases g <;> cases free
    have there := mem_filterMap_precedence.2 member
    cases chosen : choose (gs.filterMap precedence?) with
    | none =>
      rw [picks.eq_none_iff.1 chosen] at there
      cases there
    | some p =>
      exact .inr ⟨p, q, rfl, (mem_canonical picks).2 (.inr ⟨p, rfl, chosen⟩),
        (picks.eq_some_iff.1 chosen).2 q there⟩

/-- A conjunction in canonical form has the value of all operands. -/
theorem all_holds_canonical :
    (canonical List.min? gs).all (·.holds answer level) = gs.all (·.holds answer level) := by
  rw [Bool.eq_iff_iff, List.all_eq_true, List.all_eq_true]
  refine ⟨fun holds g member => ?_, fun holds g member => holds g (subset_canonical picks_min member)⟩
  rcases mem_canonical_or_better picks_min member with there | ⟨p, q, rfl, there, least⟩
  · exact holds g there
  · have holdsLeast := holds _ there
    simp only [Guard.holds, decide_eq_true_eq] at holdsLeast ⊢
    omega

/-- A disjunction in canonical form has the value of all operands. -/
theorem any_holds_canonical :
    (canonical List.max? gs).any (·.holds answer level) = gs.any (·.holds answer level) := by
  rw [Bool.eq_iff_iff, List.any_eq_true, List.any_eq_true]
  constructor
  · rintro ⟨g, member, holds⟩
    exact ⟨g, subset_canonical picks_max member, holds⟩
  · rintro ⟨g, member, holds⟩
    rcases mem_canonical_or_better picks_max member with there | ⟨p, q, rfl, there, greatest⟩
    · exact ⟨g, there, holds⟩
    · refine ⟨_, there, ?_⟩
      simp only [Guard.holds, decide_eq_true_eq] at holds ⊢
      omega

theorem holds_combine_all : (combine all gs).holds answer level = gs.all (·.holds answer level) := by
  unfold combine
  split
  · simp
  · exact holds_all

theorem holds_combine_any : (combine any gs).holds answer level = gs.any (·.holds answer level) := by
  unfold combine
  split
  · simp
  · exact holds_any

theorem all_holds_conjuncts : a.conjuncts.all (·.holds answer level) = a.holds answer level := by
  cases a with
  | all gs => exact holds_all.symm
  | always | predicate | precedence | any => simp [conjuncts]

theorem any_holds_disjuncts : a.disjuncts.any (·.holds answer level) = a.holds answer level := by
  cases a with
  | any gs => exact holds_any.symm
  | always | predicate | precedence | all => simp [disjuncts]

/-- A conjunction holds if both sides hold. -/
theorem holds_and (a b : Guard) :
    (and a b).holds answer level = (a.holds answer level && b.holds answer level) := by
  rcases eq_always_or_open a with rfl | openA
  · simp [Guard.holds]
  rcases eq_always_or_open b with rfl | openB
  · simp [Guard.holds]
  rw [and_eq_join openA openB]
  exact holds_combine_all.trans (all_holds_canonical.trans (by
    rw [List.all_append]
    exact congrArg₂ _ all_holds_conjuncts all_holds_conjuncts))

/-- A disjunction holds if one of the sides holds. -/
theorem holds_or (a b : Guard) :
    (or a b).holds answer level = (a.holds answer level || b.holds answer level) := by
  rcases eq_always_or_open a with rfl | openA
  · simp [Guard.holds]
  rcases eq_always_or_open b with rfl | openB
  · simp [Guard.holds]
  rw [or_eq_join openA openB]
  exact holds_combine_any.trans (any_holds_canonical.trans (by
    rw [List.any_append]
    exact congrArg₂ _ any_holds_disjuncts any_holds_disjuncts))

/-- Guards that are collected one after the other make the same guard in any order. -/
theorem foldl_and_perm {gs hs : List Guard} (perm : gs.Perm hs) (normal : ∀ g ∈ gs, Normal g) :
    gs.foldl and .always = hs.foldl and .always := by
  refine foldl_perm (P := Normal) (Q := Normal) Normal.and ?_ perm .always normal
  intro z x y normalZ normalX normalY
  rw [Guard.and_assoc normalZ normalX normalY, Guard.and_comm x y, Guard.and_assoc normalZ normalY normalX]

/-- **The algebra of guards.** For any two guards, with an evaluator that keeps no state, the conjunction has
the value of both and the disjunction that of one of them. On guards that were put together by them both
connectives are commutative, associative and idempotent as forms, so that conditions which are collected one
after the other make the same guard in any order. -/
theorem connectives_lawful {η : Type} {ev : Evaluator η} (steady : ev.Steady answer level) :
    (∀ a b h, eval ev (and a b) h = ((eval ev a h).1 && (eval ev b h).1, h)) ∧
    (∀ a b h, eval ev (or a b) h = ((eval ev a h).1 || (eval ev b h).1, h)) ∧
    (∀ a b c, Collected a → Collected b → Collected c →
      (and a b = and b a ∧ and (and a b) c = and a (and b c) ∧ and a a = a) ∧
      (or a b = or b a ∧ or (or a b) c = or a (or b c) ∧ or a a = a)) ∧
    ∀ gs hs : List Guard, gs.Perm hs → (∀ g ∈ gs, Collected g) →
      gs.foldl and .always = hs.foldl and .always := by
  refine ⟨fun a b h => ?_, fun a b h => ?_, fun a b c collectedA collectedB collectedC => ?_,
    fun gs hs perm collected => foldl_and_perm perm fun g member => (collected g member).normal⟩
  · simp only [eval_eq_holds steady, holds_and]
  · simp only [eval_eq_holds steady, holds_or]
  · have normalA := collectedA.normal
    have normalB := collectedB.normal
    have normalC := collectedC.normal
    exact ⟨⟨Guard.and_comm a b, Guard.and_assoc normalA normalB normalC, Guard.and_self normalA⟩,
      Guard.or_comm a b, Guard.or_assoc normalA normalB normalC, Guard.or_self normalA⟩

/-- At precedence 2, where only predicate 0 is answered with yes: a disjunction and a conjunction, each with a
precedence predicate, and their disjunction. Evaluation and the laws at these guards, and the conjunction of
the first two written out. -/
theorem connectives_lawful_nested :
    let ev : Evaluator Unit := ⟨fun _ pred h => (pred == 0, h), fun p h => (decide (2 ≤ p), h)⟩
    let a := or (predicate 0 0 false) (precedence 3)
    let b := and (precedence 1) (predicate 0 1 false)
    let c := or b a
    ev.Steady (fun _ pred => pred == 0) 2 ∧ (Collected a ∧ Collected b ∧ Collected c) ∧
    eval ev (and a b) () = ((eval ev a ()).1 && (eval ev b ()).1, ()) ∧
    eval ev (or a b) () = ((eval ev a ()).1 || (eval ev b ()).1, ()) ∧
    ((and a b = and b a ∧ and (and a b) c = and a (and b c) ∧ and a a = a) ∧
      (or a b = or b a ∧ or (or a b) c = or a (or b c) ∧ or a a = a)) ∧
    ([a, b, c].Perm [c, b, a] ∧ [a, b, c].foldl and .always = [c, b, a].foldl and .always) ∧
    and a b = .all [predicate 0 1 false, precedence 1, .any [predicate 0 0 false, precedence 3]] := by
  intro ev a b c
  have steady : ev.Steady (fun _ pred => pred == 0) 2 := ⟨fun _ _ _ => rfl, fun _ _ => rfl⟩
  have collectedA : Collected a := .or (.predicate 0 0 false) (.precedence 3)
  have collectedB : Collected b := .and (.precedence 1) (.predicate 0 1 false)
  have collectedC : Collected c := .or collectedB collectedA
  have perm : [a, b, c].Perm [c, b, a] := (List.reverse_perm [a, b, c]).symm
  obtain ⟨conj, disj, laws, order⟩ := connectives_lawful steady
  exact ⟨steady, ⟨collectedA, collectedB, collectedC⟩, conj a b (), disj a b (),
    laws a b c collectedA collectedB collectedC,
    ⟨perm, order _ _ perm (by simp [collectedA, collectedB, collectedC])⟩, by decide⟩

end Guard

end AdaptiveLL
