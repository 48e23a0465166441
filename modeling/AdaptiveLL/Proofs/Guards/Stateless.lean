import AdaptiveLL.Proofs.Guards.Evaluation

/-!
# User code without a state

Where no predicate changes the state of the user code, neither the evaluation of a guard changes it nor the
resolution of its precedence predicates, whatever the answers are (`eval_stateless`, `resolve_stateless`).
-/

set_option autoImplicit false

namespace AdaptiveLL.Guard

variable {η α β : Type} {ev : Evaluator η}

/-- Predicates leave the state of the user code as it is. Their answers may depend on it. -/
structure Evaluator.Stateless (ev : Evaluator η) : Prop where
  predicate : ∀ rule pred h, (ev.predicate rule pred h).2 = h
  precedence : ∀ p h, (ev.precedence p h).2 = h

/-- The computation leaves the state as it is. -/
def Idle (x : StateM η α) : Prop := ∀ h, (x h).2 = h

theorem Idle.pure (a : α) : Idle (pure a : StateM η α) := fun _ => rfl

theorem Idle.bind {x : StateM η α} {f : α → StateM η β} (first : Idle x) (second : ∀ a, Idle (f a)) :
    Idle (x >>= f) := fun h => (second _ _).trans (first h)

theorem Idle.ite {q : Prop} [Decidable q] {x y : StateM η α} (yes : Idle x) (no : Idle y) :
    Idle (if q then x else y) := by
  split
  · exact yes
  · exact no

mutual

theorem eval_stateless (stateless : ev.Stateless) (g : Guard) : Idle (eval ev g) := by
  match g with
  | .always => exact .pure true
  | .predicate rule pred _ => exact stateless.predicate rule pred
  | .precedence p => exact stateless.precedence p
  | .all gs => exact evalAll_stateless stateless gs
  | .any gs => exact evalAny_stateless stateless gs

theorem evalAll_stateless (stateless : ev.Stateless) (gs : List Guard) : Idle (evalAll ev gs) := by
  match gs with
  | [] => exact .pure true
  | g :: gs => exact (eval_stateless stateless g).bind fun _ => .ite (evalAll_stateless stateless gs) (.pure false)

theorem evalAny_stateless (stateless : ev.Stateless) (gs : List Guard) : Idle (evalAny ev gs) := by
  match gs with
  | [] => exact .pure false
  | g :: gs => exact (eval_stateless stateless g).bind fun _ => .ite (.pure true) (evalAny_stateless stateless gs)

end

mutual

theorem resolve_stateless (stateless : ev.Stateless) (g : Guard) : Idle (resolve ev g) := by
  match g with
  | .always => exact .pure _
  | .predicate _ _ _ => exact .pure _
  | .precedence p =>
    have asked : Idle fun h => ev.precedence p h := stateless.precedence p
    exact asked.bind fun _ => .ite (.pure _) (.pure _)
  | .all gs =>
    refine (resolveAll_stateless stateless gs).bind fun resolved => ?_
    split
    · exact .pure _
    · exact .ite (.pure _) (.pure _)
  | .any gs =>
    refine (resolveAny_stateless stateless gs).bind fun resolved => ?_
    split
    · exact .pure _
    · refine .ite (.pure _) ?_
      split
      · exact .pure _
      · exact .pure _

theorem resolveAll_stateless (stateless : ev.Stateless) (gs : List Guard) : Idle (resolveAll ev gs) := by
  match gs with
  | [] => exact .pure _
  | g :: gs =>
    refine (resolve_stateless stateless g).bind fun resolved => ?_
    split
    · exact .pure _
    · refine (resolveAll_stateless stateless gs).bind fun rest => ?_
      split
      · exact .pure _
      · exact .pure _

theorem resolveAny_stateless (stateless : ev.Stateless) (gs : List Guard) : Idle (resolveAny ev gs) := by
  match gs with
  | [] => exact .pure _
  | g :: gs =>
    refine (resolve_stateless stateless g).bind fun resolved => ?_
    split
    · exact .pure _
    · refine (resolveAny_stateless stateless gs).bind fun rest => ?_
      split
      · exact .pure _
      · exact .pure _

end

end AdaptiveLL.Guard
