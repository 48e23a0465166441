import AdaptiveLL.Prediction.Adaptive
import AdaptiveLL.Proofs.Prediction.Ending
import AdaptiveLL.Proofs.Tokens.Refuelled

/-!
# Predictions with more fuel

A simulation that ends with some amount of fuel ends with any larger amount in the same way (`closure_below`). So a
prediction begins at the same state and goes on to the same states with more fuel (`startState_refuels`,
`target_refuels`).
-/

set_option autoImplicit false

namespace AdaptiveLL

open Session

theorem Below.forM {σ α : Type} {f g : α → StateT σ Option PUnit} (step : ∀ a, Below (f a) (g a)) (xs : List α) :
    Below (xs.forM f) (xs.forM g) := by
  induction xs with
  | nil => exact refl _
  | cons x xs ih => exact (step x).bind fun _ => ih

namespace Prediction

variable {η : Type} (env : Env η) {p : Purpose} {less more fuel fuel' : Nat}

/-! ## Closures -/

theorem passEdge_below (later : ∀ (c : Config) (collect : Bool) (depth : Int),
      Below (closure (env.fueled less) p fuel c collect depth) (closure (env.fueled more) p fuel' c collect depth))
    (c : Config) (collect : Bool) (depth : Int) (t : Transition) :
    Below (passEdge (env.fueled less) p fuel c collect depth t)
      (passEdge (env.fueled more) p fuel' c collect depth t) := by
  refine .bind (.refl _) fun next => ?_
  cases next with
  | none => exact .refl _
  | some next =>
    refine .ite (.bind (.refl _) fun isNew => ?_) (.ite (later _ _ _) (.bind (.refl _) fun isNew => ?_))
    · exact .ite (.bind (.refl _) fun _ => later _ _ _) (.refl _)
    · exact .ite (later _ _ _) (.refl _)

/-- A closure calls itself with less fuel, also where it only follows the transitions. -/
theorem closure_below (le : fuel ≤ fuel') (c : Config) (collect : Bool) (depth : Int) :
    Below (closure (env.fueled less) p fuel c collect depth) (closure (env.fueled more) p fuel' c collect depth) ∧
      Below (closureStep (env.fueled less) p fuel c collect depth)
        (closureStep (env.fueled more) p fuel' c collect depth) := by
  induction fuel generalizing fuel' c collect depth with
  | zero => exact ⟨.failure _, .failure _⟩
  | succ fuel ih =>
    obtain ⟨fuel', rfl⟩ : ∃ k, fuel' = k + 1 := ⟨fuel' - 1, by omega⟩
    have later := ih (Nat.le_of_succ_le_succ le)
    have steps := (later c collect depth).2
    constructor
    · rw [closure, closure]
      refine .ite (.ite (.forM (fun entry => ?_) _) (.ite (.refl _) steps)) steps
      obtain ⟨_ | n, parent⟩ := entry
      · exact .ite (.refl _) steps
      · exact (later _ _ _).1
    · have edges : Below ((env.net.out c.state).forM (passEdge (env.fueled less) p fuel c collect depth))
          ((env.net.out c.state).forM (passEdge (env.fueled more) p fuel' c collect depth)) :=
        .forM (passEdge_below env (fun c collect depth => (later c collect depth).1) c collect depth) _
      exact .ite (.bind (.refl _) fun _ => edges) edges

theorem closureOf_below (le : less ≤ more) (collect : Bool) (configs : ConfigSet) (cs : List Config) :
    Below (closureOf (env.fueled less) p collect configs cs) (closureOf (env.fueled more) p collect configs cs) := by
  refine .bind (.refl _) fun scratch => .bind (.lift ?_) fun _ => .refl _
  exact Below.forM (fun c => (closure_below env le c collect 0).1) cs _

/-! ## Sets of configurations -/

theorem startSet_below (le : less ≤ more) (context : Context) (full : Bool) :
    Below (startSet (env.fueled less) context full) (startSet (env.fueled more) context full) :=
  .foldlM (fun _ _ => closureOf_below env le _ _ _) _ _

/-- Filtering needs no fuel. -/
theorem filterFirst_fueled (cs : List Config) (s : ConfigSet) (seen : List (Nat × Context)) :
    filterFirst (env.fueled less) s seen cs = filterFirst env s seen cs := by
  induction cs generalizing s seen with
  | nil => rfl
  | cons c cs ih =>
    rw [filterFirst, filterFirst]
    simp only [evaluator_fueled, ih]

theorem precedenceFilter_fueled (s : ConfigSet) :
    precedenceFilter (env.fueled less) s = precedenceFilter env s := by
  rw [precedenceFilter, precedenceFilter]
  simp only [filterFirst_fueled]

theorem reachSet_below (le : less ≤ more) (configs : ConfigSet) (symbol : Int) (full : Bool) :
    Below (reachSet (env.fueled less) configs symbol full) (reachSet (env.fueled more) configs symbol full) := by
  refine .bind (.refl _) fun moved => ?_
  exact .ite (.refl _) (.bind (closureOf_below env le _ _ _) fun _ => .refl _)

end Prediction

namespace Simulator

open Prediction

variable {η : Type} (env : Env η) {less more : Nat}

/-! ## Steps of a prediction -/

theorem onStream_refuels {α : Type} {x y : TokenStream.StreamM η α} (refuels : Refuels x y) :
    Refuels (onStream x) (onStream y) :=
  .bind (.refl _) fun s => .bind (refuels.part s.stream) fun _ => .refl _

theorem onConfigs_refuels {α : Type} {x y : ScratchM η α} (below : Below x y) :
    Refuels (onConfigs x) (onConfigs y) := by
  refine .bind (.refl _) fun s => ?_
  cases ran : x.run { merges := s.merges, hooks := s.stream.hooks } with
  | none => exact .failure _
  | some found =>
    rw [below _ _ ran]
    exact .refl _

theorem startState_refuels (le : less ≤ more) (precedence : Int) :
    Refuels (startState (env.fueled less) precedence) (startState (env.fueled more) precedence) := by
  refine .bind (.refl _) fun d => ?_
  split
  · exact .refl _
  · refine .bind (onConfigs_refuels (startSet_below env le _ _)) fun configs => ?_
    rw [precedenceFilter_fueled, precedenceFilter_fueled]
    exact .refl _

theorem computeTarget_refuels (le : less ≤ more) (n : Nat) (symbol : Int) :
    Refuels (computeTarget (env.fueled less) n symbol) (computeTarget (env.fueled more) n symbol) :=
  .bind (.refl _) fun _ => .bind (onConfigs_refuels (reachSet_below env le _ _ _)) fun _ => .refl _

theorem target_refuels (le : less ≤ more) (n : Nat) (symbol : Int) :
    Refuels (target (env.fueled less) n symbol) (target (env.fueled more) n symbol) := by
  refine .bind (.refl _) fun d => ?_
  simp only [net_fueled]
  split
  · exact .refl _
  · exact .bind (.refl _) fun _ => computeTarget_refuels env le n symbol

/-! ## How a prediction begins -/

/-- What a prediction of the decision works with. -/
def deciding (net : Network) (evaluator : Guard.Evaluator η) (decision : Nat) (s : Simulator η) (fuel : Nat) : Env η :=
  { net, decision, startState := (s.cache.dfa decision).networkState
    precedenceLoop := (s.cache.dfa decision).precedence, evaluator, fuel }

/-- A prediction has been counted, and remembers no merges. -/
def begun (s : Simulator η) : Simulator η :=
  { s with stats := { s.stats with predictions := s.stats.predictions + 1 }, merges := {} }

end Simulator

end AdaptiveLL
