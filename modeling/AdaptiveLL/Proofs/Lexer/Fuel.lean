import AdaptiveLL.Lexer.Match

/-!
# More fuel changes nothing

A match that ends with some amount of fuel ends with any larger amount in the same way. So what is
proved of a match with much fuel holds of every match that ends.
-/

set_option autoImplicit false

namespace AdaptiveLL

/-- Whenever the first computation succeeds, the second does the same. -/
def Below {σ α : Type} (x y : StateT σ Option α) : Prop :=
  ∀ s r, x.run s = some r → y.run s = some r

namespace Below

variable {σ α β : Type}

theorem refl (x : StateT σ Option α) : Below x x := fun _ _ => id

theorem failure (x : StateT σ Option α) : Below failure x := fun _ _ run => nomatch run

theorem bind {x y : StateT σ Option α} {f g : α → StateT σ Option β} (first : Below x y)
    (rest : ∀ a, Below (f a) (g a)) : Below (x >>= f) (y >>= g) := by
  intro s r run
  rw [StateT.run_bind] at run ⊢
  obtain ⟨⟨a, s'⟩, ran, run'⟩ := Option.bind_eq_some_iff.1 run
  rw [first s _ ran]
  exact rest a s' r run'

theorem lift {x y : Option α} (same : ∀ a, x = some a → y = some a) :
    Below (liftM x : StateT σ Option α) (liftM y) := by
  intro s r run
  obtain ⟨a, ran, result⟩ := Option.bind_eq_some_iff.1 run
  exact Option.bind_eq_some_iff.2 ⟨a, same a ran, result⟩

theorem ite {c : Prop} [Decidable c] {x y x' y' : StateT σ Option α} (yes : Below x x')
    (no : Below y y') : Below (if c then x else y) (if c then x' else y') := by
  split
  · exact yes
  · exact no

theorem foldlM {f g : β → α → StateT σ Option β} (step : ∀ b a, Below (f b a) (g b a)) (xs : List α)
    (b : β) : Below (xs.foldlM f b) (xs.foldlM g b) := by
  induction xs generalizing b with
  | nil => exact refl _
  | cons x xs ih =>
    rw [List.foldlM_cons, List.foldlM_cons]
    exact (step b x).bind ih

end Below

namespace Lexer

variable {η : Type}

theorem closure_below (env : ClosureEnv η) {fuel fuel' : Nat} (le : fuel ≤ fuel') (c : Config)
    (done : Bool) : Below (closure env fuel c done) (closure env fuel' c done) := by
  induction fuel generalizing fuel' c done with
  | zero => exact Below.failure _
  | succ fuel ih =>
    obtain ⟨fuel', rfl⟩ : ∃ k, fuel' = k + 1 := ⟨fuel' - 1, by omega⟩
    have later := fun c done => ih (Nat.le_of_succ_le_succ le) c done
    rw [closure, closure]
    refine Below.ite (Below.ite (Below.refl _) ?_) ?_
    · refine Below.ite (Below.bind (Below.refl _) fun _ => Below.bind (Below.refl _) fun done => ?_)
        (Below.bind (Below.refl _) fun done => ?_)
      all_goals
        refine Below.foldlM (fun done entry => ?_) _ _
        obtain ⟨_ | n, parent⟩ := entry
        · exact Below.refl _
        · exact later _ _
    · refine Below.ite (Below.bind (Below.refl _) fun _ => ?_) ?_
      all_goals
        refine Below.foldlM (fun done t => Below.bind (Below.refl _) fun next => ?_) _ _
        cases next with
        | none => exact Below.refl _
        | some d => exact later d done

theorem followTransitions_below (env : ClosureEnv η) {fuel fuel' : Nat} (le : fuel ≤ fuel')
    (symbol : Int) (offset : Nat) (c : Config) (done : Bool) (ts : List Transition) :
    Below (followTransitions env fuel symbol offset c done ts)
      (followTransitions env fuel' symbol offset c done ts) := by
  induction ts with
  | nil => exact Below.refl _
  | cons t ts ih =>
    rw [followTransitions, followTransitions]
    refine Below.ite (Below.bind (closure_below env le _ _) fun reached => ?_) ih
    exact Below.ite (Below.refl _) ih

theorem followConfigs_below (env : ClosureEnv η) {fuel fuel' : Nat} (le : fuel ≤ fuel') (symbol : Int)
    (offset doneAlt : Nat) (cs : List Config) :
    Below (followConfigs env fuel symbol offset doneAlt cs)
      (followConfigs env fuel' symbol offset doneAlt cs) := by
  induction cs generalizing doneAlt with
  | nil => exact Below.refl _
  | cons c cs ih =>
    rw [followConfigs, followConfigs]
    exact Below.ite (ih _)
      (Below.bind (followTransitions_below env le symbol offset c _ _) fun _ => ih _)

variable {env : MatchEnv η} {fuel' : Nat}

theorem startSet_refuelled (more : env.fuel ≤ fuel') {input : CharStream} {n : Nat} {hooks : η}
    {reached : Reached η} (run : startSet env input n hooks = some reached) :
    startSet { env with fuel := fuel' } input n hooks = some reached := by
  unfold startSet at run ⊢
  generalize ({ configs := .ofLexer, hooks } : Reached η) = start at run ⊢
  simp only at run ⊢
  generalize (env.net.state n).transitions.zipIdx = ts at run ⊢
  induction ts generalizing start with
  | nil => exact run
  | cons t ts ih =>
    rw [List.foldlM_cons] at run ⊢
    obtain ⟨mid, first, rest⟩ := Option.bind_eq_some_iff.1 run
    obtain ⟨r, ran, result⟩ := Option.bind_eq_some_iff.1 first
    refine Option.bind_eq_some_iff.2 ⟨mid, ?_, ih mid rest⟩
    exact Option.bind_eq_some_iff.2 ⟨r, closure_below _ more _ _ _ _ ran, result⟩

theorem reachSet_refuelled (more : env.fuel ≤ fuel') {m : Matcher η} {configs : ConfigSet}
    {symbol : Int} {reached : Reached η} (run : reachSet env m configs symbol = some reached) :
    reachSet { env with fuel := fuel' } m configs symbol = some reached := by
  unfold reachSet at run ⊢
  obtain ⟨r, ran, result⟩ := Option.bind_eq_some_iff.1 run
  exact Option.bind_eq_some_iff.2 ⟨r, followConfigs_below _ more _ _ _ _ _ _ ran, result⟩

theorem startState_below (more : env.fuel ≤ fuel') :
    Below (startState env) (startState { env with fuel := fuel' }) := by
  unfold startState
  refine Below.bind (Below.refl _) fun d => ?_
  cases d.start with
  | some n => exact Below.refl _
  | none =>
    refine Below.bind (Below.refl _) fun m => ?_
    exact Below.bind (Below.lift fun reached => startSet_refuelled more) fun reached => Below.refl _

theorem computeTarget_below (more : env.fuel ≤ fuel') (n : Nat) (symbol : Int) :
    Below (computeTarget env n symbol) (computeTarget { env with fuel := fuel' } n symbol) := by
  unfold computeTarget
  refine Below.bind (Below.refl _) fun m => Below.bind (Below.refl _) fun d => ?_
  exact Below.bind (Below.lift fun reached => reachSet_refuelled more) fun reached => Below.refl _

theorem target_below (more : env.fuel ≤ fuel') (n : Nat) (symbol : Int) :
    Below (target env n symbol) (target { env with fuel := fuel' } n symbol) := by
  unfold target
  refine Below.bind (Below.refl _) fun d => ?_
  cases (edgePlace? symbol).bind (d.state n).edge? with
  | some e => exact Below.refl _
  | none => exact Below.bind (Below.refl _) fun _ => computeTarget_below more n symbol

theorem run_below (more : env.fuel ≤ fuel') {rounds rounds' : Nat} (le : rounds ≤ rounds') (n : Nat)
    (last : Option Accepted) :
    Below (run env rounds n last) (run { env with fuel := fuel' } rounds' n last) := by
  induction rounds generalizing rounds' n last with
  | zero => exact Below.failure _
  | succ rounds ih =>
    obtain ⟨rounds', rfl⟩ : ∃ k, rounds' = k + 1 := ⟨rounds' - 1, by omega⟩
    have later := fun n last => ih (Nat.le_of_succ_le_succ le) n last
    rw [run, run]
    refine Below.bind (Below.refl _) fun m => Below.bind (target_below more n _) fun e => ?_
    cases e with
    | dead => exact Below.refl _
    | target next =>
      have rest : Below
          (do
            let s := (← dfa env).state next
            let last := note s (← get) last
            if s.accepts && m.input.la 1 = endOfInput then return (m.input.la 1, last)
            run env rounds next last)
          (do
            let s := (← dfa env).state next
            let last := note s (← get) last
            if s.accepts && m.input.la 1 = endOfInput then return (m.input.la 1, last)
            run { env with fuel := fuel' } rounds' next last) :=
        Below.bind (Below.refl _) fun d => Below.bind (Below.refl _) fun m' =>
          Below.ite (Below.refl _) (later _ _)
      exact Below.ite (Below.bind (Below.refl _) fun _ => rest) rest

/-- More fuel gives the same match. -/
theorem matchToken_below {net : Network} {hooks : LexerHooks η} {fuel mode : Nat}
    (more : fuel ≤ fuel') :
    Below (matchToken net hooks fuel mode) (matchToken net hooks fuel' mode) := by
  unfold matchToken
  refine Below.bind (Below.refl _) fun _ => Below.bind (Below.refl _) fun _ => ?_
  let env : MatchEnv η := { net, hooks, mode, fuel }
  have more' : env.fuel ≤ fuel' := more
  refine Below.bind (startState_below more') fun n => ?_
  refine Below.bind (Below.refl _) fun d => Below.bind (Below.refl _) fun m => ?_
  exact Below.bind (run_below more' more n _) fun _ => Below.refl _

end Lexer

end AdaptiveLL
