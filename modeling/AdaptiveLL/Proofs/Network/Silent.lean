import AdaptiveLL.Proofs.Network.RoundTrip
import Mathlib.Logic.Relation
import Mathlib.Data.Finite.Prod
import Mathlib.Data.Fintype.Card

/-!
# Going on without consuming

A thread can leave a state without consuming a symbol in three ways: by a transition that asks for no
symbol, by entering a rule that it calls, and by passing over such a rule when the rule can be passed
without consuming. `Silent` is this relation between states. When no rule can come back to its own
start in this way and no rule invocation runs in a circle, every silent run is finite
(`wellFounded_silent`).
-/

set_option autoImplicit false

namespace AdaptiveLL.Network

variable (net : Network)

/-- Is the state the end of a rule? -/
def isStop (n : Nat) : Bool := (net.state n).kind.isRuleStop

/-- The end of the rule can be reached from the state without consuming. -/
inductive Passes : Nat → Prop
  | stop {n : Nat} (isStop : net.isStop n = true) : Passes n
  | free {n m : Nat} (inner : net.isStop n = false) (move : .free m ∈ net.moves n)
      (rest : Passes m) : Passes n
  | call {n r start follow : Nat} (inner : net.isStop n = false)
      (move : .call r start follow ∈ net.moves n) (through : Passes start) (rest : Passes follow) :
      Passes n

/-- One step within the invocation of a rule that consumes nothing: a free move, or a call of a rule
that may be passed over. -/
inductive Glides (passable : Nat → Prop) : Nat → Nat → Prop
  | free {n m : Nat} (inner : net.isStop n = false) (move : .free m ∈ net.moves n) :
      Glides passable n m
  | skip {n r start follow : Nat} (inner : net.isStop n = false)
      (move : .call r start follow ∈ net.moves n) (passed : passable start) :
      Glides passable n follow

/-- One step that consumes nothing, within the invocation of a rule or into that of another. -/
inductive Silent : Nat → Nat → Prop
  | glide {n m : Nat} (step : net.Glides net.Passes n m) : Silent n m
  | enter {n r start follow : Nat} (inner : net.isStop n = false)
      (move : .call r start follow ∈ net.moves n) : Silent n start

/-- No rule comes back to its own start without consuming. -/
def Progressive : Prop := ∀ r < net.numRules,
  ¬ Relation.TransGen net.Silent (net.ruleStart r) (net.ruleStart r)

variable {net}

/-- A silent run stays within the invocation of a rule, or enters some rule on its way. -/
theorem silent_run {a b : Nat} (run : Relation.TransGen net.Silent a b) :
    Relation.TransGen (net.Glides net.Passes) a b ∨ ∃ c r start follow,
      Relation.ReflTransGen net.Silent a c ∧ net.isStop c = false ∧
        .call r start follow ∈ net.moves c ∧ Relation.ReflTransGen net.Silent start b := by
  induction run with
  | single step =>
    cases step with
    | glide step => exact .inl (.single step)
    | enter inner move => exact .inr ⟨a, _, _, _, .refl, inner, move, .refl⟩
  | tail run step ih =>
    cases step with
    | glide step =>
      rcases ih with within | ⟨c, r, start, follow, before, inner, move, after⟩
      · exact .inl (within.tail step)
      · exact .inr ⟨c, r, start, follow, before, inner, move, after.tail (.glide step)⟩
    | enter inner move => exact .inr ⟨_, _, _, _, run.to_reflTransGen, inner, move, .refl⟩

theorem lt_size_of_move {n : Nat} {move : Move} (member : move ∈ net.moves n) :
    n < net.states.size := by
  by_contra outside
  rw [moves, out_of_le (Nat.not_lt.1 outside)] at member
  cases member

/-- The rank falls along a move that consumes nothing, into a called rule and, if the rule may be passed
over, behind it. The states from which the end of a rule is reached are among the late ones. -/
def Falls (rank : Nat → Nat) (late : Nat → Bool) (n : Nat) : Move → Prop
  | .free m => rank m < rank n ∧ (late m = true → late n = true)
  | .consume _ => True
  | .call _ start follow => rank start < rank n ∧
      (late start = true → rank follow < rank n ∧ (late follow = true → late n = true))

instance (rank : Nat → Nat) (late : Nat → Bool) (n : Nat) :
    (move : Move) → Decidable (Falls rank late n move)
  | .free m => inferInstanceAs (Decidable (rank m < rank n ∧ (late m = true → late n = true)))
  | .consume _ => inferInstanceAs (Decidable True)
  | .call _ start follow => inferInstanceAs (Decidable (rank start < rank n ∧
      (late start = true → rank follow < rank n ∧ (late follow = true → late n = true))))

/-- When some rank falls along all moves that consume nothing, no rule comes back to its start. -/
theorem progressive_of_rank (rank : Nat → Nat) (late : Nat → Bool)
    (stops : ∀ n < net.states.size, net.isStop n = true → late n = true)
    (falls : ∀ n < net.states.size, net.isStop n = false →
      ∀ move ∈ net.moves n, Falls rank late n move) : net.Progressive := by
  have late_of_passes {n : Nat} (passes : net.Passes n) : late n = true := by
    induction passes with
    | @stop n isStop =>
      refine stops n ?_ isStop
      by_contra outside
      rw [Network.isStop, state_of_le (Nat.not_lt.1 outside)] at isStop
      cases isStop
    | free inner move rest ih => exact (falls _ (lt_size_of_move move) inner _ move).2 ih
    | call inner move through rest ihThrough ihRest =>
      exact ((falls _ (lt_size_of_move move) inner _ move).2 ihThrough).2 ihRest
  have step {n m : Nat} (silent : net.Silent n m) : rank m < rank n := by
    cases silent with
    | glide step =>
      cases step with
      | free inner move => exact (falls n (lt_size_of_move move) inner _ move).1
      | skip inner move passed =>
        exact ((falls n (lt_size_of_move move) inner _ move).2 (late_of_passes passed)).1
    | enter inner move => exact (falls n (lt_size_of_move move) inner _ move).1
  have run {n m : Nat} (silent : Relation.TransGen net.Silent n m) : rank m < rank n := by
    induction silent with
    | single silent => exact step silent
    | tail _ silent ih => exact Nat.lt_trans (step silent) ih
  exact fun r _ circle => Nat.lt_irrefl _ (run circle)

/-- The calls of a network lead to the starts of its rules. -/
def CallsStarts (net : Network) : Prop := ∀ n r start follow, net.isStop n = false →
  .call r start follow ∈ net.moves n → r < net.numRules ∧ start = net.ruleStart r

/-- Without rules that come back to their start and without circles within a rule, there are no
circles at all. -/
theorem silent_acyclic (calls : net.CallsStarts) (progressive : net.Progressive)
    (within : ∀ n, ¬ Relation.TransGen (net.Glides net.Passes) n n) (n : Nat) :
    ¬ Relation.TransGen net.Silent n n := by
  intro circle
  rcases silent_run circle with glides | ⟨c, r, start, follow, before, inner, move, after⟩
  · exact within n glides
  · obtain ⟨known, rfl⟩ := calls c r start follow inner move
    have toCall : Relation.ReflTransGen net.Silent (net.ruleStart r) c := after.trans before
    exact progressive r known (Relation.TransGen.tail' toCall (.enter inner move))

theorem Glides.lt_size {passable : Nat → Prop} {n m : Nat} (step : net.Glides passable n m) :
    n < net.states.size := by
  cases step with
  | free inner move => exact lt_size_of_move move
  | skip inner move passed => exact lt_size_of_move move

theorem Glides.inner {passable : Nat → Prop} {n m : Nat} (step : net.Glides passable n m) :
    ¬ net.isStop n = true := by
  cases step with
  | free inner move => simp [inner]
  | skip inner move passed => simp [inner]

theorem Silent.lt_size {n m : Nat} (step : net.Silent n m) : n < net.states.size := by
  cases step with
  | glide step => exact step.lt_size
  | enter inner move => exact lt_size_of_move move

/-- Without circles every silent run ends, since there are only finitely many states. -/
theorem wellFounded_silent (acyclic : ∀ n, ¬ Relation.TransGen net.Silent n n) :
    WellFounded fun m n => net.Silent n m := by
  let later (m n : Fin net.states.size) : Prop := Relation.TransGen net.Silent n m
  have wf : WellFounded later := by
    have : IsTrans (Fin net.states.size) later := ⟨fun _ _ _ first second => second.trans first⟩
    have : Std.Irrefl later := ⟨fun n => acyclic n⟩
    exact Finite.wellFounded_of_trans_of_irrefl later
  have inside : ∀ n : Fin net.states.size, Acc (fun m n => net.Silent n m) n.val := by
    intro n
    induction n using wf.induction with
    | h n ih =>
      refine Acc.intro _ fun m step => ?_
      by_cases bound : m < net.states.size
      · exact ih ⟨m, bound⟩ (.single step)
      · exact Acc.intro _ fun k next => absurd next.lt_size bound
  refine ⟨fun n => ?_⟩
  by_cases bound : n < net.states.size
  · exact inside ⟨n, bound⟩
  · exact Acc.intro _ fun k next => absurd next.lt_size bound

end AdaptiveLL.Network
