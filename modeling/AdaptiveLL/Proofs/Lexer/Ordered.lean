import AdaptiveLL.Proofs.Lexer.Additions
import AdaptiveLL.Proofs.Lexer.Scanning
import AdaptiveLL.Proofs.Lexer.Sets

/-!
# The order of the configurations

Which of several rules or of several ways through a rule wins is decided by the order in which a set of a
lexer holds its configurations, and by what is dropped behind a configuration that has reached the end of
its rule. This module says of closures, of the steps behind a symbol and of whole sets not only what they
add but in which order (`Gives`, `Feeds`), for configurations that meet neither predicates nor actions, so that sets
can be computed along the transitions of a network whose states are known.
-/

set_option autoImplicit false

namespace AdaptiveLL

open Network

/-! ## Sets that keep the order -/

namespace ConfigSet

variable {s : ConfigSet} {cs : List Config}

/-- Adds configurations one after the other. -/
def insertAll (s : ConfigSet) (cs : List Config) : ConfigSet := cs.foldl insert s

theorem insertAll_append (s : ConfigSet) (cs cs' : List Config) :
    s.insertAll (cs ++ cs') = (s.insertAll cs).insertAll cs' :=
  List.foldl_append

/-- Configurations of which no two are the same all stay, in their order. -/
theorem insertAll_configs (ordered : s.ordered = true) (arrived : s.arrivals = s.configs)
    (apart : (s.configs.toList ++ cs).Pairwise fun a b => a.same b = false) :
    (s.insertAll cs).configs.toList = s.configs.toList ++ cs := by
  induction cs generalizing s with
  | nil => exact (List.append_nil _).symm
  | cons c cs ih =>
    have fresh : (s.note c).arrivals.any (·.same c) = false := by
      rw [show (s.note c).arrivals = s.configs from arrived, Array.any_eq_false]
      intro i inside
      have member : s.configs[i] ∈ s.configs.toList := Array.mem_toList_iff.2 (Array.getElem_mem inside)
      simpa using (List.pairwise_append.1 apart).2.2 _ member c (by simp)
    have added : s.insert c = { s.note c with
        configs := s.configs.push c, arrivals := s.arrivals.push c } := by
      rw [insert, if_pos (show (s.note c).ordered = true from ordered), insertOrdered, fresh]
      rfl
    have pushed : (s.insert c).configs.toList = s.configs.toList ++ [c] := by
      rw [added]
      exact Array.toList_push
    have rest := ih (s := s.insert c) (by rw [added]; exact ordered) (by rw [added, arrived])
      (by rw [pushed, List.append_assoc]; exact apart)
    rw [pushed, List.append_assoc] at rest
    exact rest

theorem ofLexer_insertAll (apart : cs.Pairwise fun a b => a.same b = false) :
    (ofLexer.insertAll cs).configs.toList = cs :=
  insertAll_configs rfl rfl apart

end ConfigSet

namespace Lexer

variable {η : Type}

/-! ## Closures -/

/-- With enough fuel the closure of the configuration asks nothing and adds these configurations, in this
order. The flags are those of `closure`. -/
def Gives (env : ClosureEnv η) (c : Config) (done : Bool) (added : List Config) (reached : Bool) : Prop :=
  ∃ enough, ∀ fuel, enough ≤ fuel → ∀ r : Reached η, (closure env fuel c done).run r =
    some (reached, { r with configs := r.configs.insertAll added })

variable {env : ClosureEnv η} {c : Config} {done reached : Bool} {added : List Config}

theorem gives_stop (isStop : env.net.isStop c.state = true) (atBottom : c.context.isEmpty = true) :
    Gives env c done [c] true := by
  refine ⟨1, fun fuel more r => ?_⟩
  obtain ⟨fuel, rfl⟩ : ∃ k, fuel = k + 1 := ⟨fuel - 1, by omega⟩
  rw [closure, if_pos (show (env.net.state c.state).kind.isRuleStop = true from isStop), if_pos atBottom]
  rfl

theorem epsilonTarget_of_not_crosses {t : Transition} (stays : crosses env.atEof t.label = false) :
    epsilonTarget env c t = pure none := by
  unfold epsilonTarget
  cases label : t.label with
  | epsilon | rule | predicate | action => rw [label] at stays; cases stays
  | precedence | notSet | wildcard => rfl
  | atom v | range lo hi | set s =>
    rw [label] at stays
    have stays' : (env.atEof && t.label.accepts endOfInput minChar maxChar) = false := by
      rw [label]
      exact stays
    simp only [label] at stays' ⊢
    rw [if_neg (by simp [stays'])]

/-- A configuration that waits for a symbol is all of its closure. -/
theorem gives_waiting {t : Transition} (inner : env.net.isStop c.state = false)
    (waits : (env.net.state c.state).epsilonOnly = false) (alone : env.net.out c.state = [t])
    (stays : crosses env.atEof t.label = false) : Gives env c false [c] false := by
  refine ⟨1, fun fuel more r => ?_⟩
  obtain ⟨fuel, rfl⟩ : ∃ k, fuel = k + 1 := ⟨fuel - 1, by omega⟩
  have notStop : ¬ (env.net.state c.state).kind.isRuleStop = true := by
    rw [show (env.net.state c.state).kind.isRuleStop = false from inner]
    exact Bool.false_ne_true
  rw [closure, if_neg notStop, show (env.net.state c.state).transitions = [t] from alone, waits]
  simp only [List.foldlM_cons, List.foldlM_nil, epsilonTarget_of_not_crosses stays]
  rfl

/-- Transitions that ask for nothing, and what the closures behind them add. -/
inductive GivesEach (env : ClosureEnv η) (c : Config) : Bool → List Transition → List Config → Bool → Prop
  | nil (done : Bool) : GivesEach env c done [] [] done
  | cons {done between reached : Bool} {m : Nat} {ts : List Transition} {added later : List Config}
      (first : Gives env (configAt env.net c m) done added between)
      (rest : GivesEach env c between ts later reached) :
      GivesEach env c done (.epsilon m :: ts) (added ++ later) reached

/-- Steps that continue with the closures of the targets add what these add, one behind the other. -/
theorem GivesEach.folds {ts : List Transition} (each : GivesEach env c done ts added reached) :
    ∃ enough, ∀ fuel, enough ≤ fuel → ∀ step : Bool → Transition → ClosureM η Bool,
      (∀ done m, step done (.epsilon m) = closure env fuel (configAt env.net c m) done) →
      ∀ r, (ts.foldlM step done).run r = some (reached, { r with configs := r.configs.insertAll added }) := by
  induction each with
  | nil done => exact ⟨0, fun fuel more step continues r => rfl⟩
  | cons first rest ih =>
    obtain ⟨enough, gives⟩ := first
    obtain ⟨enough', folds⟩ := ih
    refine ⟨max enough enough', fun fuel more step continues r => ?_⟩
    rw [List.foldlM_cons, continues, StateT.run_bind, gives fuel (by omega), ConfigSet.insertAll_append]
    exact folds fuel (by omega) step continues _

/-- The closure goes along the transitions in their order. -/
theorem gives_free {ts : List Transition} (inner : env.net.isStop c.state = false)
    (passes : (env.net.state c.state).epsilonOnly = true) (out : env.net.out c.state = ts)
    (each : GivesEach env c done ts added reached) : Gives env c done added reached := by
  obtain ⟨enough, folds⟩ := each.folds
  refine ⟨enough + 1, fun fuel more r => ?_⟩
  obtain ⟨fuel, rfl⟩ : ∃ k, fuel = k + 1 := ⟨fuel - 1, by omega⟩
  have notStop : ¬ (env.net.state c.state).kind.isRuleStop = true := by
    rw [show (env.net.state c.state).kind.isRuleStop = false from inner]
    exact Bool.false_ne_true
  rw [closure, if_neg notStop, show (env.net.state c.state).transitions = ts from out, passes]
  exact folds fuel (by omega) _ (fun done m => rfl) r

/-! ## Steps behind a symbol -/

/-- With enough fuel the step of the configuration behind the symbol adds these configurations, and says
whether one of them has reached the end of the rule. -/
def Feeds (env : ClosureEnv η) (symbol : Int) (offset : Nat) (c : Config) (added : List Config)
    (reached : Bool) : Prop :=
  ∃ enough, ∀ fuel, enough ≤ fuel → ∀ r : Reached η,
    (followTransitions env fuel symbol offset c false (env.net.out c.state)).run r =
      some (reached, { r with configs := r.configs.insertAll added })

variable {symbol : Int} {offset : Nat}

theorem feeds_nothing (refuses : ∀ t ∈ env.net.out c.state, t.label.accepts symbol minChar maxChar = false) :
    Feeds env symbol offset c [] false := by
  refine ⟨0, fun fuel more r => ?_⟩
  rw [followTransitions_none _ refuses]
  rfl

theorem feeds_along {t : Transition} (alone : env.net.out c.state = [t])
    (accepts : t.label.accepts symbol minChar maxChar = true)
    (gives : Gives env (consumed env.net offset c t) false added reached) :
    Feeds env symbol offset c added reached := by
  obtain ⟨enough, gives⟩ := gives
  refine ⟨enough, fun fuel more r => ?_⟩
  have run := gives fuel more r
  unfold consumed at run
  rw [alone, followTransitions, if_pos accepts, StateT.run_bind, run]
  cases reached <;> rfl

/-- With enough fuel the steps of the configurations add these ones. -/
def FeedsAll (env : ClosureEnv η) (symbol : Int) (offset doneAlt : Nat) (cs added : List Config) : Prop :=
  ∃ enough, ∀ fuel, enough ≤ fuel → ∀ r : Reached η,
    (followConfigs env fuel symbol offset doneAlt cs).run r =
      some ((), { r with configs := r.configs.insertAll added })

variable {doneAlt : Nat} {cs later : List Config}

theorem feedsAll_nil : FeedsAll env symbol offset doneAlt [] [] := ⟨0, fun _ _ _ => rfl⟩

theorem feedsAll_cons (notDone : c.alt ≠ doneAlt) (first : Feeds env symbol offset c added reached)
    (rest : FeedsAll env symbol offset (if reached then c.alt else doneAlt) cs later) :
    FeedsAll env symbol offset doneAlt (c :: cs) (added ++ later) := by
  obtain ⟨enough, feeds⟩ := first
  obtain ⟨enough', rest⟩ := rest
  refine ⟨max enough enough', fun fuel more r => ?_⟩
  have goes : (c.alt == doneAlt) = false := beq_eq_false_iff_ne.2 notDone
  have run : (followTransitions env fuel symbol offset c false (env.net.state c.state).transitions).run r = _ :=
    feeds fuel (by omega) r
  rw [followConfigs]
  simp only [goes, Bool.false_and, Bool.false_eq_true, if_false]
  rw [StateT.run_bind, run, ConfigSet.insertAll_append]
  exact rest fuel (by omega) _

/-- A configuration that stays within its rule adds its own, and the others follow. -/
theorem feedsAll_goes (notDone : c.alt ≠ doneAlt) (first : Feeds env symbol offset c added false)
    (rest : FeedsAll env symbol offset doneAlt cs later) :
    FeedsAll env symbol offset doneAlt (c :: cs) (added ++ later) :=
  feedsAll_cons notDone first rest

/-- Configurations that all refuse the symbol lead nowhere. -/
theorem feedsAll_refused (notDone : ∀ c ∈ cs, c.alt ≠ doneAlt)
    (refuses : ∀ c ∈ cs, ∀ t ∈ env.net.out c.state, t.label.accepts symbol minChar maxChar = false) :
    FeedsAll env symbol offset doneAlt cs [] := by
  induction cs with
  | nil => exact feedsAll_nil
  | cons c cs ih =>
    have rest := ih (fun d member => notDone d (by simp [member])) fun d member => refuses d (by simp [member])
    exact feedsAll_goes (notDone c (by simp)) (feeds_nothing (refuses c (by simp))) rest

/-- Behind the end of the rule the later configurations that passed a decision which prefers to stop early
are dropped. -/
theorem feedsAll_dropped (dropped : ∀ c ∈ cs, c.alt = doneAlt ∧ c.nonGreedy = true) :
    FeedsAll env symbol offset doneAlt cs [] := by
  induction cs with
  | nil => exact feedsAll_nil
  | cons c cs ih =>
    obtain ⟨enough, rest⟩ := ih fun d member => dropped d (by simp [member])
    obtain ⟨same, nonGreedy⟩ := dropped c (by simp)
    refine ⟨enough, fun fuel more r => ?_⟩
    rw [followConfigs, same, nonGreedy]
    simp only [BEq.rfl, Bool.and_self, if_true]
    exact rest fuel more r

/-! ## Sets -/

theorem FeedsAll.reaches {env : MatchEnv η} {v : Sight η} {configs : ConfigSet}
    (feeds : FeedsAll (reachEnv env v.matcher (v.input.la 1)) (v.input.la 1) (v.input.pos - v.startIndex)
      invalidAlt configs.configs.toList added) :
    Reaches env v configs (ConfigSet.ofLexer.insertAll added) v.hooks := by
  obtain ⟨enough, feeds⟩ := feeds
  refine ⟨enough, ?_⟩
  rw [reachSet_eq]
  have run := feeds enough (Nat.le_refl _) { configs := .ofLexer, hooks := v.hooks }
  exact Option.map_eq_some_iff.2 ⟨_, run, rfl⟩

/-- A mode with one rule begins with the closure of the start of that rule. -/
theorem Gives.starts {env : MatchEnv η} {v : Sight η} {t : Transition}
    (alone : env.net.out (env.net.modeStarts.getD env.mode 0) = [t])
    (gives : Gives (startEnv env v.input) (startConfig env.net t 0) false added reached) :
    Starts env v (ConfigSet.ofLexer.insertAll added) v.hooks := by
  obtain ⟨enough, gives⟩ := gives
  refine ⟨enough, ?_⟩
  rw [startSet_eq]
  change ((startClosures _ v.input (env.net.out _).zipIdx false).run _).map _ = _
  rw [alone]
  have run := gives enough (Nat.le_refl _) { configs := .ofLexer, hooks := v.hooks }
  refine Option.map_eq_some_iff.2 ⟨(reached, _), ?_, rfl⟩
  rw [List.zipIdx_cons, List.zipIdx_nil, startClosures, List.foldlM_cons]
  simp only [List.foldlM_nil, bind_pure]
  exact run

end Lexer

end AdaptiveLL
