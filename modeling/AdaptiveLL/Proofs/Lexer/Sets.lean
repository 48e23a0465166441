import AdaptiveLL.Proofs.Lexer.Closure
import Mathlib.Data.Set.Finite.Lattice

/-!
# The sets of a lexer

After a word that was read in a mode, a thread is live for an alternative when it is settled and the
token rule of that alternative can run through the word to it. The start set of a mode holds the
threads that are live after nothing, and the set behind a symbol holds those that are live after one
symbol more (`startSet_live`, `reachSet_steps`). Since only finitely many threads are live after a
word, some amount of fuel is enough for all closures behind it.
-/

set_option autoImplicit false

namespace AdaptiveLL

open Network

/-- A transition to another state that asks for nothing goes where its move goes. -/
theorem Transition.target_of_free {t : Transition} {m : Nat} (move : t.move = .free m) :
    t.target = m := by
  unfold Transition.move at move
  split at move
  · cases move
  · split at move
    · exact Move.free.inj move
    · cases move

namespace Lexer

variable {η : Type} {net : Network} {g : Grammar}

/-! ## Live threads -/

/-- The thread is live for the alternative after the word. -/
def Live (net : Network) (g : Grammar) (mode : Nat) (w : List Int) (alt : Nat) (θ : Thread) : Prop :=
  ∃ i r, (g.tokenRules mode)[i]? = some r ∧ alt = i + 1 ∧ net.Settled θ ∧
    net.Runs minChar maxChar ⟨net.ruleStart r, []⟩ w θ

/-- The thread is reached for the alternative from a set by consuming a symbol. -/
def Steps (net : Network) (s : ConfigSet) (symbol : Int) (alt : Nat) (θ : Thread) : Prop :=
  ∃ before, s.Holds alt before ∧ ∃ next ∈ net.consumeNext minChar maxChar symbol before,
    net.Settled θ ∧ net.Runs minChar maxChar next [] θ

/-- Does every state know whether it has only transitions that consume nothing? -/
def Refreshed (net : Network) : Prop := ∀ n, (net.state n).epsilonOnly =
  (!(net.out n).isEmpty && (net.out n).all (·.label.isEpsilon))

/-- A thread that can consume is settled. -/
theorem settled_of_consumes (refreshed : Refreshed net) {symbol : Int} {θ next : Thread}
    (step : next ∈ net.consumeNext minChar maxChar symbol θ) : net.Settled θ := by
  obtain ⟨n, stack⟩ := θ
  obtain ⟨inner, t, member, accepts, -⟩ := mem_consumeNext.1 step
  refine .inr ⟨inner, ?_⟩
  have consumes := Transition.move_of_accepts accepts
  rw [refreshed n, Bool.and_eq_false_iff]
  refine .inr (List.all_eq_false.2 ⟨t, member, fun free => ?_⟩)
  unfold Transition.move at consumes
  split at consumes
  · cases consumes
  · simp [free] at consumes

/-- The threads that are live after one symbol more are those reached by consuming it. -/
theorem live_snoc (refreshed : Refreshed net) {mode : Nat} {w : List Int} {symbol : Int} {s : ConfigSet}
    (holds : ∀ alt θ, s.Holds alt θ ↔ Live net g mode w alt θ) (alt : Nat) (θ : Thread) :
    Live net g mode (w ++ [symbol]) alt θ ↔ Steps net s symbol alt θ := by
  constructor
  · rintro ⟨i, r, found, isAlt, settled, run⟩
    obtain ⟨before, runBefore, next, step, after⟩ := runs_snoc.1 run
    exact ⟨before, (holds alt before).2 ⟨i, r, found, isAlt, settled_of_consumes refreshed step,
      runBefore⟩, next, step, settled, after⟩
  · rintro ⟨before, held, next, step, settled, after⟩
    obtain ⟨i, r, found, isAlt, -, runBefore⟩ := (holds alt before).1 held
    exact ⟨i, r, found, isAlt, settled, runs_snoc.2 ⟨before, runBefore, next, step, after⟩⟩

/-! ## The start set -/

/-- The closures of several starts, their alternatives numbered from `k + 1` on. -/
theorem startsFrom_holds {env : ClosureEnv η} {fuel : Nat} (plain : env.net.Plain)
    (ts : List Transition) (k : Nat) (handles : ∀ t ∈ ts, Handles η env.net fuel ⟨t.target, []⟩)
    (reached : Reached η) (gathered : Gathered reached.configs k) :
    ∃ reached', (ts.zipIdx k).foldlM (fun (reached : Reached η) (t, i) => do
        let c : Config := { state := t.target, alt := i + 1, nonGreedy := isNonGreedy env.net t.target }
        return (← (closure env fuel c false).run reached).2) reached = some reached' ∧
      reached'.hooks = reached.hooks ∧ reached'.configs.Lexical ∧
      ∀ alt θ, reached'.configs.Holds alt θ ↔ reached.configs.Holds alt θ ∨ ∃ i t, ts[i]? = some t ∧
        alt = k + i + 1 ∧ env.net.Settled θ ∧ env.net.Runs minChar maxChar ⟨t.target, []⟩ [] θ := by
  induction ts generalizing k reached with
  | nil => exact ⟨reached, rfl, rfl, gathered.lexical, by simp⟩
  | cons t ts ih =>
    let c : Config := { state := t.target, alt := k + 1, nonGreedy := isNonGreedy env.net t.target }
    have follows : c.Follows ⟨t.target, []⟩ := ⟨rfl, rfl, rfl, plain.isNonGreedy t.target⟩
    have gathered' : Gathered reached.configs c.alt :=
      ⟨gathered.lexical, fun d member => Nat.le_succ_of_le (gathered.latest d member)⟩
    obtain ⟨_, mid, run, hooks, gatheredMid, holds⟩ :=
      handles t (by simp) env fuel c false rfl (Nat.le_refl _) follows reached gathered'
    obtain ⟨final, rest, hooks', lexical, holds'⟩ :=
      ih (k + 1) (fun t' member => handles t' (by simp [member])) mid gatheredMid
    refine ⟨final, ?_, hooks'.trans hooks, lexical, fun alt θ => ?_⟩
    · rw [List.zipIdx_cons, List.foldlM_cons, ← rest]
      simp only [c] at run
      simp only [run]
      rfl
    · rw [holds', holds, or_assoc]
      refine or_congr_right ⟨?_, ?_⟩
      · rintro (⟨isAlt, settled, runs⟩ | ⟨i, t', found, isAlt, settled, runs⟩)
        · exact ⟨0, t, rfl, isAlt, settled, runs⟩
        · exact ⟨i + 1, t', found, by omega, settled, runs⟩
      · rintro ⟨_ | i, t', found, isAlt, settled, runs⟩
        · cases found
          exact .inl ⟨isAlt, settled, runs⟩
        · exact .inr ⟨i, t', found, by omega, settled, runs⟩

/-- The way into the token rules of a mode. -/
theorem entry_targets (built : net.Built g) {mode : Nat} (inside : mode < net.modeStarts.size) (i : Nat) :
    ((net.out (net.modeStarts.getD mode 0))[i]?).map (·.target) =
      ((g.tokenRules mode)[i]?).map net.ruleStart := by
  have entry := congrArg (·[i]?) (built.entry mode inside).2
  simp only [moves, List.getElem?_map] at entry
  cases found : (net.out (net.modeStarts.getD mode 0))[i]? with
  | none =>
    cases found' : (g.tokenRules mode)[i]? with
    | none => rfl
    | some r =>
      rw [found, found'] at entry
      cases entry
  | some t =>
    cases found' : (g.tokenRules mode)[i]? with
    | none =>
      rw [found, found'] at entry
      cases entry
    | some r =>
      simp only [found, found', Option.map_some, Option.some.injEq] at entry
      simp only [Option.map_some, Transition.target_of_free entry]

theorem startSet_live {env : MatchEnv η} (plain : env.net.Plain) (built : env.net.Built g)
    (inside : env.mode < env.net.modeStarts.size)
    (handles : ∀ r ∈ g.tokenRules env.mode, Handles η env.net env.fuel ⟨env.net.ruleStart r, []⟩)
    (input : CharStream) (hooks : η) :
    ∃ reached, startSet env input (env.net.modeStarts.getD env.mode 0) hooks = some reached ∧
      reached.hooks = hooks ∧ reached.configs.Lexical ∧
      ∀ alt θ, reached.configs.Holds alt θ ↔ Live env.net g env.mode [] alt θ := by
  have targets := entry_targets built inside
  let closureEnv : ClosureEnv η :=
    { net := env.net, hooks := env.hooks, input, lookingAhead := false, atEof := false }
  have plain' : closureEnv.net.Plain := plain
  have handlesAll : ∀ t ∈ env.net.out (env.net.modeStarts.getD env.mode 0),
      Handles η env.net env.fuel ⟨t.target, []⟩ := by
    intro t member
    obtain ⟨i, found⟩ := List.mem_iff_getElem?.1 member
    have target := targets i
    rw [found, Option.map_some] at target
    obtain ⟨r, found', same⟩ := Option.map_eq_some_iff.1 target.symm
    rw [← same]
    exact handles r (List.mem_of_getElem? found')
  obtain ⟨reached, run, sameHooks, lexical, holds⟩ := startsFrom_holds plain'
    (env.net.out (env.net.modeStarts.getD env.mode 0)) 0 handlesAll { configs := .ofLexer, hooks }
    ⟨ConfigSet.lexical_ofLexer, fun c member => by simp [ConfigSet.ofLexer] at member⟩
  refine ⟨reached, run, sameHooks, lexical, fun alt θ => ?_⟩
  rw [holds]
  simp only [ConfigSet.not_holds_ofLexer, false_or]
  constructor
  · rintro ⟨i, t, found, rfl, settled, runs⟩
    have target := targets i
    rw [found, Option.map_some] at target
    obtain ⟨r, found', same⟩ := Option.map_eq_some_iff.1 target.symm
    exact ⟨i, r, found', by omega, settled, by rw [same]; exact runs⟩
  · rintro ⟨i, r, found', rfl, settled, runs⟩
    have target := targets i
    rw [found', Option.map_some] at target
    obtain ⟨t, found, same⟩ := Option.map_eq_some_iff.1 target
    exact ⟨i, t, found, by omega, settled, by rw [same]; exact runs⟩

/-! ## The set behind a symbol -/

theorem followTransitions_none {env : ClosureEnv η} {fuel offset : Nat} {symbol : Int} {c : Config}
    {done : Bool} (ts : List Transition)
    (refuses : ∀ t ∈ ts, t.label.accepts symbol minChar maxChar = false) :
    followTransitions env fuel symbol offset c done ts = pure false := by
  induction ts with
  | nil => rfl
  | cons t ts ih =>
    rw [followTransitions, refuses t (by simp), ih fun t' member => refuses t' (by simp [member])]
    rfl

/-- No symbol is consumed by a free move. -/
theorem refuses_of_free {t : Transition} {symbol : Int} {m : Nat} (free : t.move = .free m) :
    t.label.accepts symbol minChar maxChar = false := by
  cases accepts : t.label.accepts symbol minChar maxChar with
  | false => rfl
  | true =>
    rw [Transition.move_of_accepts accepts] at free
    cases free

/-- Since a transition that consumes stands alone, none is passed over when its alternative has reached
the end of its rule. -/
theorem followTransitions_gathers {env : ClosureEnv η} (offset : Nat) (plain : env.net.Plain)
    (built : env.net.Built g) {fuel : Nat} {symbol : Int} {c : Config} {θ : Thread}
    (done : Bool) (follows : c.Follows θ)
    (handles : ∀ next ∈ env.net.consumeNext minChar maxChar symbol θ, Handles η env.net fuel next) :
    Gathers (followTransitions env fuel symbol offset c done (env.net.out θ.state)) c.alt
      fun θ' => ∃ next ∈ env.net.consumeNext minChar maxChar symbol θ,
        env.net.Settled θ' ∧ env.net.Runs minChar maxChar next [] θ' := by
  obtain ⟨n, stack⟩ := θ
  have nothing (refuses : ∀ t ∈ env.net.out n, t.label.accepts symbol minChar maxChar = false) :
      Gathers (followTransitions env fuel symbol offset c done (env.net.out n)) c.alt
        fun θ' => ∃ next ∈ env.net.consumeNext minChar maxChar symbol ⟨n, stack⟩,
          env.net.Settled θ' ∧ env.net.Runs minChar maxChar next [] θ' := by
    rw [followTransitions_none _ refuses]
    refine (Gathers.pure false).congr fun θ' => ⟨False.elim, ?_⟩
    rintro ⟨next, step, -⟩
    obtain ⟨-, t, member, accepts, -⟩ := mem_consumeNext.1 step
    rw [refuses t member] at accepts
    cases accepts
  cases isStop : env.net.isStop n with
  | true =>
    refine nothing fun t member => ?_
    obtain ⟨m, free⟩ := built.returns n isStop t.move (List.mem_map_of_mem member)
    exact refuses_of_free free
  | false =>
    rcases built.oneWay n isStop with ⟨move, alone⟩ | free
    · obtain ⟨t, single⟩ : ∃ t, env.net.out n = [t] := by
        have length := congrArg List.length alone
        rw [moves, List.length_map] at length
        exact List.length_eq_one_iff.1 length
      cases accepts : t.label.accepts symbol minChar maxChar with
      | false =>
        refine nothing fun t' member => ?_
        rw [single, List.mem_singleton] at member
        rw [member, accepts]
      | true =>
        have only : env.net.consumeNext minChar maxChar symbol ⟨n, stack⟩ = [⟨t.target, stack⟩] := by
          simp [consumeNext, isStop, single, accepts]
        have moved := Follows.configAt plain follows t.target
        have follows' : ({ configAt env.net c t.target with
            actions := pinActions offset c.actions } : Config).Follows ⟨t.target, stack⟩ :=
          ⟨moved.state, moved.context, moved.guard, moved.nonGreedy⟩
        have gathers := handles ⟨t.target, stack⟩ (by simp [only]) env fuel _ done rfl (Nat.le_refl _)
          follows'
        rw [single, followTransitions, accepts, only]
        simp only [if_true, followTransitions]
        refine (gathers.bind (Q := fun _ => False) fun reached => ?_).congr (by simp)
        cases reached with
        | true => exact Gathers.pure true
        | false => exact Gathers.pure false
    · refine nothing fun t member => ?_
      obtain ⟨m, isFree⟩ := free t.move (List.mem_map_of_mem member)
      exact refuses_of_free isFree

/-- Behind a symbol a set holds, alternative by alternative, what its threads reach by consuming it. -/
theorem followConfigs_holds {env : ClosureEnv η} (offset : Nat) (plain : env.net.Plain)
    (built : env.net.Built g) {fuel : Nat} {symbol : Int} (cs : List Config) (doneAlt alt : Nat)
    (threads : ∀ c ∈ cs, ∃ θ, c.Follows θ) (sorted : cs.Pairwise (·.alt ≤ ·.alt))
    (handles : ∀ c ∈ cs, ∀ θ, c.Follows θ → ∀ next ∈ env.net.consumeNext minChar maxChar symbol θ,
      Handles η env.net fuel next)
    (r : Reached η) (gathered : Gathered r.configs alt) (later : ∀ c ∈ cs, alt ≤ c.alt) :
    Yields (followConfigs env fuel symbol offset doneAlt cs) r fun _ r' => r'.hooks = r.hooks ∧
      r'.configs.Lexical ∧ ∀ alt' θ, r'.configs.Holds alt' θ ↔ r.configs.Holds alt' θ ∨
        ∃ c ∈ cs, c.alt = alt' ∧ ∃ before, c.Follows before ∧
          ∃ next ∈ env.net.consumeNext minChar maxChar symbol before,
            env.net.Settled θ ∧ env.net.Runs minChar maxChar next [] θ := by
  induction cs generalizing doneAlt alt r with
  | nil => exact Yields.pure ⟨rfl, gathered.lexical, by simp⟩
  | cons c cs ih =>
    obtain ⟨θ, follows⟩ := threads c (by simp)
    obtain ⟨first, sortedRest⟩ := List.pairwise_cons.1 sorted
    have gathers := followTransitions_gathers offset plain built (c.alt == doneAlt) follows
      (handles c (by simp) θ follows)
    have here : Gathered r.configs c.alt :=
      ⟨gathered.lexical, fun d member => Nat.le_trans (gathered.latest d member) (later c (by simp))⟩
    rw [followConfigs]
    simp only [follows.nonGreedy, Bool.and_false, Bool.false_eq_true, if_false]
    have out : (env.net.state c.state).transitions = env.net.out θ.state := by
      rw [follows.state]
      rfl
    rw [out]
    refine (gathers r here).bind fun reached mid ⟨hooks, gatheredMid, holds⟩ => ?_
    refine (ih _ c.alt (fun d member => threads d (by simp [member])) sortedRest
      (fun d member => handles d (by simp [member])) mid gatheredMid first).imp
      fun _ r' ⟨hooks', lexical, holds'⟩ => ⟨hooks'.trans hooks, lexical, fun alt' θ' => ?_⟩
    rw [holds', holds, or_assoc]
    refine or_congr_right ⟨?_, ?_⟩
    · rintro (⟨rfl, next, step, rest⟩ | ⟨d, member, isAlt, rest⟩)
      · exact ⟨c, by simp, rfl, θ, follows, next, step, rest⟩
      · exact ⟨d, by simp [member], isAlt, rest⟩
    · rintro ⟨d, member, isAlt, before, follows', rest⟩
      rcases List.mem_cons.1 member with rfl | among
      · rw [follows'.unique follows] at rest
        exact .inl ⟨isAlt.symm, rest⟩
      · exact .inr ⟨d, among, isAlt, before, follows', rest⟩

theorem reachSet_steps {env : MatchEnv η} (plain : env.net.Plain) (built : env.net.Built g)
    {configs : ConfigSet} {symbol : Int} (threads : ∀ c ∈ configs.configs, ∃ θ, c.Follows θ)
    (sorted : configs.configs.toList.Pairwise (·.alt ≤ ·.alt))
    (handles : ∀ alt θ, configs.Holds alt θ →
      ∀ next ∈ env.net.consumeNext minChar maxChar symbol θ, Handles η env.net env.fuel next)
    (m : Matcher η) : ∃ reached, reachSet env m configs symbol = some reached ∧
      reached.hooks = m.hooks ∧ reached.configs.Lexical ∧
      ∀ alt θ, reached.configs.Holds alt θ ↔ Steps env.net configs symbol alt θ := by
  let closureEnv : ClosureEnv η :=
    { net := env.net, hooks := env.hooks, input := m.input, lookingAhead := true
      atEof := symbol == endOfInput }
  have plain' : closureEnv.net.Plain := plain
  obtain ⟨_, reached, run, hooks, lexical, holds⟩ := followConfigs_holds
    (m.input.pos - m.startIndex) plain' built configs.configs.toList invalidAlt 0
    (fun c member => threads c (Array.mem_toList_iff.1 member)) sorted
    (fun c member θ follows => handles c.alt θ ⟨c, Array.mem_toList_iff.1 member, rfl, follows⟩)
    { configs := .ofLexer, hooks := m.hooks }
    ⟨ConfigSet.lexical_ofLexer, fun c member => by simp [ConfigSet.ofLexer] at member⟩
    fun c _ => Nat.zero_le _
  refine ⟨reached, ?_, hooks, lexical, fun alt θ => ?_⟩
  · rw [reachSet, run]
    rfl
  · rw [holds]
    simp only [ConfigSet.not_holds_ofLexer, false_or]
    constructor
    · rintro ⟨c, member, isAlt, before, follows, rest⟩
      exact ⟨before, ⟨c, Array.mem_toList_iff.1 member, isAlt, follows⟩, rest⟩
    · rintro ⟨before, ⟨c, member, isAlt, follows⟩, rest⟩
      exact ⟨c, Array.mem_toList_iff.2 member, isAlt, before, follows, rest⟩

/-! ## Fuel -/

theorem finite_silentRuns (wf : WellFounded fun θ' θ => θ' ∈ net.silentNext θ) (θ : Thread) :
    {θ' | net.Runs minChar maxChar θ [] θ'}.Finite := by
  induction θ using wf.induction with
  | h θ ih =>
    have later := (net.silentNext θ).finite_toSet.biUnion ih
    refine ((Set.finite_singleton θ).union later).subset fun θ'' run => ?_
    rcases runs_nil.1 run with same | ⟨θ', step, rest⟩
    · exact .inl same.symm
    · exact .inr (Set.mem_biUnion step rest)

/-- Only finitely many threads are reached by a word. -/
theorem finite_runs (wf : WellFounded fun θ' θ => θ' ∈ net.silentNext θ) (θ : Thread) (w : List Int) :
    {θ' | net.Runs minChar maxChar θ w θ'}.Finite := by
  induction w using List.reverseRecOn with
  | nil => exact finite_silentRuns wf θ
  | append_singleton w symbol ih =>
    have next := ih.biUnion fun θ' _ =>
      (net.consumeNext minChar maxChar symbol θ').finite_toSet.biUnion
        fun θ'' _ => finite_silentRuns wf θ''
    refine next.subset fun θ'' run => ?_
    obtain ⟨θ', before, start, step, after⟩ := runs_snoc.1 run
    exact Set.mem_biUnion before (Set.mem_biUnion step after)

variable (η) in
theorem exists_handles_of_finite (plain : net.Plain)
    (wf : WellFounded fun θ' θ => θ' ∈ net.silentNext θ) {threads : Set Thread}
    (finite : threads.Finite) : ∃ bound, ∀ θ ∈ threads, Handles η net bound θ := by
  have each : ∀ θ ∈ finite.toFinset.toList, ∃ bound, Handles η net bound θ :=
    fun θ _ => exists_handles plain wf θ
  obtain ⟨bound, handles⟩ := exists_handles_all each
  exact ⟨bound, fun θ member => handles θ (by simpa using member)⟩

variable (η g) in
/-- Some fuel is enough for all closures behind a symbol that follows a word. -/
theorem exists_handles_live (plain : net.Plain) (wf : WellFounded fun θ' θ => θ' ∈ net.silentNext θ)
    (mode : Nat) (w : List Int) (symbol : Int) :
    ∃ bound, ∀ alt θ, Live net g mode w alt θ →
      ∀ next ∈ net.consumeNext minChar maxChar symbol θ, Handles η net bound next := by
  have finite := (g.tokenRules mode).finite_toSet.biUnion fun r _ =>
    (finite_runs wf ⟨net.ruleStart r, []⟩ w).biUnion fun θ _ =>
      (net.consumeNext minChar maxChar symbol θ).finite_toSet
  obtain ⟨bound, handles⟩ := exists_handles_of_finite η plain wf finite
  refine ⟨bound, fun alt θ live next step => handles next ?_⟩
  obtain ⟨i, r, found, -, -, run⟩ := live
  exact Set.mem_biUnion (List.mem_of_getElem? found) (Set.mem_biUnion run step)

end Lexer

end AdaptiveLL
