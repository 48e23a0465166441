import AdaptiveLL.Proofs.Lexer.Scanning
import AdaptiveLL.Proofs.Lexer.Unasked

/-!
# What the caches of a lexer keep

An automaton of a lexer keeps what was found out without asking a predicate. Its start state holds the
start set of the mode, its states accept what their configurations say, and an edge by which
no custom action is pinned leads to the set behind its symbol, whatever the input and whatever the user
code. A fresh cache keeps nothing, and what is registered and recorded later is kept
as well: this holds of every network.
-/

set_option autoImplicit false

namespace AdaptiveLL

open Network

/-! ## Custom actions that wait -/

/-- Some custom action waits for the place at which it is to run. -/
def Waiting (actions : List LexerAction) : Prop := ∃ a ∈ actions, a.isCustom = true

/-- Pins change nothing where no custom action waits. -/
theorem pinActions_of_not_waiting {actions : List LexerAction} (settled : ¬ Waiting actions)
    (offset : Nat) : pinActions offset actions = actions := by
  have same : ∀ a ∈ actions, a.pin offset = a := by
    intro a member
    rw [LexerAction.pin, if_neg fun custom => settled ⟨a, member, custom⟩]
  rw [pinActions, List.map_congr_left same, List.map_id']

theorem LexerAction.isCustom_pin (offset : Nat) (a : LexerAction) : (a.pin offset).isCustom = false := by
  rw [pin]
  split
  · rfl
  · rename_i settled
    exact Bool.eq_false_of_not_eq_true settled

theorem not_waiting_pinActions (offset : Nat) (actions : List LexerAction) :
    ¬ Waiting (pinActions offset actions) := by
  rintro ⟨a, member, custom⟩
  obtain ⟨b, -, rfl⟩ := List.mem_map.1 member
  rw [LexerAction.isCustom_pin] at custom
  cases custom

namespace Lexer

/-- The thread has met a custom action of the network and nothing was consumed since then. -/
inductive BehindCustom (net : Network) : Thread → Prop
  | meets {n : Nat} {stack : List Nat} {t : Transition} {a : LexerAction} (member : t ∈ net.out n)
      (met : a ∈ actionMet net stack t.label) (custom : a.isCustom = true) :
      BehindCustom net ⟨t.target, stackBehind stack t.label⟩
  | returns {n ret : Nat} {stack : List Nat} (before : BehindCustom net ⟨n, ret :: stack⟩)
      (isStop : net.isStop n = true) : BehindCustom net ⟨ret, stack⟩
  | moves {n : Nat} {stack : List Nat} {t : Transition} {atEof : Bool}
      (before : BehindCustom net ⟨n, stack⟩) (inner : net.isStop n = false) (member : t ∈ net.out n)
      (crossed : crosses atEof t.label = true) :
      BehindCustom net ⟨t.target, stackBehind stack t.label⟩

/-- Behind a custom action a rule consumes nothing more. -/
def CustomLast (net : Network) : Prop :=
  ∀ θ, BehindCustom net θ → ∀ t ∈ net.out θ.state, ∀ symbol,
    t.label.accepts symbol minChar maxChar = false

theorem mem_actions_of_met {net : Network} {stack : List Nat} {label : Label} {a : LexerAction}
    (met : a ∈ actionMet net stack label) : a ∈ net.actions := by
  unfold actionMet at met
  split at met
  · split at met
    · obtain ⟨i, -, here⟩ := Option.bind_eq_some_iff.1 (Option.mem_toList.1 met)
      exact Array.mem_of_getElem? here
    · cases met
  · cases met

/-- Without custom actions there is nothing behind them. -/
theorem customLast_of_noCustom {net : Network} (noCustom : ∀ a ∈ net.actions, a.isCustom = false) :
    CustomLast net := by
  have never : ∀ θ, ¬ BehindCustom net θ := by
    intro θ behind
    induction behind with
    | meets member met custom =>
      rw [noCustom _ (mem_actions_of_met met)] at custom
      cases custom
    | returns before isStop ih => exact ih
    | moves before inner member crossed ih => exact ih
  exact fun θ behind => absurd behind (never θ)

/-! ## The configurations of a lexer -/

/-- The configuration follows a thread, and where a custom action waits the thread has just met it. -/
def Tracked (net : Network) : Config → Prop :=
  Carries fun θ actions => Waiting actions → BehindCustom net θ

variable {η : Type} {net : Network} {mode : Nat}

theorem Tracked.identity {c : Config} (tracked : Tracked net c) : c.identity = c := by
  rw [Config.identity, ← tracked.depth]

theorem carried_tracked (net : Network) (atEof : Bool) :
    Carried net atEof fun θ actions => Waiting actions → BehindCustom net θ where
  returns := fun n ret stack actions holds isStop waiting => .returns (holds waiting) isStop
  moves := by
    intro n stack actions holds inner t member crossed waiting
    obtain ⟨a, among, custom⟩ := waiting
    rcases List.mem_append.1 among with old | new
    · exact .moves (holds ⟨a, old, custom⟩) inner member crossed
    · exact .meets member new custom

theorem startSet_tracked {env : MatchEnv η} {input : CharStream} {n : Nat} {h : η} {reached : Reached η}
    (run : startSet env input n h = some reached) : reached.configs.Consists (Tracked env.net) := by
  refine (startSet_carries (carried_tracked env.net false) ?_ run).imp fun c added => added.1
  rintro t member ⟨a, among, -⟩
  cases among

theorem reachSet_tracked {env : MatchEnv η} {m : Matcher η} {configs : ConfigSet} {symbol : Int}
    {reached : Reached η} (tracked : configs.Consists (Tracked env.net))
    (run : reachSet env m configs symbol = some reached) :
    reached.configs.Consists (Tracked env.net) := by
  refine (reachSet_carries (carried_tracked env.net _) ?_ tracked.each run).imp fun c added => added.1
  intro n stack actions holds t out accepts waiting
  exact absurd waiting (not_waiting_pinActions _ _)

/-- Sets of such configurations that are not told apart are the same. -/
theorem configs_eq_of_identity {s s' : ConfigSet} (tracked : s.Consists (Tracked net))
    (tracked' : s'.Consists (Tracked net)) (same : s.identity = s'.identity) :
    s.configs = s'.configs := by
  have identity {s : ConfigSet} (tracked : s.Consists (Tracked net)) :
      s.identity = s.configs.toList := by
    rw [ConfigSet.identity_eq tracked.ordered]
    have each : ∀ c ∈ s.configs.toList, c.identity = c :=
      fun c member => (tracked.each c (Array.mem_toList_iff.1 member)).identity
    rw [List.map_congr_left each, List.map_id']
  rw [identity tracked, identity tracked'] at same
  exact Array.toList_inj.1 same

/-- What a state accepts is said by the configurations of its set. -/
theorem stateOf_congr (net : Network) {s s' : ConfigSet} (same : s.configs = s'.configs) :
    (stateOf net s).accepts = (stateOf net s').accepts ∧
      (stateOf net s).prediction = (stateOf net s').prediction ∧
      (stateOf net s).actions = (stateOf net s').actions := by
  simp only [stateOf, same]
  split <;> exact ⟨rfl, rfl, rfl⟩

/-! ## Kept automata -/

/-- The state is registered for its configurations and accepts what they say. -/
structure StateKept (net : Network) (s : DfaState) : Prop where
  configs : s.configs.Consists (Tracked net)
  identity : s.identity = s.configs.identity
  accepts : s.accepts = (stateOf net s.configs).accepts
  prediction : s.prediction = (stateOf net s.configs).prediction
  actions : s.actions = (stateOf net s.configs).actions

/-- The edge leads to the state of the set, and nowhere if the set is empty. -/
def Answers (d : Dfa) (s : ConfigSet) : DfaEdge → Prop
  | .dead => s.isEmpty = true
  | .target m => s.isEmpty = false ∧ m < d.states.size ∧ (d.state m).configs.configs = s.configs

/-- With enough fuel this is the set behind the symbol, whatever the input and the user code, which is
not asked. -/
def Certain (net : Network) (configs : ConfigSet) (symbol : Int) (s : ConfigSet) : Prop :=
  ∃ fuel, ∀ (η : Type) (env : MatchEnv η) (m : Matcher η), env.net = net → fuel ≤ env.fuel →
    reachSet env m configs symbol = some ⟨s, m.hooks⟩

/-- With enough fuel this is the start set of the mode, whatever the input and the user code, which is
not asked. -/
def CertainStart (net : Network) (mode : Nat) (s : ConfigSet) : Prop :=
  ∃ fuel, ∀ (η : Type) (env : MatchEnv η) (input : CharStream) (h : η), env.net = net →
    fuel ≤ env.fuel → startSet env input (net.modeStarts.getD mode 0) h = some ⟨s, h⟩

theorem Certain.reaches {η : Type} {env : MatchEnv η} {v : Sight η} {configs s : ConfigSet}
    (certain : Certain env.net configs (v.input.la 1) s) : Reaches env v configs s v.hooks := by
  obtain ⟨fuel, again⟩ := certain
  exact ⟨fuel, again η { env with fuel } v.matcher rfl (Nat.le_refl _)⟩

theorem CertainStart.starts {η : Type} {env : MatchEnv η} {s : ConfigSet}
    (certain : CertainStart env.net env.mode s) (v : Sight η) : Starts env v s v.hooks := by
  obtain ⟨fuel, again⟩ := certain
  exact ⟨fuel, again η { env with fuel } v.input v.hooks rfl (Nat.le_refl _)⟩

/-- No custom action waits in a configuration that the symbol takes on. -/
def Settled (net : Network) (configs : ConfigSet) (symbol : Int) : Prop :=
  ∀ c ∈ configs.configs, c.TakenBy net symbol → ¬ Waiting c.actions

/-- The edge leads to a registered state; to the set behind its symbol, if no custom action waits for
this symbol. -/
structure EdgeKept (net : Network) (d : Dfa) (configs : ConfigSet) (symbol : Int) (e : DfaEdge) :
    Prop where
  inside : ∀ m, e = .target m → m < d.states.size
  certain : Settled net configs symbol → ∃ s, Certain net configs symbol s ∧ Answers d s e

/-- What the automaton of a mode keeps. -/
structure Kept (net : Network) (mode : Nat) (d : Dfa) : Prop where
  states : ∀ n < d.states.size, StateKept net (d.state n)
  edges : ∀ n < d.states.size, ∀ i e, (d.state n).edge? i = some e →
    EdgeKept net d (d.state n).configs i e
  start : ∀ n, d.start = some n → n < d.states.size ∧
    ∃ s, CertainStart net mode s ∧ (d.state n).configs.configs = s.configs

theorem Answers.extend {d d' : Dfa} {s : ConfigSet} {e : DfaEdge} (answers : Answers d s e)
    (extends' : Extends d d') : Answers d' s e := by
  cases e with
  | dead => exact answers
  | target m =>
    obtain ⟨something, inside, same⟩ := answers
    refine ⟨something, Nat.lt_of_lt_of_le inside extends'.size, ?_⟩
    rw [extends'.configs m inside, same]

theorem EdgeKept.extend {d d' : Dfa} {configs : ConfigSet} {symbol : Int} {e : DfaEdge}
    (kept : EdgeKept net d configs symbol e) (extends' : Extends d d') :
    EdgeKept net d' configs symbol e := by
  constructor
  · exact fun m same => Nat.lt_of_lt_of_le (kept.inside m same) extends'.size
  · intro settled
    obtain ⟨s, certain, answers⟩ := kept.certain settled
    exact ⟨s, certain, answers.extend extends'⟩

theorem Kept.push {d : Dfa} (kept : Kept net mode d) {s : DfaState} (isKept : StateKept net s)
    (noEdges : ∀ i, s.edge? i = none) : Kept net mode { d with states := d.states.push s } ∧
      Extends d { d with states := d.states.push s } := by
  have extends' : Extends d { d with states := d.states.push s } :=
    ⟨by simp, fun n inside => by rw [state_push_of_lt inside]⟩
  have old : ∀ n, n < (d.states.push s).size → n < d.states.size ∨ n = d.states.size := by
    intro n inside
    rw [Array.size_push] at inside
    omega
  refine ⟨⟨?_, ?_, ?_⟩, extends'⟩
  · intro n inside
    rcases old n inside with before | rfl
    · rw [state_push_of_lt before]
      exact kept.states n before
    · rw [state_push_self]
      exact isKept
  · intro n inside i e found
    rcases old n inside with before | rfl
    · rw [state_push_of_lt before] at found ⊢
      exact (kept.edges n before i e found).extend extends'
    · rw [state_push_self, noEdges i] at found
      cases found
  · intro n isStart
    obtain ⟨inside, s', certain, same⟩ := kept.start n isStart
    refine ⟨Nat.lt_of_lt_of_le inside extends'.size, s', certain, ?_⟩
    rw [state_push_of_lt inside]
    exact same

theorem find?_kept {d : Dfa} (kept : Kept net mode d) {configs : ConfigSet}
    (tracked : configs.Consists (Tracked net)) {n : Nat}
    (found : d.find? configs.identity = some n) :
    n < d.states.size ∧ (d.state n).configs.configs = configs.configs := by
  obtain ⟨inside, same, -⟩ := Array.findIdx?_eq_some_iff_getElem.1 found
  have isKept := kept.states n inside
  have here : d.state n = d.states[n] := by simp [Dfa.state, inside]
  refine ⟨inside, configs_eq_of_identity isKept.configs tracked ?_⟩
  rw [← isKept.identity, here]
  exact beq_iff_eq.1 same

/-- A set is registered under a state that holds its configurations. -/
theorem Kept.addState {d : Dfa} (kept : Kept net mode d) {configs : ConfigSet}
    (tracked : configs.Consists (Tracked net)) (table : Context.Table) :
    Kept net mode (d.addState (stateOf net configs) table).2.1 ∧
      Extends d (d.addState (stateOf net configs) table).2.1 ∧
      (d.addState (stateOf net configs) table).1 <
        (d.addState (stateOf net configs) table).2.1.states.size ∧
      ((d.addState (stateOf net configs) table).2.1.state
        (d.addState (stateOf net configs) table).1).configs.configs = configs.configs := by
  unfold Dfa.addState
  simp only [configs_stateOf,
    ConfigSet.intern_eq (fun c member => (tracked.each c member).thread.imp fun _ held => held.1) table]
  cases found : d.find? configs.identity with
  | some n =>
    obtain ⟨inside, same⟩ := find?_kept kept tracked found
    exact ⟨kept, Extends.refl d, inside, same⟩
  | none =>
    have isKept : StateKept net { stateOf net configs with
        number := d.states.size, configs, identity := configs.identity } :=
      ⟨tracked, rfl, rfl, rfl, rfl⟩
    obtain ⟨kept', extends'⟩ := kept.push isKept (edge?_stateOf configs)
    refine ⟨kept', extends', by simp, ?_⟩
    rw [state_push_self]

theorem Kept.setEdge {d : Dfa} (kept : Kept net mode d) {n i : Nat} {e : DfaEdge}
    (inside : n < d.states.size) (isKept : EdgeKept net d (d.state n).configs i e) :
    Kept net mode (d.setEdge n i e) ∧ Extends d (d.setEdge n i e) := by
  have size : (d.setEdge n i e).states.size = d.states.size := by simp [Dfa.setEdge]
  have configs (k : Nat) : ((d.setEdge n i e).state k).configs = (d.state k).configs := by
    rw [state_setEdge inside]
    split
    · rename_i same
      rw [same]
      rfl
    · rfl
  have extends' : Extends d (d.setEdge n i e) := ⟨Nat.le_of_eq size.symm, fun k _ => configs k⟩
  refine ⟨⟨?_, ?_, ?_⟩, extends'⟩
  · intro k bound
    rw [size] at bound
    have before := kept.states k bound
    rw [state_setEdge inside]
    split
    · rename_i same
      subst same
      exact ⟨before.configs, before.identity, before.accepts, before.prediction, before.actions⟩
    · exact before
  · intro k bound j e' found
    rw [size] at bound
    rw [configs]
    refine EdgeKept.extend ?_ extends'
    rw [state_setEdge inside] at found
    split at found
    · rename_i same
      subst same
      rcases edge?_setEdge found with old | ⟨rfl, rfl⟩
      · exact kept.edges k bound j e' old
      · exact isKept
    · exact kept.edges k bound j e' found
  · intro k isStart
    obtain ⟨bound, s, certain, same⟩ := kept.start k isStart
    rw [size, configs]
    exact ⟨bound, s, certain, same⟩

theorem Kept.setStart {d : Dfa} (kept : Kept net mode d) {n : Nat} {s : ConfigSet}
    (inside : n < d.states.size) (certain : CertainStart net mode s)
    (same : (d.state n).configs.configs = s.configs) :
    Kept net mode (d.setStart n).2 ∧ Extends d (d.setStart n).2 ∧
      (d.setStart n).2.start = some (d.setStart n).1 := by
  unfold Dfa.setStart
  cases isStart : d.start with
  | some m => exact ⟨kept, Extends.refl d, isStart⟩
  | none =>
    have extends' : Extends d { d with start := some n } := ⟨Nat.le_refl _, fun _ _ => rfl⟩
    refine ⟨⟨kept.states, ?_, ?_⟩, extends', rfl⟩
    · exact fun k bound i e found => (kept.edges k bound i e found).extend extends'
    · intro m isNew
      cases isNew
      exact ⟨inside, s, certain, same⟩

/-! ## Kept caches -/

/-- What all automata of a cache keep. -/
structure CacheKept (net : Network) (cache : DfaCache) : Prop where
  size : cache.dfas.size = net.modeStarts.size
  kept : ∀ mode < net.modeStarts.size, Kept net mode (cache.dfa mode)

theorem cacheKept_fresh (lexer : net.isLexer = true) : CacheKept net (DfaCache.ofNetwork net) := by
  refine ⟨by simp [DfaCache.ofNetwork, lexer], fun mode inside => ?_⟩
  have fresh : ((DfaCache.ofNetwork net).dfa mode).states = #[] ∧
      ((DfaCache.ofNetwork net).dfa mode).start = none := by
    simp [DfaCache.ofNetwork, DfaCache.dfa, lexer, inside]
  refine ⟨fun n bound => ?_, fun n bound => ?_, fun n isStart => ?_⟩
  · simp [fresh.1] at bound
  · simp [fresh.1] at bound
  · rw [fresh.2] at isStart
    cases isStart

/-- Another automaton for one mode. -/
theorem CacheKept.change {cache cache' : DfaCache} (kept : CacheKept net cache)
    (size : cache'.dfas.size = cache.dfas.size)
    (others : ∀ k, k ≠ mode → cache'.dfa k = cache.dfa k)
    (isKept : Kept net mode (cache'.dfa mode)) : CacheKept net cache' := by
  refine ⟨size.trans kept.size, fun k inside => ?_⟩
  by_cases same : k = mode
  · subst same
    exact isKept
  · rw [others k same]
    exact kept.kept k inside

end Lexer

end AdaptiveLL
