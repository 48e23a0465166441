import AdaptiveLL.Proofs.Prediction.Protocol
import AdaptiveLL.Proofs.Prediction.Rerunning
import AdaptiveLL.Proofs.Prediction.Streams

/-!
# What the automata of a parser record

However a cache came about by predictions (`Learned`), every recorded edge of a decision is what the network
says of the configurations of its state, simulated afresh and without any remembered merges: it is dead exactly
if nothing is found, and otherwise it leads to a registered state with the identity of what is found
(`recorded_edges_exact`).

The invariant is that of one automaton (`DfaExact`): its states are registered under their own identity, with
contexts that can be merged, and their edges are exact. Only the local part of a prediction changes the
automata. There all remembered merges are those of local context, and the predicates of the user code are not
asked behind a token, so a simulation can be run again (`reachSet_mirrors`).
-/

set_option autoImplicit false

namespace AdaptiveLL

open Session Prediction

variable {net : Network} {decision : Nat} {d d' : Dfa} {s : DfaState} {configs : ConfigSet} {x : Int}
  {e : DfaEdge}

namespace Dfa

/-- Simulated afresh for the decision of the automaton, with any user code and enough fuel, the symbol leads
from the configurations to the result. -/
def Afresh (net : Network) (decision : Nat) (d : Dfa) (configs : ConfigSet) (x : Int)
    (result : Option ConfigSet) : Prop :=
  ∃ enough, ∀ {η : Type} (evaluator : Guard.Evaluator η) (hooks : η) (fuel : Nat), enough ≤ fuel → ∃ scratch,
    (reachSet { net, decision, startState := d.networkState, precedenceLoop := d.precedence, evaluator, fuel }
      configs x false).run { hooks } = some (result, scratch)

/-- The edge is dead if nothing is found afresh. Otherwise it leads to a registered state with the identity of
what is found. -/
def EdgeExact (net : Network) (decision : Nat) (d : Dfa) (configs : ConfigSet) (x : Int) (e : DfaEdge) : Prop :=
  ∃ result, Afresh net decision d configs x result ∧ (e = .dead ↔ result = none) ∧
    ∀ reach, result = some reach →
      ∃ n t, e = .target n ∧ d.states[n]? = some t ∧ t.configs.identity = reach.identity

/-- What the automaton of a decision has recorded is exact. -/
structure Exact (net : Network) (decision : Nat) (d : Dfa) : Prop where
  formed : ∀ s ∈ d.states, s.configs.Formed false
  identity : ∀ s ∈ d.states, s.identity = s.configs.identity
  edges : ∀ s ∈ d.states, ∀ i e, s.edge? i = some e → EdgeExact net decision d s.configs ((i : Int) - 1) e

/-- The automaton has learned more: it is that of the same decision, and its states are still there. -/
structure Later (d d' : Dfa) : Prop where
  networkState : d'.networkState = d.networkState
  precedence : d'.precedence = d.precedence
  kept : ∀ (n : Nat) (t : DfaState), d.states[n]? = some t → ∃ t' : DfaState, d'.states[n]? = some t' ∧ t'.configs = t.configs

theorem Later.refl (d : Dfa) : d.Later d := ⟨rfl, rfl, fun _ t found => ⟨t, found, rfl⟩⟩

theorem Afresh.later {result : Option ConfigSet} (afresh : Afresh net decision d configs x result)
    (later : d.Later d') : Afresh net decision d' configs x result := by
  unfold Afresh
  rw [later.networkState, later.precedence]
  exact afresh

theorem EdgeExact.later (exact' : EdgeExact net decision d configs x e) (later : d.Later d') :
    EdgeExact net decision d' configs x e := by
  obtain ⟨result, afresh, dead, target⟩ := exact'
  refine ⟨result, afresh.later later, dead, fun reach same => ?_⟩
  obtain ⟨n, t, leads, found, identity⟩ := target reach same
  obtain ⟨t', found', configs'⟩ := later.kept n t found
  exact ⟨n, t', leads, found', configs' ▸ identity⟩

/-! ## Registering states -/

theorem Exact.push (isExact : d.Exact net decision) (formed : s.configs.Formed false)
    (identity : s.identity = s.configs.identity) (noEdges : ∀ i, s.edge? i = none) :
    Exact net decision { d with states := d.states.push s } ∧ d.Later { d with states := d.states.push s } := by
  have later : d.Later { d with states := d.states.push s } := by
    refine ⟨rfl, rfl, fun n t found => ⟨t, ?_, rfl⟩⟩
    obtain ⟨inside, -⟩ := Array.getElem?_eq_some_iff.1 found
    exact (Array.getElem?_push_lt inside).trans ((Array.getElem?_eq_getElem inside).symm.trans found)
  refine ⟨⟨fun t member => ?_, fun t member => ?_, fun t member i e found => ?_⟩, later⟩
  · exact (Array.mem_push.1 member).elim (isExact.formed t) (· ▸ formed)
  · exact (Array.mem_push.1 member).elim (isExact.identity t) (· ▸ identity)
  · rcases Array.mem_push.1 member with old | rfl
    · exact (isExact.edges t old i e found).later later
    · exact nomatch (noEdges i).symm.trans found

theorem find?_found (isExact : d.Exact net decision) {n : Nat} (found : d.find? configs.identity = some n) :
    ∃ t, d.states[n]? = some t ∧ t.configs.identity = configs.identity := by
  obtain ⟨inside, same, -⟩ := Array.findIdx?_eq_some_iff_getElem.1 found
  refine ⟨d.states[n], Array.getElem?_eq_getElem inside, ?_⟩
  rw [← isExact.identity _ (Array.getElem_mem inside)]
  exact beq_iff_eq.1 same

/-- A state is registered under its identity. -/
theorem Exact.addState (isExact : d.Exact net decision) (formed : s.configs.Formed false)
    (noEdges : ∀ i, s.edge? i = none) (table : Context.Table) :
    (d.addState s table).2.1.Exact net decision ∧ d.Later (d.addState s table).2.1 ∧
      ∃ t, (d.addState s table).2.1.states[(d.addState s table).1]? = some t ∧
        t.configs.identity = s.configs.identity := by
  have kept : (s.configs.intern table).1 = s.configs :=
    ConfigSet.intern_of_kept (fun c member t => Context.Table.intern_eq (formed.contexts c member).1 t) table
  unfold Dfa.addState
  simp only [kept]
  cases found : d.find? s.configs.identity with
  | some n => exact ⟨isExact, .refl d, find?_found isExact found⟩
  | none =>
    obtain ⟨isExact', later⟩ := isExact.push
      (s := { s with number := d.states.size, configs := s.configs, identity := s.configs.identity })
      formed rfl noEdges
    exact ⟨isExact', later, _, Array.getElem?_push_size, rfl⟩

theorem Exact.formed_state (isExact : d.Exact net decision) (n : Nat) : (d.state n).configs.Formed false := by
  rw [Dfa.state, Array.getD_eq_getD_getElem?]
  cases found : d.states[n]? with
  | none => exact ConfigSet.formed_ofParser false
  | some t => exact isExact.formed t (Array.mem_of_getElem? found)

/-! ## Recording edges -/

theorem getElem?_setEdge (d : Dfa) (n i : Nat) (e : DfaEdge) (k : Nat) :
    (d.setEdge n i e).states[k]? = if n = k then (d.states[k]?).map (·.setEdge i e) else d.states[k]? :=
  Array.getElem?_modify

/-- Every state is one of before, perhaps with the new edge. -/
theorem mem_setEdge {n i : Nat} {t : DfaState} (member : t ∈ (d.setEdge n i e).states) :
    t ∈ d.states ∨ ∃ s, d.states[n]? = some s ∧ t = s.setEdge i e := by
  obtain ⟨k, here⟩ := Array.mem_iff_getElem?.1 member
  rw [getElem?_setEdge] at here
  split at here
  · rename_i same
    obtain ⟨s, before, rfl⟩ := Option.map_eq_some_iff.1 here
    exact .inr ⟨s, same ▸ before, rfl⟩
  · exact .inl (Array.mem_of_getElem? here)

theorem Exact.setEdge (isExact : d.Exact net decision) {n i : Nat}
    (exact' : ∀ s, d.states[n]? = some s → EdgeExact net decision d s.configs ((i : Int) - 1) e) :
    (d.setEdge n i e).Exact net decision ∧ d.Later (d.setEdge n i e) := by
  have later : d.Later (d.setEdge n i e) := by
    refine ⟨rfl, rfl, fun k t here => ?_⟩
    rw [getElem?_setEdge, here]
    split
    · exact ⟨t.setEdge i e, rfl, rfl⟩
    · exact ⟨t, rfl, rfl⟩
  refine ⟨⟨fun t member => ?_, fun t member => ?_, fun t member j e' edge => ?_⟩, later⟩
  · rcases mem_setEdge member with old | ⟨s, before, rfl⟩
    · exact isExact.formed t old
    · exact isExact.formed s (Array.mem_of_getElem? before)
  · rcases mem_setEdge member with old | ⟨s, before, rfl⟩
    · exact isExact.identity t old
    · exact isExact.identity s (Array.mem_of_getElem? before)
  · rcases mem_setEdge member with old | ⟨s, before, rfl⟩
    · exact (isExact.edges t old j e' edge).later later
    · rcases Lexer.edge?_setEdge edge with old | ⟨rfl, rfl⟩
      · exact (isExact.edges s (Array.mem_of_getElem? before) j e' old).later later
      · exact (exact' s before).later later

/-- What the automaton has recorded does not depend on where it starts. -/
theorem Exact.of_states (isExact : d.Exact net decision) (states : d'.states = d.states)
    (networkState : d'.networkState = d.networkState) (precedence : d'.precedence = d.precedence) :
    d'.Exact net decision ∧ d.Later d' := by
  have later : d.Later d' := ⟨networkState, precedence, fun n t found => ⟨t, states ▸ found, rfl⟩⟩
  refine ⟨⟨?_, ?_, ?_⟩, later⟩
  · rw [states]
    exact isExact.formed
  · rw [states]
    exact isExact.identity
  · rw [states]
    exact fun s member i e edge => (isExact.edges s member i e edge).later later

end Dfa

/-! ## Caches -/

/-- What the cache has recorded of every decision is exact. -/
def DfaCache.Exact (net : Network) (cache : DfaCache) : Prop := ∀ i, (cache.dfa i).Exact net i

namespace DfaCache

variable {cache cache' : DfaCache} {i : Nat}

/-- Nothing is learned yet. -/
theorem states_fresh (net : Network) (i : Nat) : ((ofNetwork net).dfa i).states = #[] := by
  unfold ofNetwork DfaCache.dfa
  split <;> simp only [Array.getD_eq_getD_getElem?, Array.getElem?_mapIdx]
  · cases net.modeStarts[i]? <;> rfl
  · cases net.decisions[i]? <;> rfl

theorem exact_fresh (net : Network) : (ofNetwork net).Exact net := by
  intro i
  refine ⟨?_, ?_, ?_⟩ <;> simp [states_fresh]

/-- There is nothing to change where there is no automaton. -/
theorem dfa_modifyDfa_outside (outside : cache.dfas.size ≤ i) (f : Dfa → Dfa) (k : Nat) :
    (cache.modifyDfa i f).dfa k = cache.dfa k := by
  simp only [DfaCache.dfa, DfaCache.modifyDfa, Array.getD_eq_getD_getElem?, Array.getElem?_modify]
  split
  · rename_i same
    rw [← same, Array.getElem?_eq_none outside]
    rfl
  · rfl

theorem dfa_addState_outside (outside : cache.dfas.size ≤ i) (s : DfaState) (k : Nat) :
    (cache.addState i s).2.dfa k = cache.dfa k := by
  have same : (cache.addState i s).2.dfas = cache.dfas := Array.setIfInBounds_eq_of_size_le outside
  rw [DfaCache.dfa, same]
  rfl

/-- An automaton is changed, if there is one for the decision. -/
theorem dfa_modifyDfa_cases (cache : DfaCache) (i : Nat) (f : Dfa → Dfa) :
    (∀ k, (cache.modifyDfa i f).dfa k = cache.dfa k) ∨
      ∀ k, (cache.modifyDfa i f).dfa k = if k = i then f (cache.dfa i) else cache.dfa k := by
  rcases Nat.lt_or_ge i cache.dfas.size with inside | outside
  · exact .inr (Lexer.dfa_modifyDfa inside f)
  · exact .inl (dfa_modifyDfa_outside outside f)

/-- A state is registered, if there is an automaton for the decision. -/
theorem dfa_addState_cases (cache : DfaCache) (i : Nat) (s : DfaState) :
    ((cache.dfa i).states = #[] ∧ ∀ k, (cache.addState i s).2.dfa k = cache.dfa k) ∨
      ∀ k, (cache.addState i s).2.dfa k =
        if k = i then ((cache.dfa i).addState s cache.contexts).2.1 else cache.dfa k := by
  rcases Nat.lt_or_ge i cache.dfas.size with inside | outside
  · exact .inr (Lexer.dfa_addState inside s)
  · refine .inl ⟨?_, dfa_addState_outside outside s⟩
    rw [DfaCache.dfa, Array.getD_eq_getD_getElem?, Array.getElem?_eq_none outside]
    rfl

end DfaCache

/-- A cache of the network that came about by predictions which ended, in any modes, with any user code and
over any tokens. -/
inductive DfaCache.Learned (net : Network) : DfaCache → Prop
  | fresh : Learned net (.ofNetwork net)
  | predicted {η : Type} {s s' : Simulator η} {fuel : Nat} {evaluator : Guard.Evaluator η} {decision : Nat}
    {callStack : List Nat} {precedence : Int} {result : Except RecognitionError Nat} {j j' : Journal}
    (before : Learned net s.cache)
    (ran : ((Simulator.predict net fuel evaluator decision callStack precedence).run s).run j =
      some ((result, s'), j')) : Learned net s'.cache

namespace Simulator

variable {η : Type} {env : Env η} {s s' : Simulator η} {α β : Type}

/-! ## Steps that record nothing -/

/-- The step leaves the cache as it is. -/
def Reading (x : PredictM η α) : Prop := ∀ s : Simulator η, Leads x s fun _ s' => s'.cache = s.cache

namespace Reading

theorem bind {x : PredictM η α} {f : α → PredictM η β} (first : Reading x) (second : ∀ a, Reading (f a)) :
    Reading (x >>= f) := fun s => (first s).bind fun a s' same => (second a s').imp fun _ _ same' => same'.trans same

theorem pure (a : α) : Reading (pure a : PredictM η α) := fun _ => .pure rfl

theorem failure : Reading (failure : PredictM η α) := fun _ => .of_failure

theorem get_bind {f : Simulator η → PredictM η α} (rest : ∀ s, Reading (f s)) : Reading (get >>= f) :=
  fun s => rest s s

theorem onStream (step : TokenStream.StreamM η α) : Reading (onStream step) := fun s =>
  (onStream_leads (Q := fun _ _ => True) fun _ _ _ _ _ => trivial).imp fun _ s' known => by rw [known.1]

theorem onConfigs (step : ScratchM η α) : Reading (onConfigs step) := by
  intro s
  refine .get_bind ?_
  split
  · exact .set_bind (.pure rfl)
  · exact .of_failure

theorem count (f : Stats → Stats) : Reading (count f : PredictM η Unit) := fun _ => .of_modify rfl

theorem report (e : Event) : Reading (report e : PredictM η Unit) := fun _ => .of_journal rfl

theorem index : Reading (index : PredictM η Nat) := get_bind fun _ => pure _

end Reading

theorem fail_reading (start offending : Nat) : Reading (fail env start offending) :=
  (Reading.report _).bind fun _ => .pure _

theorem failOrFallback_reading (start : Nat) (configs : ConfigSet) : Reading (failOrFallback env start configs) := by
  refine Reading.index.bind fun offending => (Reading.onConfigs _).bind fun alt => ?_
  split
  · exact .pure _
  · exact fail_reading start offending

theorem concludeFull_reading (start : Nat) (reach : ConfigSet) (alt : Nat) (exact' : Bool) :
    Reading (concludeFull env start reach alt exact') := by
  refine Reading.index.bind fun stop => ?_
  split
  · exact (Reading.count _).bind fun _ => (Reading.report _).bind fun _ => .pure _
  · exact (Reading.count _).bind fun _ => (Reading.report _).bind fun _ => .pure _

theorem runFull_reading (start rounds : Nat) (configs : ConfigSet) (symbol : Int) :
    Reading (runFull env start rounds configs symbol) := by
  induction rounds generalizing configs symbol with
  | zero => exact .failure
  | succ rounds ih =>
    refine (Reading.onConfigs _).bind fun reach => ?_
    split
    · exact failOrFallback_reading start configs
    · refine Reading.get_bind fun s => ?_
      split
      · exact (concludeFull_reading start _ _ _).bind fun _ => .pure _
      · split
        · exact (Reading.onStream _).bind fun _ => (Reading.onStream _).bind fun _ => ih _ _
        · exact ih _ _

theorem predictFull_reading (start : Nat) (outer : Context) (conflicting : Option AltSet) :
    Reading (predictFull env start outer conflicting) :=
  (Reading.onConfigs _).bind fun _ => (Reading.count _).bind fun _ => Reading.index.bind fun _ =>
    (Reading.report _).bind fun _ => (Reading.onStream _).bind fun _ => (Reading.onStream _).bind
      fun _ => runFull_reading _ _ _ _

theorem settleConflict_reading (start : Nat) (outer : Context) (d : DfaState) :
    Reading (settleConflict env start outer d) := by
  unfold settleConflict
  split
  · exact predictFull_reading start outer _
  · refine (Reading.onConfigs _).bind fun enabled => ?_
    split
    · exact .pure _
    · exact predictFull_reading start outer _

theorem accept_reading (start : Nat) (d : DfaState) : Reading (accept env start d) := by
  unfold accept
  split
  · exact .pure _
  · refine (Reading.onStream _).bind fun _ => (Reading.onConfigs _).bind fun enabled => ?_
    split
    · exact .pure _
    · exact Reading.index.bind fun _ => fail_reading _ _

/-! ## The local part of a prediction -/

/-- During the local part of a prediction what is recorded is exact, the automaton is that of the decision, and
the remembered merges are those of local context. -/
structure Recording (env : Env η) (s : Simulator η) : Prop where
  recorded : s.cache.Exact env.net
  start : (s.cache.dfa env.decision).networkState = env.startState
  loop : (s.cache.dfa env.decision).precedence = env.precedenceLoop
  faithful : s.merges.Faithful true

namespace Recording

theorem of_eq (recording : Recording env s) (cache : s'.cache = s.cache) (merges : s'.merges = s.merges) :
    Recording env s' := by
  refine ⟨?_, ?_, ?_, ?_⟩
  · rw [cache]
    exact recording.recorded
  · rw [cache]
    exact recording.start
  · rw [cache]
    exact recording.loop
  · rw [merges]
    exact recording.faithful

/-- The automaton of the decision has learned more, or the decision has none. -/
theorem relearn (recording : Recording env s) {d : Dfa} {cache : DfaCache}
    (isExact : d.Exact env.net env.decision) (later : (s.cache.dfa env.decision).Later d)
    (changed : (∀ k, cache.dfa k = s.cache.dfa k) ∨
      ∀ k, cache.dfa k = if k = env.decision then d else s.cache.dfa k) :
    Recording env { s with cache } ∧ (s.cache.dfa env.decision).Later (cache.dfa env.decision) := by
  rcases changed with same | changed
  · refine ⟨⟨fun i => ?_, ?_, ?_, recording.faithful⟩, ?_⟩
    · exact (same i).symm ▸ recording.recorded i
    · exact (same env.decision).symm ▸ recording.start
    · exact (same env.decision).symm ▸ recording.loop
    · exact (same env.decision).symm ▸ .refl _
  · have here : cache.dfa env.decision = d := (changed env.decision).trans (if_pos rfl)
    refine ⟨⟨fun i => ?_, ?_, ?_, recording.faithful⟩, ?_⟩
    · by_cases isHere : i = env.decision
      · exact isHere ▸ here ▸ isExact
      · exact ((changed i).trans (if_neg isHere)).symm ▸ recording.recorded i
    · exact here ▸ later.networkState.trans recording.start
    · exact here ▸ later.precedence.trans recording.loop
    · exact here ▸ later

end Recording

/-- What the simulation of a step leaves. -/
theorem onConfigs_leads {step : ScratchM η α} {Q : α → Scratch η → Prop}
    (leaves : Leaves step { merges := s.merges, hooks := s.stream.hooks } Q) :
    Leads (onConfigs step) s fun a s' => ∃ w, s' = { s with merges := w.merges, stream := s.stream.setHooks w.hooks } ∧
      Q a w := by
  refine .get_bind ?_
  split
  · rename_i a w ran
    exact .set_bind (.pure ⟨w, rfl, leaves a w ran⟩)
  · exact .of_failure

theorem modifyDfa_records (recording : Recording env s) {f : Dfa → Dfa}
    (isExact : (f (s.cache.dfa env.decision)).Exact env.net env.decision)
    (later : (s.cache.dfa env.decision).Later (f (s.cache.dfa env.decision))) :
    Leads (modifyDfa env.decision f) s fun _ s' => Recording env s' :=
  .of_modify (recording.relearn isExact later (DfaCache.dfa_modifyDfa_cases _ _ f)).1

/-- The registered state has the identity of the one that was to be registered, if there is an automaton. -/
theorem register_records (recording : Recording env s) {d : DfaState} (formed : d.configs.Formed false)
    (noEdges : ∀ i, d.edge? i = none) :
    Leads (register env.decision d) s fun n s' => Recording env s' ∧
      (s.cache.dfa env.decision).Later (s'.cache.dfa env.decision) ∧
      ((s.cache.dfa env.decision).states = #[] ∨ ∃ t, (s'.cache.dfa env.decision).states[n]? = some t ∧
        t.configs.identity = d.configs.identity) := by
  obtain ⟨isExact, later, t, found, identity⟩ :=
    (recording.recorded env.decision).addState formed noEdges s.cache.contexts
  refine .of_modifyGet ?_
  have changed := DfaCache.dfa_addState_cases s.cache env.decision d
  obtain ⟨recording', later'⟩ := recording.relearn isExact later (changed.imp_left And.right)
  refine ⟨recording', later', ?_⟩
  rcases changed with ⟨none', -⟩ | changed
  · exact .inl none'
  · refine .inr ⟨t, ?_, identity⟩
    rw [changed env.decision, if_pos rfl]
    exact found

theorem startState_records (recording : Recording env s) (precedence : Int) :
    Leads (startState env precedence) s fun _ s' => Recording env s' := by
  have registered (configs : ConfigSet) (width : Nat) (f : Dfa → Nat → Nat × Dfa)
      (starts : ∀ (d : Dfa) (n : Nat), (f d n).2.states = d.states ∧ (f d n).2.networkState = d.networkState ∧
        (f d n).2.precedence = d.precedence) {s : Simulator η} (recording : Recording env s)
      (formed : configs.Formed false) :
      Leads (do
        let n ← register env.decision (.ofConfigs configs width)
        let started := f (← dfa env.decision) n
        modifyDfa env.decision fun _ => started.2
        return started.1) s fun _ s' => Recording env s' := by
    have noEdges (i : Nat) : (DfaState.ofConfigs configs width).edge? i = none := by
      rw [DfaState.edge?, DfaState.ofConfigs, Array.getElem?_replicate]
      split <;> rfl
    refine (register_records recording (d := .ofConfigs configs width) formed noEdges).bind
      fun n s₁ known => ?_
    have recording₁ := known.1
    refine .get_bind ?_
    obtain ⟨states, networkState, loop⟩ := starts (s₁.cache.dfa env.decision) n
    obtain ⟨isExact, later⟩ := (recording₁.recorded env.decision).of_states states networkState loop
    exact (modifyDfa_records recording₁ (f := fun _ => (f (s₁.cache.dfa env.decision) n).2) isExact later).bind
      fun _ _ recording₂ => .pure recording₂
  refine .get_bind ?_
  dsimp only
  split
  · exact .pure recording
  · have starts : Leaves (startSet env .empty false) { merges := s.merges, hooks := s.stream.hooks }
        fun s w => s.Formed false ∧ w.merges.Faithful true := by
      refine startSet_upholds upholds_formed ?_ fun _ _ _ => ⟨Context.wellFormed_empty, Context.empty_ne_nil⟩
      exact ⟨ConfigSet.formed_ofParser false, recording.faithful⟩
    refine (onConfigs_leads starts).bind fun configs s₁ known => ?_
    obtain ⟨w, same, formed, faithful⟩ := known
    have recording₁ : Recording env s₁ := by
      rw [same]
      exact ⟨recording.recorded, recording.start, recording.loop, faithful⟩
    have resolves : Resolves env Reference.Fine := fun _ fine _ _ _ => fine
    split
    · have filtered : Leaves (precedenceFilter env configs) { merges := s₁.merges, hooks := s₁.stream.hooks }
          fun s w => s.Formed false ∧ w.merges.Faithful true := by
        refine precedenceFilter_upholds upholds_formed resolves ?_
        exact ⟨formed, recording₁.faithful⟩
      refine (onConfigs_leads filtered).bind fun configs' s₂ known' => ?_
      obtain ⟨w', same', formed', faithful'⟩ := known'
      have recording₂ : Recording env s₂ := by
        rw [same']
        exact ⟨recording₁.recorded, recording₁.start, recording₁.loop, faithful'⟩
      refine registered configs' _ (fun d n => d.setPrecedenceStart precedence n) (fun d n => ?_) recording₂ formed'
      unfold Dfa.setPrecedenceStart
      split <;> exact ⟨rfl, rfl, rfl⟩
    · refine registered configs _ (fun d n => d.setStart n) (fun d n => ?_) recording₁ formed
      unfold Dfa.setStart
      split <;> exact ⟨rfl, rfl, rfl⟩

/-- Without configurations nothing is found. -/
theorem reachSet_none {configs : ConfigSet} (none' : configs.configs = #[]) (full : Bool) (w : Scratch η) :
    Leaves (reachSet env configs x full) w fun result _ => result = none := by
  have upholds : Upholds env full (fun _ => False) (fun _ => False) fun s (_ : Scratch η) => s.configs = #[] :=
    { empty := fun _ => rfl, emptied := fun _ => rfl, insert := fun _ absurd => absurd.elim
      share := fun _ same => same, asked := fun _ same => same, resolved := fun _ same => same
      dips := fun same => same
      mem := fun same member => by rw [same] at member; cases Array.not_mem_empty _ member
      opened := id, rested := fun absurd _ => absurd.elim, carried := fun absurd _ _ _ => absurd.elim
      moved := fun absurd _ _ _ => absurd.elim, called := fun absurd _ _ _ => absurd.elim
      guarded := fun _ absurd => absurd.elim, left := fun _ _ => id, returned := fun absurd _ _ => absurd.elim
      ended := fun absurd _ _ => absurd.elim }
  refine (reachSet_upholds upholds none').imp fun result _ ⟨_, found⟩ => ?_
  cases result with
  | none => rfl
  | some reach =>
    obtain ⟨same, nonempty⟩ := found reach rfl
    rw [ConfigSet.isEmpty, same] at nonempty
    cases nonempty

theorem guardState_keeps (count : Nat) (s : DfaState) :
    (guardState count s).configs = s.configs ∧ (guardState count s).edges = s.edges := by
  unfold guardState
  split
  · dsimp only
    split <;> exact ⟨rfl, rfl⟩
  · exact ⟨rfl, rfl⟩

/-- The state of a set of configurations has these configurations, and no edges. -/
theorem stateOf_spec (net : Network) (mode : PredictionMode) (count width : Nat) (configs : ConfigSet) :
    (stateOf net mode count width configs).configs.configs = configs.configs ∧
      (stateOf net mode count width configs).configs.ordered = configs.ordered ∧
      (stateOf net mode count width configs).configs.fullContext = configs.fullContext ∧
      ∀ i, (stateOf net mode count width configs).edge? i = none := by
  have noEdges {s : DfaState} (edges : s.edges = Array.replicate width none) (i : Nat) : s.edge? i = none := by
    rw [DfaState.edge?, edges, Array.getElem?_replicate]
    split <;> rfl
  unfold stateOf
  dsimp only
  split
  · rw [(guardState_keeps count _).1]
    exact ⟨rfl, rfl, rfl, noEdges (guardState_keeps count _).2⟩
  · split
    · rw [(guardState_keeps count _).1]
      exact ⟨rfl, rfl, rfl, noEdges (guardState_keeps count _).2⟩
    · rw [(guardState_keeps count _).1]
      exact ⟨rfl, rfl, rfl, noEdges (guardState_keeps count _).2⟩

/-- What a step finds it would find afresh. -/
theorem reachSet_afresh (recording : Recording env s) {configs : ConfigSet} (formed : configs.Formed false)
    (symbol : Int) :
    Leaves (reachSet env configs symbol false) { merges := s.merges, hooks := s.stream.hooks } fun result w =>
      (∀ reach, result = some reach → reach.Formed false) ∧ w.merges.Faithful true ∧
        (s.cache.dfa env.decision).Afresh env.net env.decision configs symbol result := by
  intro result w ran
  have again {η' : Type} (evaluator : Guard.Evaluator η') (hooks : η') {fuel : Nat} (more : env.fuel ≤ fuel) :=
    (reachSet_mirrors more formed :
      Mirrors _ _ (reachSet env configs symbol false) (reachSet (env.again evaluator fuel) configs symbol false))
      { merges := s.merges, hooks := s.stream.hooks } { hooks }
      ⟨recording.faithful, Context.Memo.faithful_empty true⟩ result w ran
  obtain ⟨formed', -, -, faithful, -⟩ := again env.evaluator s.stream.hooks (Nat.le_refl _)
  refine ⟨formed', faithful, env.fuel, fun evaluator hooks fuel more => ?_⟩
  obtain ⟨-, w', ran', -⟩ := again evaluator hooks more
  rw [recording.start, recording.loop]
  exact ⟨w', ran'⟩

theorem recordEdge_records (recording : Recording env s) {n : Nat} {symbol : Int} {e : DfaEdge}
    (exact' : ∀ t, (s.cache.dfa env.decision).states[n]? = some t →
      (s.cache.dfa env.decision).EdgeExact env.net env.decision t.configs symbol e) :
    Leads (recordEdge env n symbol e) s fun _ s' => Recording env s' := by
  unfold recordEdge
  split
  · rename_i i place
    have isSymbol : (i : Int) - 1 = symbol := by
      unfold edgePlace? at place
      split at place
      · cases place
        omega
      · cases place
    obtain ⟨isExact, later⟩ := (recording.recorded env.decision).setEdge fun t found =>
      isSymbol ▸ exact' t found
    exact modifyDfa_records recording isExact later
  · exact .pure recording

theorem computeTarget_records (recording : Recording env s) (n : Nat) (symbol : Int) :
    Leads (computeTarget env n symbol) s fun _ s' => Recording env s' := by
  refine .get_bind ?_
  -- A number without a state stands for a state without configurations.
  have here {t : DfaState} (found : (s.cache.dfa env.decision).states[n]? = some t) :
      (s.cache.dfa env.decision).state n = t := by
    rw [Dfa.state, Array.getD_eq_getD_getElem?, found]
    rfl
  have absent (found : (s.cache.dfa env.decision).states[n]? = none) :
      (s.cache.dfa env.decision).state n = default := by
    rw [Dfa.state, Array.getD_eq_getD_getElem?, found]
    rfl
  have formed := (recording.recorded env.decision).formed_state n
  refine (onConfigs_leads fun result w ran => And.intro (reachSet_afresh recording formed symbol result w ran)
    (fun none' => reachSet_none none' false _ result w ran)).bind fun result s₁ known => ?_
  obtain ⟨w, same, ⟨formed', faithful, afresh⟩, empty⟩ := known
  have cache : s₁.cache = s.cache := by rw [same]
  have recording₁ : Recording env s₁ := by
    rw [same]
    exact ⟨recording.recorded, recording.start, recording.loop, faithful⟩
  cases result with
  | none =>
    refine (recordEdge_records recording₁ fun t found => ?_).bind fun _ _ recording₂ => .pure recording₂
    rw [cache] at found ⊢
    rw [here found] at afresh
    exact ⟨none, afresh, by simp, by simp⟩
  | some reach =>
    obtain ⟨t₀, found₀⟩ : ∃ t, (s.cache.dfa env.decision).states[n]? = some t := by
      refine Option.ne_none_iff_exists'.1 fun none' => ?_
      exact Option.some_ne_none reach (empty (by rw [absent none']; rfl))
    rw [here found₀] at afresh
    refine .get_bind ?_
    obtain ⟨sameConfigs, ordered, fullContext, noEdges⟩ := stateOf_spec env.net s₁.mode
      (env.net.decisionState env.decision).transitions.length (s.cache.dfa env.decision).width reach
    have reachFormed := formed' reach rfl
    have stateFormed : (stateOf env.net s₁.mode (env.net.decisionState env.decision).transitions.length
        (s.cache.dfa env.decision).width reach).configs.Formed false :=
      ⟨ordered.trans reachFormed.ordered, fullContext.trans reachFormed.fullContext,
        fun c member => reachFormed.contexts c (sameConfigs ▸ member)⟩
    refine (register_records recording₁ stateFormed noEdges).bind fun target s₂ known => ?_
    obtain ⟨recording₂, later, registered⟩ := known
    refine (recordEdge_records recording₂ fun t found => ?_).bind fun _ _ recording₃ => .pure recording₃
    rw [cache] at later registered
    obtain ⟨t', found', configs'⟩ := later.kept n t₀ found₀
    obtain rfl : t' = t := Option.some.inj (found'.symm.trans found)
    obtain ⟨u, isTarget, identity⟩ := registered.resolve_left fun none' => by
      rw [none'] at found₀
      cases found₀
    rw [configs']
    refine ⟨some reach, afresh.later later, by simp, fun reach' same' => ?_⟩
    cases same'
    refine ⟨target, u, rfl, isTarget, identity.trans ?_⟩
    rw [ConfigSet.identity, ConfigSet.key, sameConfigs, ordered]
    rfl

theorem target_records (recording : Recording env s) (n : Nat) (symbol : Int) :
    Leads (target env n symbol) s fun _ s' => Recording env s' := by
  refine .get_bind ?_
  split
  · exact .modify_bind (.pure (recording.of_eq rfl rfl))
  · refine .modify_bind (computeTarget_records ?_ n symbol)
    exact recording.of_eq rfl rfl

theorem onStream_records (recording : Recording env s) (step : TokenStream.StreamM η α) :
    Leads (onStream step) s fun _ s' => Recording env s' :=
  (onStream_leads (Q := fun _ _ => True) fun _ _ _ _ _ => trivial).imp fun _ s' known =>
    recording.of_eq (by rw [known.1]) (by rw [known.1])

theorem runLocal_records (recording : Recording env s) (start : Nat) (outer : Context) (rounds n : Nat)
    (symbol : Int) :
    Leads (runLocal env start outer rounds n symbol) s fun _ s' => s'.cache.Exact env.net := by
  -- What comes behind the local part only reads the cache.
  have reading {x : PredictM η (Except RecognitionError Nat)} (reads : Reading x) {s : Simulator η}
      (recording : Recording env s) : Leads x s fun _ s' => s'.cache.Exact env.net :=
    (reads s).imp fun _ _ same => same ▸ recording.recorded
  induction rounds generalizing n symbol s with
  | zero => exact .of_failure
  | succ rounds ih =>
    refine (target_records recording n symbol).bind fun edge s₁ recording₁ => ?_
    split
    · exact .get_bind (reading (failOrFallback_reading _ _) recording₁)
    · refine .get_bind (.get_bind ?_)
      split
      · exact reading (settleConflict_reading _ _ _) recording₁
      · split
        · exact reading (accept_reading _ _) recording₁
        · split
          · exact (onStream_records recording₁ _).bind fun _ s₂ recording₂ =>
              (onStream_records recording₂ _).bind fun next s₃ recording₃ => ih recording₃ _ next
          · exact ih recording₁ _ symbol

/-- A prediction records nothing but exact edges. -/
theorem predict_records {fuel : Nat} {evaluator : Guard.Evaluator η} {callStack : List Nat} {precedence : Int}
    (recorded : s.cache.Exact net) :
    Leads (predict net fuel evaluator decision callStack precedence) s fun _ s' => s'.cache.Exact net := by
  refine .modify_bind (.get_bind (.get_bind (.modify_bind ?_)))
  refine (startState_records ⟨recorded, rfl, rfl, Context.Memo.faithful_empty true⟩ precedence).bind
    fun n s₁ recording₁ => ?_
  refine (onStream_records recording₁ _).bind fun symbol s₂ recording₂ => ?_
  refine (runLocal_records recording₂ _ _ fuel n symbol).bind fun result s₃ recorded₃ => ?_
  exact (Reading.onStream _ s₃).bind fun _ _ same => .pure (same ▸ recorded₃)

end Simulator

theorem DfaCache.Learned.exact {cache : DfaCache} (learned : Learned net cache) : cache.Exact net := by
  induction learned with
  | fresh => exact exact_fresh net
  | predicted _ ran recorded => exact Simulator.predict_records recorded _ _ _ _ ran

/-- Every edge that predictions have recorded is exact: it is dead exactly if the symbol of its place leads
nowhere from the configurations of the state, simulated afresh, and otherwise it leads to a registered state
with the identity of what is found. -/
theorem recorded_edges_exact {cache : DfaCache} (learned : DfaCache.Learned net cache)
    (member : s ∈ (cache.dfa decision).states) {i : Nat} (edge : s.edge? i = some e) :
    Dfa.EdgeExact net decision (cache.dfa decision) s.configs ((i : Int) - 1) e :=
  (learned.exact decision).edges s member i e edge

/-- What the prediction over two alternatives that are the same records for the state it starts in. -/
theorem recorded_edges_exact_twins : ∃ compiled net, Simulator.twins.compile = .ok compiled ∧
    Network.decode compiled.words true = .ok net ∧ ∃ cache s, DfaCache.Learned net cache ∧
    s ∈ (cache.dfa 0).states ∧ s.edge? 2 = some (.target 1) ∧
    Dfa.EdgeExact net 0 (cache.dfa 0) s.configs 1 (.target 1) := by
  have answer : (do
      let net ← (Network.decode (← Simulator.twins.compile.toOption).words true).toOption
      let ((_, s'), _) ← Simulator.twinPrediction net
      (← (s'.cache.dfa 0).states[0]?).edge? 2) = some (.target 1) := by cbv
  simp only [Option.bind_eq_bind, Option.bind_eq_some_iff] at answer
  obtain ⟨compiled, compiles, net, decodes, ⟨⟨result, s'⟩, j'⟩, ran, s, found, edge⟩ := answer
  have learned : DfaCache.Learned net s'.cache := .predicted .fresh ran
  have member : s ∈ (s'.cache.dfa 0).states := Array.mem_of_getElem? found
  exact ⟨compiled, net, except_ok_of_some compiles, except_ok_of_some decodes, s'.cache, s, learned, member, edge,
    recorded_edges_exact learned member edge⟩

end AdaptiveLL
