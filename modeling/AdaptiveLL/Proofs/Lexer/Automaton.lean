import AdaptiveLL.Proofs.Context.Merging
import AdaptiveLL.Proofs.Lexer.Sets

/-!
# The automata of a lexer

The automaton of a mode is sound when its start state holds the threads that are live after nothing,
its edges lead to the sets behind their symbols, and each of its states accepts what its
configurations say. A fresh cache is sound, and registering states and recording edges keep it so;
nothing that is registered changes later.
-/

set_option autoImplicit false

namespace AdaptiveLL

open Network

/-! ## Interning -/

theorem Context.wellFormed_ofStack (stack : List Nat) : (Context.ofStack stack).WellFormed := by
  induction stack with
  | nil => exact wellFormed_empty
  | cons ret stack ih => exact ih.push (ofStack_ne_nil stack) ret

namespace Context.Table

/-- The context of a stack is kept as it is. -/
theorem intern_ofStack (stack : List Nat) (t : Table) : (intern (.ofStack stack) t).1 = .ofStack stack :=
  intern_eq (wellFormed_ofStack stack) t

end Context.Table

namespace ConfigSet

/-- Configurations whose contexts the table keeps as they are keep as they are. -/
theorem intern_of_kept {s : ConfigSet}
    (kept : ∀ c ∈ s.configs, ∀ t, (Context.Table.intern c.context t).1 = c.context) (t : Context.Table) :
    (s.intern t).1 = s := by
  let step (acc : Array Config × Context.Table) (c : Config) : Array Config × Context.Table :=
    (acc.1.push { c with context := (Context.Table.intern c.context acc.2).1 },
      (Context.Table.intern c.context acc.2).2)
  have folded : ∀ (cs : List Config) (done : Array Config) (t : Context.Table),
      (∀ c ∈ cs, ∀ t, (Context.Table.intern c.context t).1 = c.context) →
        (cs.foldl step (done, t)).1 = done ++ cs.toArray := by
    intro cs
    induction cs with
    | nil => simp
    | cons c cs ih =>
      intro done t kept
      have same : (Context.Table.intern c.context t).1 = c.context := kept c (by simp) t
      rw [List.foldl_cons, ih _ _ fun d member => kept d (by simp [member])]
      simp only [same]
      simp
  have all := folded s.configs.toList #[] t fun c member => kept c (Array.mem_toList_iff.1 member)
  rw [Array.foldl_toList, Array.empty_append, Array.toArray_toList] at all
  have result : (s.intern t).1 = { s with configs := (s.configs.foldl step (#[], t)).1 } := rfl
  rw [result, all]

/-- Configurations with stacks to return to are kept as they are. -/
theorem intern_eq {s : ConfigSet} (stacked : ∀ c ∈ s.configs, ∃ stack, c.context = .ofStack stack)
    (t : Context.Table) : (s.intern t).1 = s := by
  refine intern_of_kept (fun c member t => ?_) t
  obtain ⟨stack, context⟩ := stacked c member
  rw [context]
  exact Context.Table.intern_ofStack stack t

/-- Sets of threads with the same identity hold the same threads. -/
theorem holds_of_identity {s s' : ConfigSet} (ordered : s.ordered = true) (ordered' : s'.ordered = true)
    (same : s.identity = s'.identity) {alt : Nat} {θ : Thread} (held : s.Holds alt θ) :
    s'.Holds alt θ := by
  obtain ⟨c, member, isAlt, follows⟩ := held
  have among : c.identity ∈ s.identity := by
    rw [identity, key, if_pos ordered]
    exact List.mem_map_of_mem (Array.mem_toList_iff.2 member)
  rw [same, identity, key, if_pos ordered'] at among
  obtain ⟨d, member', sameIdentity⟩ := List.mem_map.1 among
  exact ⟨d, Array.mem_toList_iff.1 member', (Config.alt_of_identity sameIdentity).trans isAlt,
    follows.of_identity sameIdentity⟩

end ConfigSet

namespace Lexer

variable {η : Type} {net : Network} {g : Grammar} {mode : Nat}

/-! ## Sound automata -/

/-- The state is registered for its configurations, which are threads, and accepts what they say. -/
structure StateSound (net : Network) (s : DfaState) : Prop where
  threads : ∀ c ∈ s.configs.configs, ∃ θ, c.Follows θ
  sorted : s.configs.configs.toList.Pairwise (·.alt ≤ ·.alt)
  ordered : s.configs.ordered = true
  identity : s.identity = s.configs.identity
  accepts : s.accepts = (stateOf net s.configs).accepts
  prediction : s.prediction = (stateOf net s.configs).prediction

/-- The state holds just the threads that are reached from the configurations by the symbol. -/
def LeadsTo (net : Network) (d : Dfa) (s : ConfigSet) (symbol : Int) : DfaEdge → Prop
  | .dead => ∀ alt θ, ¬ Steps net s symbol alt θ
  | .target m => m < d.states.size ∧ ∀ alt θ, (d.state m).configs.Holds alt θ ↔ Steps net s symbol alt θ

/-- What the automaton of a mode has learned is right. -/
structure Sound (net : Network) (g : Grammar) (mode : Nat) (d : Dfa) : Prop where
  states : ∀ n < d.states.size, StateSound net (d.state n)
  edges : ∀ n < d.states.size, ∀ i e, (d.state n).edge? i = some e →
    LeadsTo net d (d.state n).configs i e
  start : ∀ n, d.start = some n → n < d.states.size ∧
    ∀ alt θ, (d.state n).configs.Holds alt θ ↔ Live net g mode [] alt θ

/-- The automaton has learned more; what was registered is as it was. -/
structure Extends (d d' : Dfa) : Prop where
  size : d.states.size ≤ d'.states.size
  configs : ∀ n < d.states.size, (d'.state n).configs = (d.state n).configs

theorem Extends.refl (d : Dfa) : Extends d d := ⟨Nat.le_refl _, fun _ _ => rfl⟩

theorem Extends.trans {d d' d'' : Dfa} (first : Extends d d') (second : Extends d' d'') :
    Extends d d'' := by
  refine ⟨Nat.le_trans first.size second.size, fun n inside => ?_⟩
  rw [second.configs n (Nat.lt_of_lt_of_le inside first.size), first.configs n inside]

theorem LeadsTo.extend {d d' : Dfa} {s : ConfigSet} {symbol : Int} {e : DfaEdge}
    (leads : LeadsTo net d s symbol e) (extends' : Extends d d') : LeadsTo net d' s symbol e := by
  cases e with
  | dead => exact leads
  | target m =>
    refine ⟨Nat.lt_of_lt_of_le leads.1 extends'.size, fun alt θ => ?_⟩
    rw [extends'.configs m leads.1]
    exact leads.2 alt θ

/-! ## Registering states -/

theorem state_push_of_lt {d : Dfa} {s : DfaState} {n : Nat} (inside : n < d.states.size) :
    ({ d with states := d.states.push s } : Dfa).state n = d.state n := by
  simp [Dfa.state, Array.getElem?_push_lt inside, inside]

theorem state_push_self {d : Dfa} {s : DfaState} :
    ({ d with states := d.states.push s } : Dfa).state d.states.size = s := by
  simp [Dfa.state]

theorem edge?_stateOf (configs : ConfigSet) (i : Nat) : (stateOf net configs).edge? i = none := by
  have edges : (stateOf net configs).edges = Array.replicate DfaCache.lexerWidth none := by
    unfold stateOf
    split <;> rfl
  rw [DfaState.edge?, edges, Array.getElem?_replicate]
  split <;> rfl

theorem configs_stateOf (configs : ConfigSet) : (stateOf net configs).configs = configs := by
  unfold stateOf
  split <;> rfl

theorem Sound.push {d : Dfa} (sound : Sound net g mode d) {s : DfaState} (isSound : StateSound net s)
    (noEdges : ∀ i, s.edge? i = none) : Sound net g mode { d with states := d.states.push s } ∧
      Extends d { d with states := d.states.push s } := by
  have extends' : Extends d { d with states := d.states.push s } :=
    ⟨by simp, fun n inside => by rw [state_push_of_lt inside]⟩
  have old : ∀ n, n < (d.states.push s).size → n < d.states.size ∨ n = d.states.size := by
    intro n inside
    rw [Array.size_push] at inside
    omega
  refine ⟨⟨?_, ?_, ?_⟩, extends'⟩
  · intro n inside
    rcases old n inside with before | rfl
    · rw [state_push_of_lt before]
      exact sound.states n before
    · rw [state_push_self]
      exact isSound
  · intro n inside i e found
    rcases old n inside with before | rfl
    · rw [state_push_of_lt before] at found ⊢
      exact (sound.edges n before i e found).extend extends'
    · rw [state_push_self, noEdges i] at found
      cases found
  · intro n isStart
    obtain ⟨inside, holds⟩ := sound.start n isStart
    refine ⟨Nat.lt_of_lt_of_le inside extends'.size, fun alt θ => ?_⟩
    rw [state_push_of_lt inside]
    exact holds alt θ

theorem find?_sound {d : Dfa} (sound : Sound net g mode d) {configs : ConfigSet}
    (ordered : configs.ordered = true) {n : Nat} (found : d.find? configs.identity = some n) :
    n < d.states.size ∧ ∀ alt θ, (d.state n).configs.Holds alt θ ↔ configs.Holds alt θ := by
  obtain ⟨inside, same, -⟩ := Array.findIdx?_eq_some_iff_getElem.1 found
  have isSound := sound.states n inside
  have here : d.state n = d.states[n] := by simp [Dfa.state, inside]
  have sameIdentity : (d.state n).configs.identity = configs.identity := by
    rw [← isSound.identity, here]
    exact beq_iff_eq.1 same
  exact ⟨inside, fun alt θ =>
    ⟨ConfigSet.holds_of_identity isSound.ordered ordered sameIdentity,
      ConfigSet.holds_of_identity ordered isSound.ordered sameIdentity.symm⟩⟩

/-- A set of threads is registered under a state that holds just its threads. -/
theorem Sound.addState {d : Dfa} (sound : Sound net g mode d) {configs : ConfigSet}
    (lexical : configs.Lexical) (table : Context.Table) :
    Sound net g mode (d.addState (stateOf net configs) table).2.1 ∧
      Extends d (d.addState (stateOf net configs) table).2.1 ∧
      (d.addState (stateOf net configs) table).1 <
        (d.addState (stateOf net configs) table).2.1.states.size ∧
      ∀ alt θ, ((d.addState (stateOf net configs) table).2.1.state
        (d.addState (stateOf net configs) table).1).configs.Holds alt θ ↔ configs.Holds alt θ := by
  have stacked : ∀ c ∈ configs.configs, ∃ stack, c.context = .ofStack stack := by
    intro c member
    obtain ⟨θ, follows⟩ := lexical.threads c member
    exact ⟨θ.stack, follows.context⟩
  unfold Dfa.addState
  simp only [configs_stateOf, ConfigSet.intern_eq stacked table]
  cases found : d.find? configs.identity with
  | some n =>
    obtain ⟨inside, holds⟩ := find?_sound sound lexical.ordered found
    exact ⟨sound, Extends.refl d, inside, holds⟩
  | none =>
    have isSound : StateSound net { stateOf net configs with
        number := d.states.size, configs, identity := configs.identity } :=
      ⟨lexical.threads, lexical.sorted, lexical.ordered, rfl, rfl, rfl⟩
    obtain ⟨sound', extends'⟩ := sound.push isSound (edge?_stateOf configs)
    refine ⟨sound', extends', by simp, fun alt θ => ?_⟩
    rw [state_push_self]

/-! ## Recording edges and starts -/

theorem edge?_setEdge {s : DfaState} {i j : Nat} {e e' : DfaEdge}
    (found : (s.setEdge i e).edge? j = some e') : s.edge? j = some e' ∨ j = i ∧ e' = e := by
  simp only [DfaState.edge?, DfaState.setEdge, Array.getElem?_modify] at found ⊢
  split at found
  · rename_i same
    subst same
    cases here : s.edges[i]? with
    | none => simp [here] at found
    | some edge =>
      rw [here] at found
      cases edge with
      | none => exact .inr ⟨rfl, (Option.some.inj found).symm⟩
      | some e'' => exact .inl found
  · exact .inl found

theorem state_setEdge {d : Dfa} {n i k : Nat} {e : DfaEdge} (inside : n < d.states.size) :
    (d.setEdge n i e).state k = if k = n then (d.state n).setEdge i e else d.state k := by
  simp only [Dfa.state, Dfa.setEdge, Array.getD_eq_getD_getElem?, Array.getElem?_modify]
  by_cases same : k = n
  · subst same
    simp [inside]
  · simp [same, Ne.symm same]

theorem Sound.setEdge {d : Dfa} (sound : Sound net g mode d) {n i : Nat} {e : DfaEdge}
    (inside : n < d.states.size) (leads : LeadsTo net d (d.state n).configs i e) :
    Sound net g mode (d.setEdge n i e) ∧ Extends d (d.setEdge n i e) := by
  have size : (d.setEdge n i e).states.size = d.states.size := by simp [Dfa.setEdge]
  have configs (k : Nat) : ((d.setEdge n i e).state k).configs = (d.state k).configs := by
    rw [state_setEdge inside]
    split
    · rename_i same
      rw [same]
      rfl
    · rfl
  have extends' : Extends d (d.setEdge n i e) := ⟨Nat.le_of_eq size.symm, fun k _ => configs k⟩
  refine ⟨⟨?_, ?_, ?_⟩, extends'⟩
  · intro k bound
    rw [size] at bound
    have isSound := sound.states k bound
    rw [state_setEdge inside]
    split
    · rename_i same
      subst same
      exact ⟨isSound.threads, isSound.sorted, isSound.ordered, isSound.identity, isSound.accepts,
        isSound.prediction⟩
    · exact isSound
  · intro k bound j e' found
    rw [size] at bound
    rw [configs]
    refine LeadsTo.extend ?_ extends'
    rw [state_setEdge inside] at found
    split at found
    · rename_i same
      subst same
      rcases edge?_setEdge found with old | ⟨rfl, rfl⟩
      · exact sound.edges k bound j e' old
      · exact leads
    · exact sound.edges k bound j e' found
  · intro k isStart
    obtain ⟨bound, holds⟩ := sound.start k isStart
    rw [size, configs]
    exact ⟨bound, holds⟩

theorem Sound.setStart {d : Dfa} (sound : Sound net g mode d) {n : Nat} (inside : n < d.states.size)
    (holds : ∀ alt θ, (d.state n).configs.Holds alt θ ↔ Live net g mode [] alt θ) :
    Sound net g mode (d.setStart n).2 ∧ Extends d (d.setStart n).2 ∧
      (d.setStart n).2.start = some (d.setStart n).1 := by
  unfold Dfa.setStart
  cases isStart : d.start with
  | some m => exact ⟨sound, Extends.refl d, isStart⟩
  | none =>
    refine ⟨⟨sound.states, sound.edges, ?_⟩, ⟨Nat.le_refl _, fun _ _ => rfl⟩, rfl⟩
    intro m same
    cases same
    exact ⟨inside, holds⟩

/-! ## Caches -/

/-- All automata of the cache are sound. -/
structure CacheSound (net : Network) (g : Grammar) (cache : DfaCache) : Prop where
  size : cache.dfas.size = net.modeStarts.size
  sound : ∀ mode < net.modeStarts.size, Sound net g mode (cache.dfa mode)

theorem cacheSound_fresh (lexer : net.isLexer = true) :
    CacheSound net g (DfaCache.ofNetwork net) := by
  refine ⟨by simp [DfaCache.ofNetwork, lexer], fun mode inside => ?_⟩
  have fresh : ((DfaCache.ofNetwork net).dfa mode).states = #[] ∧
      ((DfaCache.ofNetwork net).dfa mode).start = none := by
    simp [DfaCache.ofNetwork, DfaCache.dfa, lexer, inside]
  refine ⟨fun n bound => ?_, fun n bound => ?_, fun n isStart => ?_⟩
  · simp [fresh.1] at bound
  · simp [fresh.1] at bound
  · rw [fresh.2] at isStart
    cases isStart

/-- Another automaton for one mode. -/
theorem CacheSound.change {cache cache' : DfaCache} (sound : CacheSound net g cache)
    (size : cache'.dfas.size = cache.dfas.size)
    (others : ∀ k, k ≠ mode → cache'.dfa k = cache.dfa k)
    (isSound : Sound net g mode (cache'.dfa mode)) : CacheSound net g cache' := by
  refine ⟨size.trans sound.size, fun k inside => ?_⟩
  by_cases same : k = mode
  · subst same
    exact isSound
  · rw [others k same]
    exact sound.sound k inside

theorem dfa_modifyDfa {cache : DfaCache} (inside : mode < cache.dfas.size) (f : Dfa → Dfa) (k : Nat) :
    (cache.modifyDfa mode f).dfa k = if k = mode then f (cache.dfa mode) else cache.dfa k := by
  simp only [DfaCache.dfa, DfaCache.modifyDfa, Array.getD_eq_getD_getElem?, Array.getElem?_modify]
  by_cases same : k = mode
  · subst same
    simp [inside]
  · simp [same, Ne.symm same]

theorem dfa_addState {cache : DfaCache} (inside : mode < cache.dfas.size) (s : DfaState) (k : Nat) :
    (cache.addState mode s).2.dfa k =
      if k = mode then ((cache.dfa mode).addState s cache.contexts).2.1 else cache.dfa k := by
  have dfas : (cache.addState mode s).2.dfas =
      cache.dfas.setIfInBounds mode ((cache.dfa mode).addState s cache.contexts).2.1 := rfl
  rw [DfaCache.dfa, dfas, Array.getD_eq_getD_getElem?]
  by_cases same : k = mode
  · subst same
    simp [inside]
  · rw [Array.getElem?_setIfInBounds_ne (Ne.symm same), if_neg same, DfaCache.dfa,
      Array.getD_eq_getD_getElem?]

end Lexer

end AdaptiveLL
