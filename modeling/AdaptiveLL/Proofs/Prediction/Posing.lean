import AdaptiveLL.Proofs.Prediction.Gathering
import AdaptiveLL.Proofs.Prediction.Labels
import AdaptiveLL.Proofs.Prediction.Modes

/-!
# The sets by which a decision is made

A simulation collects configurations of the alternatives of the decision, and marks the set when one of them is
guarded (`Collected`). A set that is registered may also say which alternative all its configurations share, and
it says so rightly (`Posed`).

So in every automaton that predictions of a parser have made each state poses the decision, and one that accepts
has configurations (`Underway.poses`). This goes from step to step: only two steps register a state, the one that
finds where the decision begins and the one that finds where a token leads.
-/

set_option autoImplicit false

namespace AdaptiveLL

open Session Prediction

variable {net : Network} {decision count : Nat} {configs : ConfigSet}

namespace Prediction

variable {η : Type} {env : Env η}

/-! ## Sets of configurations -/

/-- A set of configurations as the simulation builds it: its alternatives are those of the decision, it is marked if
one of them is guarded, and it is not known yet whether they share an alternative. -/
structure Collected (count : Nat) (configs : ConfigSet) : Prop where
  numbered : ∀ c ∈ configs.configs, 1 ≤ c.alt ∧ c.alt ≤ count
  marked : configs.hasGuards = false → ∀ c ∈ configs.configs, c.guard = .always
  undecided : configs.uniqueAlt = invalidAlt

/-- A set of configurations that may also know the alternative which they share. -/
structure Posed (count : Nat) (configs : ConfigSet) : Prop where
  numbered : ∀ c ∈ configs.configs, 1 ≤ c.alt ∧ c.alt ≤ count
  marked : configs.hasGuards = false → ∀ c ∈ configs.configs, c.guard = .always
  decided : configs.uniqueAlt ≠ invalidAlt → ∀ c ∈ configs.configs, c.alt = configs.uniqueAlt

theorem Collected.posed (collected : Collected count configs) : Posed count configs :=
  ⟨collected.numbered, collected.marked, fun decided => absurd collected.undecided decided⟩

theorem collected_ofParser (full : Bool) : Collected count (.ofParser full) := by
  constructor <;> simp [ConfigSet.ofParser, invalidAlt]

/-- Only the noted guards say whether a set is marked. -/
theorem Collected.insertMemo (collected : Collected count configs) {c : Config} (known : 1 ≤ c.alt ∧ c.alt ≤ count)
    (memo : Context.Memo) : Collected count (configs.insertMemo c memo).1 := by
  -- Every configuration has the alternative and the guard of one that was there, or those of the new one.
  have settle (s : ConfigSet) (marks : s.hasGuards = (configs.hasGuards || !c.guard.isAlways))
      (undecided : s.uniqueAlt = configs.uniqueAlt)
      (from' : ∀ d ∈ s.configs, ∃ d' ∈ configs.configs.push c, d.alt = d'.alt ∧ d.guard = d'.guard) :
      Collected count s := by
    refine ⟨fun d member => ?_, fun unmarked d member => ?_, undecided.trans collected.undecided⟩
    · obtain ⟨d', among, same, -⟩ := from' d member
      rw [same]
      exact (Array.mem_push.1 among).elim (collected.numbered d') (· ▸ known)
    · rw [marks, Bool.or_eq_false_iff] at unmarked
      obtain ⟨d', among, -, same⟩ := from' d member
      rw [same]
      rcases Array.mem_push.1 among with old | rfl
      · exact collected.marked unmarked.1 d' old
      · exact (Guard.eq_always_or_open d'.guard).resolve_right fun open' => by simp [open'] at unmarked
  have pushed : ∀ d ∈ configs.configs.push c, ∃ d' ∈ configs.configs.push c, d.alt = d'.alt ∧ d.guard = d'.guard :=
    fun d member => ⟨d, member, rfl, rfl⟩
  unfold ConfigSet.insertMemo
  dsimp only
  split
  · unfold ConfigSet.insertOrdered
    split
    · exact settle _ rfl rfl fun d member => pushed d (Array.mem_push.2 (.inl member))
    · exact settle _ rfl rfl pushed
  · split
    · refine settle _ rfl rfl fun d member => ?_
      obtain ⟨k, found⟩ := Array.mem_iff_getElem?.1 member
      unfold ConfigSet.absorbAt at found
      rw [Array.getElem?_modify] at found
      split at found
      · obtain ⟨d', here, rfl⟩ := Option.map_eq_some_iff.1 found
        exact ⟨d', Array.mem_push.2 (.inl (Array.mem_of_getElem? here)), rfl, rfl⟩
      · exact pushed d (Array.mem_push.2 (.inl (Array.mem_of_getElem? found)))
    · exact settle _ rfl rfl pushed

theorem upholds_collected {full : Bool} :
    Upholds env full (fun c => 1 ≤ c.alt ∧ c.alt ≤ count) (fun c => 1 ≤ c.alt ∧ c.alt ≤ count)
      fun s (_ : Scratch η) => Collected count s where
  empty _ := collected_ofParser full
  emptied {s _} _ := collected_ofParser s.fullContext
  insert collected known := collected.insertMemo known _
  share _ collected := collected
  asked _ collected := collected
  resolved _ collected := collected
  dips collected := ⟨collected.numbered, collected.marked, collected.undecided⟩
  mem collected member := collected.numbered _ member
  opened known := known
  rested known _ := known
  carried known _ _ _ := known
  moved known _ _ _ := known
  called known _ _ _ := known
  guarded _ known _ _ := known
  left _ _ known := known
  returned known _ _ := known
  ended known _ _ := known

/-- No configuration is lost when the contexts are kept. -/
theorem size_intern (s : ConfigSet) (table : Context.Table) : (s.intern table).1.configs.size = s.configs.size := by
  have folded (cs : List Config) (acc : Array Config × Context.Table) :
      (cs.foldl (fun (acc : Array Config × Context.Table) c =>
        (acc.1.push { c with context := (Context.Table.intern c.context acc.2).1 },
          (Context.Table.intern c.context acc.2).2)) acc).1.size = acc.1.size + cs.length := by
    induction cs generalizing acc with
    | nil => rfl
    | cons c cs ih =>
      rw [List.foldl_cons, ih, Array.size_push, List.length_cons]
      omega
  unfold ConfigSet.intern
  rw [← Array.foldl_toList]
  exact (folded s.configs.toList (#[], table)).trans (by simp)

/-- The kept contexts do not change the alternatives and the guards. -/
theorem Posed.intern (posed : Posed count configs) (table : Context.Table) : Posed count (configs.intern table).1 := by
  let I (alt : Nat) (guard : Guard) : Prop := ∃ c ∈ configs.configs, c.alt = alt ∧ c.guard = guard
  have plain : ({ configs with hasGuards := false } : ConfigSet).Within I :=
    ⟨fun c member => ⟨c, member, rfl, rfl⟩, fun absurd => by cases absurd⟩
  have from' : ∀ d ∈ (configs.intern table).1.configs, I d.alt d.guard := (plain.intern table).configs
  refine ⟨fun d member => ?_, fun unmarked d member => ?_, fun decided d member => ?_⟩
  · obtain ⟨c, among, same, -⟩ := from' d member
    exact same ▸ posed.numbered c among
  · obtain ⟨c, among, -, same⟩ := from' d member
    exact same ▸ posed.marked unmarked c among
  · obtain ⟨c, among, same, -⟩ := from' d member
    exact same ▸ posed.decided decided c among

/-- The state of a set says rightly which alternative is shared. -/
theorem Posed.stateOf (posed : Posed count configs) (net : Network) (mode : PredictionMode) (count' width : Nat) :
    Posed count (stateOf net mode count' width configs).configs := by
  unfold Prediction.stateOf
  dsimp only
  rw [(Simulator.guardState_keeps count' _).1]
  split
  · rename_i shared
    have valid : ∀ c ∈ configs.configs.toList, 1 ≤ c.alt := fun c member =>
      (posed.numbered c (Array.mem_toList_iff.1 member)).1
    have same := ((ConfigSet.sharedAlt_eq_iff valid shared).1 rfl).2
    exact ⟨posed.numbered, posed.marked, fun _ c member => same c (Array.mem_toList_iff.2 member)⟩
  · split
    · exact ⟨posed.numbered, posed.marked, posed.decided⟩
    · exact posed

end Prediction

/-! ## Automata -/

/-- The state poses the decision, and it has configurations if it accepts. -/
structure DfaState.Poses (count : Nat) (t : DfaState) : Prop where
  posed : Posed count t.configs
  nonempty : t.accepts = true → 0 < t.configs.configs.size

/-- The automaton begins where the decision does, and each of its states poses the decision. -/
structure Dfa.Poses (net : Network) (decision : Nat) (d : Dfa) : Prop where
  begins : d.networkState = net.decisions.getD decision 0
  states : ∀ t ∈ d.states, t.Poses (net.choices decision)

namespace Dfa

variable {d d' : Dfa} {t : DfaState}

theorem Poses.of_states (poses : d.Poses net decision) (states : d'.states = d.states)
    (begins : d'.networkState = d.networkState) : d'.Poses net decision :=
  ⟨begins.trans poses.begins, states ▸ poses.states⟩

theorem Poses.state (poses : d.Poses net decision) (n : Nat) : Posed (net.choices decision) (d.state n).configs := by
  rw [Dfa.state, Array.getD_eq_getD_getElem?]
  cases found : d.states[n]? with
  | none => exact (collected_ofParser false).posed
  | some t => exact (poses.states t (Array.mem_of_getElem? found)).posed

theorem Poses.setEdge (poses : d.Poses net decision) (n i : Nat) (e : DfaEdge) :
    (d.setEdge n i e).Poses net decision := by
  refine ⟨poses.begins, fun t member => ?_⟩
  rcases mem_setEdge member with old | ⟨t, before, rfl⟩
  · exact poses.states t old
  · have known := poses.states t (Array.mem_of_getElem? before)
    exact ⟨known.posed, known.nonempty⟩

theorem Poses.addState (poses : d.Poses net decision) (new : t.Poses (net.choices decision)) (table : Context.Table) :
    (d.addState t table).2.1.Poses net decision := by
  rcases d.addState_cases t table with same | ⟨-, pushed⟩
  · rw [same]
    exact poses
  · rw [pushed]
    refine ⟨poses.begins, fun s member => ?_⟩
    rcases Array.mem_push.1 member with old | rfl
    · exact poses.states s old
    · exact ⟨new.posed.intern table, fun accepts => (size_intern t.configs table).symm ▸ new.nonempty accepts⟩

theorem Poses.setStart (poses : d.Poses net decision) (n : Nat) : (d.setStart n).2.Poses net decision := by
  unfold Dfa.setStart
  split <;> exact poses.of_states rfl rfl

theorem Poses.setPrecedenceStart (poses : d.Poses net decision) (p : Int) (n : Nat) :
    (d.setPrecedenceStart p n).2.Poses net decision := by
  unfold Dfa.setPrecedenceStart
  split <;> exact poses.of_states rfl rfl

end Dfa

/-- Every automaton of the cache begins where its decision does, and its states pose the decision. -/
def DfaCache.Poses (net : Network) (cache : DfaCache) : Prop := ∀ i, (cache.dfa i).Poses net i

namespace DfaCache

variable {cache : DfaCache}

theorem poses_fresh (parser : net.isLexer = false) : (ofNetwork net).Poses net := by
  intro i
  refine ⟨?_, fun t member => ?_⟩
  · rw [dfa, ofNetwork, parser, if_neg Bool.false_ne_true, Array.getD_eq_getD_getElem?, Array.getElem?_mapIdx,
      Array.getD_eq_getD_getElem?]
    cases net.decisions[i]? <;> rfl
  · rw [states_fresh] at member
    cases Array.not_mem_empty t member

theorem Poses.modifyDfa (poses : cache.Poses net) (i : Nat) {f : Dfa → Dfa}
    (kept : (cache.dfa i).Poses net i → (f (cache.dfa i)).Poses net i) : (cache.modifyDfa i f).Poses net := by
  intro k
  rcases dfa_modifyDfa_cases cache i f with same | changed
  · rw [same]
    exact poses k
  · rw [changed]
    split
    · rename_i here
      exact here ▸ kept (poses i)
    · exact poses k

theorem Poses.addState (poses : cache.Poses net) (i : Nat) {t : DfaState} (new : t.Poses (net.choices i)) :
    (cache.addState i t).2.Poses net := by
  intro k
  rcases dfa_addState_cases cache i t with ⟨-, same⟩ | changed
  · rw [same]
    exact poses k
  · rw [changed]
    split
    · rename_i here
      exact here ▸ (poses i).addState new _
    · exact poses k

end DfaCache

namespace Simulator

variable {η : Type} {env : Env η} {s s' : Simulator η}

/-! ## Steps of predictions -/

/-- What a step finds is collected, and it is not empty. -/
theorem reachSet_collected (posed : Posed count configs) (symbol : Int) (full : Bool) (w : Scratch η) :
    Leaves (reachSet env configs symbol full) w fun result _ => ∀ reach, result = some reach →
      Collected count reach ∧ 0 < reach.configs.size := by
  -- A step does not ask for the alternative that is shared before.
  have same : (reachSet env configs symbol full : ScratchM η _) =
      reachSet env { configs with uniqueAlt := invalidAlt } symbol full := rfl
  have collected : Collected count { configs with uniqueAlt := invalidAlt } := ⟨posed.numbered, posed.marked, rfl⟩
  rw [same]
  refine (reachSet_upholds upholds_collected collected).imp ?_
  rintro result w' ⟨-, found⟩ reach isReach
  obtain ⟨collected', nonempty⟩ := found reach isReach
  refine ⟨collected', Nat.pos_of_ne_zero fun none' => ?_⟩
  rw [ConfigSet.isEmpty, Array.isEmpty, none'] at nonempty
  cases nonempty

theorem startState_poses (poses : s.cache.Poses env.net) (precedence : Int)
    (begins : env.startState = env.net.decisions.getD env.decision 0) :
    Leads (startState env precedence) s fun _ s' => s'.cache.Poses env.net := by
  -- A set that was collected is registered, and it becomes one with which the decision begins.
  have registered (configs : ConfigSet) (width : Nat) (f : Dfa → Nat → Nat × Dfa) {s : Simulator η}
      (poses : s.cache.Poses env.net) (collected : Collected (env.net.choices env.decision) configs)
      (kept : ∀ (d : Dfa) n, d.Poses env.net env.decision → (f d n).2.Poses env.net env.decision) :
      Leads (do
        let n ← register env.decision (.ofConfigs configs width)
        let started := f (← dfa env.decision) n
        modifyDfa env.decision fun _ => started.2
        return started.1) s fun _ s' => s'.cache.Poses env.net := by
    have new : (DfaState.ofConfigs configs width).Poses (env.net.choices env.decision) :=
      ⟨collected.posed, fun accepts => by cases accepts⟩
    refine Leads.bind (P := fun _ s' => s'.cache.Poses env.net) (.of_modifyGet (poses.addState env.decision new)) ?_
    intro n s₁ poses₁
    exact .get_bind (.modify_bind (.pure (poses₁.modifyDfa env.decision (kept _ n))))
  have starts (w : Scratch η) : Leaves (startSet env .empty false) w fun configs _ =>
      Collected (env.net.choices env.decision) configs := by
    refine startSet_upholds upholds_collected (collected_ofParser false) fun i t found => ?_
    obtain ⟨inside, -⟩ := List.getElem?_eq_some_iff.1 found
    rw [begins] at inside
    exact ⟨Nat.succ_le_succ (Nat.zero_le i), inside⟩
  refine .get_bind ?_
  dsimp only
  split
  · exact .pure poses
  · refine (onConfigs_leads (starts _)).bind fun configs s₁ known => ?_
    obtain ⟨w₁, same₁, collected⟩ := known
    have poses₁ : s₁.cache.Poses env.net := same₁ ▸ poses
    split
    · have resolves : Resolves env fun c => 1 ≤ c.alt ∧ c.alt ≤ env.net.choices env.decision :=
        fun _ known _ _ _ => known
      have upholds : Upholds env false _ _ fun s (_ : Scratch η) => Collected (env.net.choices env.decision) s :=
        upholds_collected
      refine (onConfigs_leads (precedenceFilter_upholds upholds resolves collected)).bind fun configs' s₂ known => ?_
      obtain ⟨w₂, same₂, collected'⟩ := known
      exact registered configs' _ (fun d n => d.setPrecedenceStart precedence n) (same₂ ▸ poses₁) collected'
        fun d n poses => poses.setPrecedenceStart precedence n
    · exact registered configs _ (fun d n => d.setStart n) poses₁ collected fun d n poses => poses.setStart n

theorem computeTarget_poses (poses : s.cache.Poses env.net) (n : Nat) (symbol : Int) :
    Leads (computeTarget env n symbol) s fun _ s' => s'.cache.Poses env.net := by
  have recorded {s : Simulator η} (poses : s.cache.Poses env.net) (e : DfaEdge) :
      Leads (recordEdge env n symbol e) s fun _ s' => s'.cache.Poses env.net := by
    unfold recordEdge
    split
    · exact .of_modify (poses.modifyDfa env.decision fun poses => poses.setEdge n _ e)
    · exact .pure poses
  refine .get_bind ?_
  refine (onConfigs_leads (reachSet_collected ((poses env.decision).state n) symbol false _)).bind
    fun result s₁ known => ?_
  obtain ⟨w, same, found⟩ := known
  have poses₁ : s₁.cache.Poses env.net := same ▸ poses
  cases result with
  | none => exact (recorded poses₁ .dead).bind fun _ _ poses₂ => .pure poses₂
  | some reach =>
    obtain ⟨collected, nonempty⟩ := found reach rfl
    refine .get_bind ?_
    have new (mode : PredictionMode) (width : Nat) :
        (stateOf env.net mode (env.net.choices env.decision) width reach).Poses (env.net.choices env.decision) :=
      ⟨collected.posed.stateOf env.net mode _ width,
        fun _ => (stateOf_spec env.net mode _ width reach).1.symm ▸ nonempty⟩
    refine Leads.bind (P := fun _ s' => s'.cache.Poses env.net) (.of_modifyGet (poses₁.addState env.decision (new _ _)))
      fun m s₂ poses₂ => ?_
    exact (recorded poses₂ (.target m)).bind fun _ _ poses₃ => .pure poses₃

theorem target_poses (poses : s.cache.Poses env.net) (n : Nat) (symbol : Int) :
    Leads (target env n symbol) s fun _ s' => s'.cache.Poses env.net := by
  refine .get_bind ?_
  split
  · exact .modify_bind (.pure poses)
  · refine .modify_bind (computeTarget_poses ?_ n symbol)
    exact poses

/-! ## Predictions -/

theorem runLocal_poses (poses : s.cache.Poses env.net) (start : Nat) (outer : Context) (rounds n : Nat) (symbol : Int) :
    Leads (runLocal env start outer rounds n symbol) s fun _ s' => s'.cache.Poses env.net := by
  -- What comes behind the local part only reads the cache.
  have reading {α : Type} {x : PredictM η α} (reads : Reading x) {s : Simulator η} (poses : s.cache.Poses env.net) :
      Leads x s fun _ s' => s'.cache.Poses env.net := (reads s).imp fun _ _ same => same ▸ poses
  induction rounds generalizing n symbol s with
  | zero => exact .of_failure
  | succ rounds ih =>
    refine (target_poses poses n symbol).bind fun edge s₁ poses₁ => ?_
    split
    · exact .get_bind (reading (failOrFallback_reading _ _) poses₁)
    · refine .get_bind (.get_bind ?_)
      split
      · exact reading (settleConflict_reading _ _ _) poses₁
      · split
        · exact reading (accept_reading _ _) poses₁
        · split
          · exact (reading (.onStream _) poses₁).bind fun _ s₂ poses₂ =>
              (reading (.onStream _) poses₂).bind fun next s₃ poses₃ => ih poses₃ _ next
          · exact ih poses₁ _ symbol

theorem predict_poses {fuel : Nat} {evaluator : Guard.Evaluator η} {callStack : List Nat} {precedence : Int}
    (poses : s.cache.Poses net) :
    Leads (predict net fuel evaluator decision callStack precedence) s fun _ s' => s'.cache.Poses net := by
  refine .modify_bind (.get_bind (.get_bind (.modify_bind ?_)))
  let env : Env η := { net, decision, evaluator, fuel, startState := (s.cache.dfa decision).networkState
                       precedenceLoop := (s.cache.dfa decision).precedence }
  let begun : Simulator η := { s with stats := { s.stats with predictions := s.stats.predictions + 1 }, merges := {} }
  have started : Leads (startState env precedence) begun fun _ s' => s'.cache.Poses net :=
    startState_poses poses precedence (poses decision).begins
  refine started.bind fun n s₁ poses₁ => (Reading.onStream _ s₁).bind fun symbol s₂ same => ?_
  have found (start : Nat) (outer : Context) : Leads (runLocal env start outer fuel n symbol) s₂ fun _ s' =>
      s'.cache.Poses net := runLocal_poses (same ▸ poses₁) start outer fuel n symbol
  exact (found _ _).bind fun result s₃ poses₃ => (Reading.onStream _ s₃).bind fun _ _ same => .pure (same ▸ poses₃)

end Simulator

/-- In every automaton that predictions of a parser have made the states pose the decision. -/
theorem DfaCache.Learned.poses {cache : DfaCache} (parser : net.isLexer = false) (learned : Learned net cache) :
    cache.Poses net := by
  induction learned with
  | fresh => exact poses_fresh parser
  | predicted _ ran poses => exact Simulator.predict_poses poses _ _ _ _ ran

/-- So it is while a prediction finds its way through them, too. -/
theorem Simulator.Underway.poses {η : Type} {env : Env η} {s : Simulator η} (parser : env.net.isLexer = false)
    (underway : Underway env s) : s.cache.Poses env.net := by
  -- The prediction begins where its decision does.
  have both : env.startState = env.net.decisions.getD env.decision 0 ∧ s.cache.Poses env.net := by
    induction underway with
    | begun learned start loop merges =>
      have poses := learned.poses parser
      exact ⟨start.symm.trans (poses env.decision).begins, poses⟩
    | started _ ran known => exact ⟨known.1, startState_poses known.2 _ known.1 _ _ _ _ ran⟩
    | followed _ ran known => exact ⟨known.1, target_poses known.2 _ _ _ _ _ _ ran⟩
    | moved _ ran known => exact ⟨known.1, (Reading.onStream _ _ _ _ _ _ ran : _ = _) ▸ known.2⟩
  exact both.2

end AdaptiveLL
