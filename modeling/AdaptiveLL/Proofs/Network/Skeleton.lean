import AdaptiveLL.Network.Encode
import AdaptiveLL.Proofs.Network.Edges
import AdaptiveLL.Proofs.Network.Reading
import AdaptiveLL.Proofs.Symbols.Canonical

/-!
# Skeletons of networks

The words of a network leave out the links between states that follow from others, the decisions of
the states and the transitions back from calls; the reader derives them. The skeleton of a network is
what is left of it then. Every step by which the reader derives something keeps the skeleton of the
states (`SameBare`).
-/

set_option autoImplicit false

namespace AdaptiveLL

/-! ## Bare states -/

/-- The kind without the links and the mark that the reader derives. -/
def StateKind.bare : StateKind → StateKind
  | .ruleStart _ leftRecursive => .ruleStart none leftRecursive
  | .blockEnd _ => .blockEnd none
  | .starLoopEntry _ _ => .starLoopEntry none false
  | kind => kind

namespace StateKind

@[simp]
theorem bare_bare (k : StateKind) : k.bare.bare = k.bare := by cases k <;> rfl

@[simp]
theorem bare_isRuleStart (k : StateKind) : k.bare.isRuleStart = k.isRuleStart := by cases k <;> rfl

@[simp]
theorem bare_isRuleStop (k : StateKind) : k.bare.isRuleStop = k.isRuleStop := by cases k <;> rfl

@[simp]
theorem bare_isDecision (k : StateKind) : k.bare.isDecision = k.isDecision := by cases k <;> rfl

@[simp]
theorem bare_isLeftRecursiveStart (k : StateKind) :
    k.bare.isLeftRecursiveStart = k.isLeftRecursiveStart := by
  cases k with
  | ruleStart stop leftRecursive => cases leftRecursive <;> rfl
  | _ => rfl

@[simp]
theorem bare_eq_tokenStart (k : StateKind) : k.bare = .tokenStart ↔ k = .tokenStart := by
  cases k <;> simp [bare]

@[simp]
theorem bare_eq_invalid (k : StateKind) : k.bare = .invalid ↔ k = .invalid := by
  cases k <;> simp [bare]

@[simp]
theorem bare_blockLink (k : StateKind) : Decode.blockLink? k.bare = Decode.blockLink? k := by
  cases k <;> rfl

@[simp]
theorem bare_loopLink (k : StateKind) : Decode.loopLink? k.bare = Decode.loopLink? k := by
  cases k <;> rfl

end StateKind

/-- The state as it stands in the words, without transitions and all that the reader derives. -/
def State.bare (s : State) : State :=
  { number := s.number, rule := s.rule, kind := s.kind.bare, nonGreedy := s.nonGreedy }

@[simp]
theorem State.bare_bare (s : State) : s.bare.bare = s.bare := by
  simp [State.bare]

namespace Network

/-- The networks have the same bare states. -/
def SameBare (net net' : Network) : Prop := net'.states.map State.bare = net.states.map State.bare

variable {net net' net'' : Network}

theorem SameBare.size (same : SameBare net net') : net'.states.size = net.states.size := by
  have sizes := congrArg Array.size same
  simpa using sizes

theorem SameBare.state (same : SameBare net net') (n : Nat) :
    (net'.state n).bare = (net.state n).bare := by
  rcases Nat.lt_or_ge n net.states.size with inside | outside
  · have inside' : n < net'.states.size := by rwa [same.size]
    have at' : (net'.states.map State.bare)[n]? = (net.states.map State.bare)[n]? :=
      congrArg (·[n]?) same
    rw [Array.getElem?_map, Array.getElem?_map, Array.getElem?_eq_getElem inside,
      Array.getElem?_eq_getElem inside'] at at'
    rw [state_of_lt inside, state_of_lt inside']
    exact Option.some.inj at'
  · rw [state_of_le outside, state_of_le (by rwa [same.size])]

theorem SameBare.kind (same : SameBare net net') (n : Nat) :
    (net'.state n).kind.bare = (net.state n).kind.bare :=
  congrArg State.kind (same.state n)

theorem SameBare.number (same : SameBare net net') (n : Nat) :
    (net'.state n).number = (net.state n).number :=
  show (net'.state n).bare.number = (net.state n).bare.number by rw [same.state n]

theorem SameBare.rule (same : SameBare net net') (n : Nat) :
    (net'.state n).rule = (net.state n).rule :=
  show (net'.state n).bare.rule = (net.state n).bare.rule by rw [same.state n]

theorem SameBare.nonGreedy (same : SameBare net net') (n : Nat) :
    (net'.state n).nonGreedy = (net.state n).nonGreedy :=
  show (net'.state n).bare.nonGreedy = (net.state n).bare.nonGreedy by rw [same.state n]

theorem SameBare.trans (first : SameBare net net') (second : SameBare net' net'') :
    SameBare net net'' := Eq.trans second first

theorem SameBare.isRuleStart (same : SameBare net net') (n : Nat) :
    (net'.state n).kind.isRuleStart = (net.state n).kind.isRuleStart := by
  rw [← StateKind.bare_isRuleStart, same.kind, StateKind.bare_isRuleStart]

theorem SameBare.isRuleStop (same : SameBare net net') (n : Nat) :
    (net'.state n).kind.isRuleStop = (net.state n).kind.isRuleStop := by
  rw [← StateKind.bare_isRuleStop, same.kind, StateKind.bare_isRuleStop]

theorem SameBare.isDecision (same : SameBare net net') (n : Nat) :
    (net'.state n).kind.isDecision = (net.state n).kind.isDecision := by
  rw [← StateKind.bare_isDecision, same.kind, StateKind.bare_isDecision]

theorem SameBare.isLeftRecursiveStart (same : SameBare net net') (n : Nat) :
    (net'.state n).kind.isLeftRecursiveStart = (net.state n).kind.isLeftRecursiveStart := by
  rw [← StateKind.bare_isLeftRecursiveStart, same.kind, StateKind.bare_isLeftRecursiveStart]

/-- A change of one state that shows nowhere in its bare state. -/
theorem sameBare_modifyAt (net : Network) (m : Nat) (f : State → State)
    (keeps : (f (net.state m)).bare = (net.state m).bare) : SameBare net (net.modifyState m f) := by
  refine Array.ext (by simp) fun n inside bound => ?_
  have inside' : n < net.states.size := by simpa using bound
  have kept := net.modifyState_keeps_at m f State.bare keeps n
  rw [state_of_lt (by simpa using inside'), state_of_lt inside'] at kept
  simpa using kept

theorem sameBare_modify (net : Network) (m : Nat) (f : State → State)
    (keeps : ∀ s, (f s).bare = s.bare) : SameBare net (net.modifyState m f) :=
  sameBare_modifyAt net m f (keeps _)

theorem sameBare_mapStates (net : Network) (f : State → State) (keeps : ∀ s, (f s).bare = s.bare) :
    SameBare net { net with states := net.states.map f } := by
  simp [SameBare, Function.comp_def, keeps]

theorem sameBare_addEdges (net : Network) (edges : List (Nat × Transition)) :
    SameBare net (net.addEdges edges) := by
  induction edges generalizing net with
  | nil => rfl
  | cons e edges ih =>
    exact (sameBare_modify net e.1 (·.addTransition e.2) fun _ => rfl).trans (ih _)

theorem sameBare_defineDecisions (net : Network) (ns : List Nat) :
    SameBare net (ns.foldl (fun net n => (net.defineDecision n).2) net) := by
  induction ns generalizing net with
  | nil => rfl
  | cons n ns ih =>
    exact (sameBare_modify net n ({ · with decision := some net.decisions.size }) fun _ => rfl).trans
      (ih _)

theorem sameBare_enterStop {n : Nat} (run : Decode.enterStop net n = .ok net') :
    SameBare net net' := by
  unfold Decode.enterStop at run
  split at run
  · split at run
    · cases run
    · split at run
      · cases run
        refine sameBare_modify net _ (Decode.linkStop n) fun s => ?_
        unfold Decode.linkStop
        split <;> simp_all [State.bare, StateKind.bare]
      · cases run
  · cases run
    rfl

theorem sameBare_enterStops {ns : List Nat} (run : ns.foldlM Decode.enterStop net = .ok net') :
    SameBare net net' :=
  foldlM_preserves ns (P := SameBare net) rfl (fun _ _ _ inv ran => inv.trans (sameBare_enterStop ran))
    run

theorem sameBare_linkLoopEntries (net : Network) (n : Nat) (ts : List Transition) : SameBare net
    (ts.foldl (fun net t => net.modifyState t.target (Decode.linkLoopEntry n)) net) := by
  have keeps (s : State) : (Decode.linkLoopEntry n s).bare = s.bare := by
    unfold Decode.linkLoopEntry
    split <;> simp_all [State.bare, StateKind.bare]
  induction ts generalizing net with
  | nil => rfl
  | cons t ts ih => exact (sameBare_modify net t.target _ keeps).trans (ih _)

theorem sameBare_linkBlock {n : Nat} (run : Decode.linkBlock net n = .ok net') :
    SameBare net net' := by
  unfold Decode.linkBlock at run
  split at run
  · split at run
    · rename_i isEnd
      cases run
      exact sameBare_modifyAt net _ _ (by simp [State.bare, isEnd, StateKind.bare])
    · cases run
    · cases run
  · cases run
    exact sameBare_linkLoopEntries net n _
  · cases run
    rfl

theorem sameBare_linkBlocks (run : Decode.linkBlocks net = .ok net') : SameBare net net' :=
  foldlM_preserves _ (P := SameBare net) rfl (fun _ _ _ inv ran => inv.trans (sameBare_linkBlock ran))
    run

theorem bare_markPrecedence (net : Network) (s : State) : (Decode.markPrecedence net s).bare = s.bare := by
  unfold Decode.markPrecedence
  split
  · split <;> simp_all [State.bare, StateKind.bare]
  · rfl

theorem sameBare_mark (net : Network) : SameBare net (Decode.mark net) :=
  (sameBare_mapStates net State.refresh fun _ => rfl).trans
    (sameBare_mapStates _ (Decode.markPrecedence _) (bare_markPrecedence _))

/-! ## Transitions that are kept -/

theorem out_enterStop {n m : Nat} (run : Decode.enterStop net n = .ok net') : net'.out m = net.out m := by
  unfold Decode.enterStop at run
  split at run
  · split at run
    · cases run
    · rename_i r _
      split at run
      · cases run
        have keeps (s : State) : (Decode.linkStop n s).transitions = s.transitions := by
          unfold Decode.linkStop
          split <;> rfl
        exact modifyState_out_of_keeps net (net.ruleStart r) (Decode.linkStop n) keeps m
      · cases run
  · cases run
    rfl

theorem out_enterStops {ns : List Nat} (run : ns.foldlM Decode.enterStop net = .ok net') (m : Nat) :
    net'.out m = net.out m :=
  foldlM_preserves ns (P := fun net' => net'.out m = net.out m) rfl
    (fun _ _ _ inv ran => (out_enterStop ran).trans inv) run

theorem linkLoopEntries_keeps (net : Network) (n : Nat) (ts : List Transition) :
    let linked := ts.foldl (fun net t => net.modifyState t.target (Decode.linkLoopEntry n)) net
    linked = { net with states := linked.states } ∧ ∀ m, linked.out m = net.out m := by
  induction ts generalizing net with
  | nil => exact ⟨rfl, fun _ => rfl⟩
  | cons t ts ih =>
    have keeps (s : State) : (Decode.linkLoopEntry n s).transitions = s.transitions := by
      unfold Decode.linkLoopEntry
      split <;> rfl
    obtain ⟨tables, out⟩ := ih (net.modifyState t.target (Decode.linkLoopEntry n))
    exact ⟨tables, fun m => (out m).trans (modifyState_out_of_keeps net t.target _ keeps m)⟩

/-- Blocks and loops are linked by changes of states alone, and these keep the transitions. -/
theorem linkBlock_keeps {n : Nat} (run : Decode.linkBlock net n = .ok net') :
    net' = { net with states := net'.states } ∧ ∀ m, net'.out m = net.out m := by
  unfold Decode.linkBlock at run
  split at run
  · split at run
    · cases run
      exact ⟨rfl, modifyState_out_of_keeps net _ ({ · with kind := .blockEnd (some n) }) fun _ => rfl⟩
    · cases run
    · cases run
  · cases run
    exact linkLoopEntries_keeps net n _
  · cases run
    exact ⟨rfl, fun _ => rfl⟩

theorem linkBlocks_keeps (run : Decode.linkBlocks net = .ok net') :
    net' = { net with states := net'.states } ∧ ∀ m, net'.out m = net.out m := by
  refine foldlM_preserves _ (P := fun net' => net' = { net with states := net'.states } ∧
    ∀ m, net'.out m = net.out m) ⟨rfl, fun _ => rfl⟩ (fun before n after inv ran => ?_) run
  obtain ⟨tables, out⟩ := linkBlock_keeps ran
  refine ⟨?_, fun m => (out m).trans (inv.2 m)⟩
  rw [tables, inv.1]

theorem linkBlocks_eq (run : Decode.linkBlocks net = .ok net') :
    net' = { net with states := net'.states } := (linkBlocks_keeps run).1

theorem out_linkBlocks (run : Decode.linkBlocks net = .ok net') (m : Nat) : net'.out m = net.out m :=
  (linkBlocks_keeps run).2 m

theorem out_mark (net : Network) (n : Nat) : (Decode.mark net).out n = net.out n := by
  have keeps (net : Network) (s : State) :
      (Decode.markPrecedence net s).transitions = s.transitions := by
    unfold Decode.markPrecedence
    split
    · split <;> rfl
    · rfl
  exact (mapStates_keeps _ (Decode.markPrecedence _) (·.transitions) (keeps _) n).trans
    (mapStates_keeps net State.refresh (·.transitions) (fun _ => rfl) n)

/-! ## Tables that are read -/

/-- The networks have the same tables but for what is derived: the states, the stop states of the rules
and the decisions. -/
structure SameTables (net net' : Network) : Prop where
  kind : net'.kind = net.kind
  maxTokenType : net'.maxTokenType = net.maxTokenType
  ruleStarts : net'.ruleStarts = net.ruleStarts
  ruleTypes : net'.ruleTypes = net.ruleTypes
  modeStarts : net'.modeStarts = net.modeStarts
  actions : net'.actions = net.actions
  sets : net'.sets = net.sets

theorem SameTables.refl (net : Network) : SameTables net net := ⟨rfl, rfl, rfl, rfl, rfl, rfl, rfl⟩

theorem SameTables.trans (first : SameTables net net') (second : SameTables net' net'') :
    SameTables net net'' :=
  ⟨second.kind.trans first.kind, second.maxTokenType.trans first.maxTokenType,
    second.ruleStarts.trans first.ruleStarts, second.ruleTypes.trans first.ruleTypes,
    second.modeStarts.trans first.modeStarts, second.actions.trans first.actions,
    second.sets.trans first.sets⟩

theorem SameTables.eq (tables : SameTables net net') (states : net'.states = net.states)
    (decisions : net'.decisions = net.decisions) (ruleStops : net'.ruleStops = net.ruleStops) :
    net' = net := by
  obtain ⟨kind, maxTokenType, ruleStarts, ruleTypes, modeStarts, actions, sets⟩ := tables
  cases net
  cases net'
  simp_all

theorem sameTables_states (net : Network) (states : Array State) :
    SameTables net { net with states } := ⟨rfl, rfl, rfl, rfl, rfl, rfl, rfl⟩

theorem sameTables_addEdges (net : Network) (edges : List (Nat × Transition)) :
    SameTables net (net.addEdges edges) := by
  rw [net.addEdges_eq edges]
  exact sameTables_states net _

theorem sameTables_defineDecisions (net : Network) (ns : List Nat) :
    SameTables net (ns.foldl (fun net n => (net.defineDecision n).2) net) := by
  induction ns generalizing net with
  | nil => exact .refl net
  | cons n ns ih =>
    have first : SameTables net (net.defineDecision n).2 := ⟨rfl, rfl, rfl, rfl, rfl, rfl, rfl⟩
    exact first.trans (ih _)

theorem sameTables_enterStop {n : Nat} (run : Decode.enterStop net n = .ok net') :
    SameTables net net' := by
  unfold Decode.enterStop at run
  split at run
  · split at run
    · cases run
    · split at run
      · cases run
        exact ⟨rfl, rfl, rfl, rfl, rfl, rfl, rfl⟩
      · cases run
  · cases run
    exact .refl net

theorem sameTables_enterStops {ns : List Nat} (run : ns.foldlM Decode.enterStop net = .ok net') :
    SameTables net net' :=
  foldlM_preserves ns (P := SameTables net) (.refl net)
    (fun _ _ _ inv ran => inv.trans (sameTables_enterStop ran)) run

theorem sameTables_linkBlocks (run : Decode.linkBlocks net = .ok net') : SameTables net net' := by
  rw [linkBlocks_eq run]
  exact sameTables_states net _

/-- The stop states that are entered for rules are stop states. -/
theorem stops_enterStops {ns : List Nat} (run : ns.foldlM Decode.enterStop net = .ok net')
    (before : ∀ r stop, net.ruleStop? r = some stop → (net.state stop).kind.isRuleStop = true) :
    ∀ r stop, net'.ruleStop? r = some stop → (net'.state stop).kind.isRuleStop = true := by
  refine foldlM_preserves ns (P := fun net => ∀ r stop, net.ruleStop? r = some stop →
    (net.state stop).kind.isRuleStop = true) before (fun net n net' inv ran r stop entered => ?_) run
  rw [(sameBare_enterStop ran).isRuleStop]
  unfold Decode.enterStop at ran
  split at ran
  · rename_i isStop
    split at ran
    · cases ran
    · rename_i owner _
      split at ran
      · cases ran
        by_cases here : owner = r
        · subst here
          have found : stop = n := by
            simp only [ruleStop?, Array.getElem?_setIfInBounds, if_true] at entered
            split at entered
            · simpa using entered.symm
            · cases entered
          rw [found]
          exact isStop
        · refine inv r stop ?_
          simpa [ruleStop?, Array.getElem?_setIfInBounds, here] using entered
      · cases ran
  · cases ran
    exact inv r stop entered

/-! ## The skeleton and what is derived from it -/

/-- The network as it stands in the words before its modes. -/
def skeleton (net : Network) : Network :=
  { kind := net.kind, maxTokenType := net.maxTokenType, states := net.states.map State.bare
    ruleStarts := net.ruleStarts, ruleStops := Array.replicate net.numRules none
    ruleTypes := net.ruleTypes }

theorem sameBare_skeleton (net : Network) : SameBare net net.skeleton := by
  simp [SameBare, skeleton, Function.comp_def]

theorem skeleton_state (net : Network) (n : Nat) : net.skeleton.state n = (net.state n).bare := by
  rcases Nat.lt_or_ge n net.states.size with inside | outside
  · rw [state_of_lt (by simpa [skeleton] using inside), state_of_lt inside]
    simp [skeleton]
  · rw [state_of_le (by simpa [skeleton] using outside), state_of_le outside]
    rfl

theorem out_skeleton (net : Network) (n : Nat) : net.skeleton.out n = [] := by
  rw [out, skeleton_state]
  rfl

/-- The sets that transitions refer to, in the order in which they are written. -/
def referredSets (net : Network) : List SymbolSet :=
  (Encode.SetTable.collect net).narrow ++ (Encode.SetTable.collect net).wide

/-- What the reader derives from the written part of a network, up to the actions. -/
def derive (net : Network) : Except LoadError Network := do
  let stopped ← (List.range net.states.size).foldlM Decode.enterStop net.skeleton
  let tabled : Network :=
    { stopped with modeStarts := net.modeStarts, sets := net.referredSets.toArray }
  let linked ← Decode.linkBlocks
    (Decode.addReturns (tabled.addEdges (Encode.writtenTransitions net)))
  return net.decisions.toList.foldl (fun net n => (net.defineDecision n).2) linked

/-- The tables and the bare states of what is derived are those of the network. -/
theorem derive_keeps {derived : Network} (derives : net.derive = .ok derived) :
    SameBare net derived ∧ SameTables { net with actions := #[], sets := net.referredSets.toArray } derived := by
  obtain ⟨stopped, stops, rest⟩ := except_bind_ok.1 derives
  obtain ⟨linked, links, result⟩ := except_bind_ok.1 rest
  rw [← Except.ok.inj result]
  let tabled : Network :=
    { stopped with modeStarts := net.modeStarts, sets := net.referredSets.toArray }
  have stoppedBare : SameBare net stopped := net.sameBare_skeleton.trans (sameBare_enterStops stops)
  have tabledBare : SameBare net tabled := stoppedBare
  have stoppedTables := sameTables_enterStops stops
  have tabledTables :
      SameTables { net with actions := #[], sets := net.referredSets.toArray } tabled :=
    ⟨stoppedTables.kind, stoppedTables.maxTokenType, stoppedTables.ruleStarts,
      stoppedTables.ruleTypes, rfl, stoppedTables.actions, rfl⟩
  exact ⟨(((tabledBare.trans (tabled.sameBare_addEdges _)).trans (sameBare_addEdges _ _)).trans
      (sameBare_linkBlocks links)).trans (sameBare_defineDecisions _ _),
    (((tabledTables.trans (tabled.sameTables_addEdges _)).trans (sameTables_addEdges _ _)).trans
      (sameTables_linkBlocks links)).trans (sameTables_defineDecisions _ _)⟩

/-! ## Networks that can be written and read -/

/-- A transition that refers only to what the network has, by numbers that fit in words. -/
structure Readable (net : Network) (t : Transition) : Prop where
  target : t.target < net.states.size
  plain : ∀ outermost, t.label = .epsilon outermost → outermost = none
  call : ∀ r p follow, t.label = .rule r p follow →
    (net.state t.target).kind.isRuleStart = true ∧ r < net.numRules ∧ follow < net.states.size
  predicate : ∀ r p ctx, t.label = .predicate r p ctx →
    r < 18446744073709551616 ∧ p < 18446744073709551616
  action : ∀ r i ctx, t.label = .action r i ctx →
    r < 18446744073709551616 ∧ ∀ place, i = some place → place < 18446744073709551616

/-- The states have their places as numbers, and they, the rules and the modes refer to states that are
there. -/
structure Grounded (net : Network) : Prop where
  number : ∀ n < net.states.size, (net.state n).number = n
  invalid : ∀ n, (net.state n).kind = .invalid → (net.state n).rule = none
  blockLink : ∀ n stop, Decode.blockLink? (net.state n).kind = some stop → stop < net.states.size
  loopLink : ∀ n back, Decode.loopLink? (net.state n).kind = some back → back < net.states.size
  ruleStart : ∀ r < net.numRules, (net.state (net.ruleStart r)).kind.isRuleStart = true
  ruleTypes : net.ruleTypes.size = if net.isLexer then net.numRules else 0
  modeStart : ∀ n ∈ net.modeStarts.toList, (net.state n).kind = .tokenStart

/-- Whatever is grounded depends on the bare states and on some of the tables only. -/
theorem Grounded.of_same (grounded : net.Grounded) (same : SameBare net net')
    (kind : net'.kind = net.kind) (ruleStarts : net'.ruleStarts = net.ruleStarts)
    (ruleTypes : net'.ruleTypes = net.ruleTypes) (modeStarts : net'.modeStarts = net.modeStarts) :
    net'.Grounded := by
  have count : net'.numRules = net.numRules := by rw [numRules, numRules, ruleStarts]
  refine ⟨fun n inside => ?_, fun n isInvalid => ?_, fun n stop link => ?_, fun n back link => ?_,
    fun r inside => ?_, ?_, fun n member => ?_⟩
  · rw [same.size] at inside
    rw [same.number, grounded.number n inside]
  · rw [same.rule]
    refine grounded.invalid n ?_
    rw [← StateKind.bare_eq_invalid, ← same.kind, isInvalid]
    rfl
  · rw [same.size]
    refine grounded.blockLink n stop ?_
    rw [← link, ← StateKind.bare_blockLink, ← same.kind, StateKind.bare_blockLink]
  · rw [same.size]
    refine grounded.loopLink n back ?_
    rw [← link, ← StateKind.bare_loopLink, ← same.kind, StateKind.bare_loopLink]
  · rw [count] at inside
    rw [same.isRuleStart, Network.ruleStart, ruleStarts]
    exact grounded.ruleStart r inside
  · rw [ruleTypes, grounded.ruleTypes, isLexer, isLexer, kind, count]
  · rw [modeStarts] at member
    rw [← StateKind.bare_eq_tokenStart, same.kind, StateKind.bare_eq_tokenStart]
    exact grounded.modeStart n member

/-- The network refers only to what it has. -/
structure Restorable (net : Network) : Prop extends net.Grounded where
  readable : ∀ n, (net.state n).kind.isRuleStop = false → ∀ t ∈ net.out n, net.Readable t
  proper : ∀ s ∈ net.referredSets, s.Proper
  decision : ∀ n ∈ net.decisions.toList, n < net.states.size ∧ (net.state n).kind.isDecision = true

end Network

end AdaptiveLL
