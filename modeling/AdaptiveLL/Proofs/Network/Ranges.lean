import AdaptiveLL.Proofs.Network.Closed
import Mathlib.Data.List.Nodup

/-!
# Numbers that are looked up in tables

A network that was accepted refers only to states that are there. Other numbers are looked up in tables
later: the rule of a state in the stop states of the rules, the action on a transition in the actions of a
lexer, the decision of a state in what was learned about it. Not all of these are checked, and the theorem
says which part is missing (`inRange_iff`).

The stop states come about state by state as the links do. `StopsBelow` is what holds of them when the
states below a number have been looked at. A start that two rules share is linked to the stop state of one of
them, and this hides that the other has none; where the starts are distinct, every rule has its stop state.
-/

set_option autoImplicit false

namespace AdaptiveLL

/-- The numbers that are looked up in tables are in their ranges, and no decision is taken for another. -/
structure Network.InRange (net : Network) : Prop where
  rule : ∀ n r, (net.state n).rule = some r → r < net.numRules
  ruleStop : ∀ r < net.numRules,
    ∃ stop, net.ruleStop? r = some stop ∧ (net.state stop).kind.isRuleStop = true
  action : net.isLexer = true → ∀ n, ∀ t ∈ net.out n, ∀ r i c, t.label = .action r (some i) c →
    i < net.actions.size
  decision : ∀ d < net.decisions.size, (net.decisionState d).decision = some d

/-- What is not checked of the numbers that are looked up; `listed` says whether the actions are listed in a
table. -/
structure Network.Orderly (net : Network) (listed : Bool) : Prop where
  rules : ∀ n r, (net.state n).kind.isRuleStop = false → (net.state n).rule = some r → r < net.numRules
  stopped : ∀ r < net.numRules, ∃ n, (net.state n).kind.isRuleStop = true ∧ (net.state n).rule = some r
  actions : listed = true → net.isLexer = true → ∀ n, ∀ t ∈ net.out n, ∀ r i c,
    t.label = .action r (some i) c → i < net.actions.size
  distinct : net.decisions.toList.Nodup

/-- Do the words list the actions of a lexer in a table? In older formats the transitions name them. -/
def hasActionTable (words : List Word) : Bool :=
  match Decode.format.run { rest := words } with
  | .ok (f, _) => f.hasLexerActions
  | .error _ => false

namespace Network

variable {net net' : Network}

/-! ## Stop states -/

/-- The stop states of the rules when the states below `k` have been looked at. -/
structure StopsBelow (net : Network) (k : Nat) : Prop where
  size : net.ruleStops.size = net.numRules
  entered : ∀ r stop, net.ruleStop? r = some stop →
    (net.state stop).kind.isRuleStop = true ∧ (net.state stop).rule = some r
  covered : ∀ n < k, (net.state n).kind.isRuleStop = true →
    ∃ r < net.numRules, (net.state n).rule = some r ∧ (net.ruleStop? r).isSome = true
  linked : ∀ n stop leftRecursive, (net.state n).kind = .ruleStart (some stop) leftRecursive →
    ∃ r < net.numRules, net.ruleStart r = n ∧ (net.ruleStop? r).isSome = true

theorem stopsBelow_skeleton (net : Network) : net.skeleton.StopsBelow 0 := by
  have none' (r : Nat) : net.skeleton.ruleStop? r = none := by
    simp only [ruleStop?, skeleton, Array.getElem?_replicate]
    split <;> rfl
  refine ⟨by simp [skeleton, numRules], fun r stop entered => ?_, fun n below => absurd below n.not_lt_zero,
    fun n stop leftRecursive isStart => ?_⟩
  · cases (none' r).symm.trans entered
  · rw [skeleton_state] at isStart
    have bare : (net.state n).kind.bare = .ruleStart (some stop) leftRecursive := isStart
    cases kind : (net.state n).kind <;> rw [kind] at bare <;> cases bare

/-- What entering a stop state changes: that of its rule, and the link of its start. -/
theorem enterStop_cases {k : Nat} (run : Decode.enterStop net k = .ok net') :
    ((net.state k).kind.isRuleStop = false ∧ net' = net) ∨
      (net.state k).kind.isRuleStop = true ∧ ∃ r < net.numRules, (net.state k).rule = some r ∧
        net' = { net.modifyState (net.ruleStart r) (Decode.linkStop k) with
          ruleStops := net.ruleStops.setIfInBounds r (some k) } := by
  unfold Decode.enterStop at run
  split at run
  · rename_i isStop
    split at run
    · cases run
    · rename_i r owner
      split at run
      · rename_i inside
        cases run
        exact .inr ⟨isStop, r, inside, owner, rfl⟩
      · cases run
  · rename_i notStop
    cases run
    exact .inl ⟨by simpa using notStop, rfl⟩

theorem kind_linkStop (net : Network) (start k n : Nat) :
    ((net.modifyState start (Decode.linkStop k)).state n).kind = (net.state n).kind ∨ n = start := by
  by_cases here : n = start
  · exact .inr here
  · exact .inl (by rw [modifyState_state_of_ne _ _ here])

/-- One more state is looked at. -/
theorem StopsBelow.enterStop {k : Nat} (stops : net.StopsBelow k) (run : Decode.enterStop net k = .ok net') :
    net'.StopsBelow (k + 1) := by
  have same := sameBare_enterStop run
  have numRules : net'.numRules = net.numRules := by
    rw [Network.numRules, (sameTables_enterStop run).ruleStarts, Network.numRules]
  rcases enterStop_cases run with ⟨notStop, rfl⟩ | ⟨isStop, r, inside, owner, rfl⟩
  · refine { stops with covered := fun n below ends => ?_ }
    rcases Nat.lt_succ_iff_lt_or_eq.1 below with earlier | rfl
    · exact stops.covered n earlier ends
    · exact absurd (notStop.symm.trans ends) Bool.false_ne_true
  · have entered (r' : Nat) : Network.ruleStop? { net.modifyState (net.ruleStart r) (Decode.linkStop k) with
          ruleStops := net.ruleStops.setIfInBounds r (some k) } r' =
        if r = r' then some k else net.ruleStop? r' := by
      rw [← stops.size] at inside
      by_cases here : r = r'
      · subst here
        simp [ruleStop?, inside]
      · simp [ruleStop?, here]
    have known {r' : Nat} (before : (net.ruleStop? r').isSome = true) :
        (if r = r' then some k else net.ruleStop? r').isSome = true := by
      split
      · rfl
      · exact before
    refine ⟨?size, fun r' stop entered' => ?entered, fun n below ends => ?covered,
      fun n stop leftRecursive isStart => ?linked⟩
    case size =>
      rw [numRules, ← stops.size]
      exact Array.size_setIfInBounds
    case entered =>
      rw [entered] at entered'
      rw [same.isRuleStop, same.rule]
      split at entered'
      · rename_i here
        cases entered'
        exact ⟨isStop, here ▸ owner⟩
      · exact stops.entered r' stop entered'
    case covered =>
      rw [same.isRuleStop] at ends
      simp only [numRules, same.rule, entered]
      rcases Nat.lt_succ_iff_lt_or_eq.1 below with earlier | rfl
      · obtain ⟨r', inside', owner', before⟩ := stops.covered n earlier ends
        exact ⟨r', inside', owner', known before⟩
      · exact ⟨r, inside, owner, by rw [if_pos rfl]; rfl⟩
    case linked =>
      simp only [numRules, entered]
      rcases net.kind_linkStop (net.ruleStart r) k n with kept | rfl
      · obtain ⟨r', inside', start, before⟩ := stops.linked n stop leftRecursive (kept.symm.trans isStart)
        exact ⟨r', inside', start, known before⟩
      · exact ⟨r, inside, rfl, by rw [if_pos rfl]; rfl⟩

/-- A rule has a stop state exactly if some stop state is one of that rule. -/
theorem StopsBelow.ruleStop_iff (stops : net.StopsBelow net.states.size) (r : Nat) :
    (∃ stop, net.ruleStop? r = some stop ∧ (net.state stop).kind.isRuleStop = true) ↔
      ∃ n, (net.state n).kind.isRuleStop = true ∧ (net.state n).rule = some r := by
  constructor
  · rintro ⟨stop, entered, isStop⟩
    exact ⟨stop, isStop, (stops.entered r stop entered).2⟩
  · rintro ⟨n, isStop, owner⟩
    obtain ⟨r', -, owner', entered⟩ := stops.covered n (lt_size_of_isRuleStop isStop) isStop
    obtain rfl : r = r' := Option.some.inj (owner.symm.trans owner')
    obtain ⟨stop, entered⟩ := Option.isSome_iff_exists.1 entered
    exact ⟨stop, entered, (stops.entered r stop entered).1⟩

theorem ruleStarts_getElem? {r : Nat} (inside : r < net.numRules) :
    net.ruleStarts.toList[r]? = some (net.ruleStart r) := by
  rw [numRules] at inside
  simp [ruleStart, Array.getD, inside]

/-- Every start has a stop state, so every rule has one if no two of them share a start. -/
theorem StopsBelow.ruleStop_of_distinct (stops : net.StopsBelow net.states.size)
    (verified : net.fault? = none) (distinct : net.ruleStarts.toList.Nodup) {r : Nat} (inside : r < net.numRules)
    (isStart : (net.state (net.ruleStart r)).kind.isRuleStart = true) : (net.ruleStop? r).isSome = true := by
  have faultless := kindFault?_of_verified verified (lt_size_of_isRuleStart isStart)
  cases kind : (net.state (net.ruleStart r)).kind with
  | ruleStart stop leftRecursive =>
    cases stop with
    | none =>
      rw [kindFault?, kind] at faultless
      cases faultless
    | some stop =>
      obtain ⟨r', inside', start, entered⟩ := stops.linked _ stop leftRecursive kind
      have again : net.ruleStarts.toList[r']? = net.ruleStarts.toList[r]? := by
        rw [ruleStarts_getElem? inside', start, ruleStarts_getElem? inside]
      have bound : r' < net.ruleStarts.toList.length := inside'
      obtain rfl : r' = r := (List.getElem?_inj bound distinct).1 again
      exact entered
  | _ =>
    rw [kind] at isStart
    cases isStart

/-- Linking blocks and loops does not touch the starts of rules. -/
theorem kind_linkBlock {k n : Nat} (run : Decode.linkBlock net k = .ok net')
    (isStart : (net.state n).kind.isRuleStart = true) : (net'.state n).kind = (net.state n).kind := by
  unfold Decode.linkBlock at run
  split at run
  · rename_i block stop _
    split at run
    · rename_i isEnd
      cases run
      have other : n ≠ stop := by
        rintro rfl
        rw [isEnd] at isStart
        cases isStart
      rw [modifyState_state_of_ne _ _ other]
    · cases run
    · cases run
  · cases run
    rcases net.kind_linkLoopEntries k (net.state k).transitions n with kept | ⟨back, p, isEntry, -⟩
    · exact kept
    · rw [isEntry] at isStart
      cases isStart
  · cases run
    rfl

theorem kind_linkBlocks {n : Nat} (run : Decode.linkBlocks net = .ok net')
    (isStart : (net.state n).kind.isRuleStart = true) : (net'.state n).kind = (net.state n).kind :=
  foldlM_preserves _ (P := fun net' => (net'.state n).kind = (net.state n).kind) rfl
    (fun _ _ _ inv ran => (kind_linkBlock ran (by rwa [inv])).trans inv) run

/-! ## Decisions -/

theorem decision_defineDecision (net : Network) (m n : Nat) :
    ((net.defineDecision m).2.state n).decision =
      if n = m ∧ m < net.states.size then some net.decisions.size else (net.state n).decision := by
  show ((net.modifyState m ({ · with decision := some net.decisions.size })).state n).decision = _
  by_cases here : n = m
  · subst here
    rcases Nat.lt_or_ge n net.states.size with inside | outside
    · rw [modifyState_state_same _ _ inside, if_pos ⟨rfl, inside⟩]
    · rw [if_neg (by omega), state_of_le outside, state_of_le (by simpa using outside)]
  · rw [modifyState_state_of_ne _ _ here, if_neg fun both => here both.1]

/-- Where no decision is taken for another, no state is listed for two of them. -/
theorem nodup_of_decisions (own : ∀ d < net.decisions.size, (net.decisionState d).decision = some d) :
    net.decisions.toList.Nodup := by
  refine List.nodup_iff_injective_getElem.2 fun ⟨d, inside⟩ ⟨d', inside'⟩ again => Fin.ext ?_
  simp only [Array.length_toList, Array.getElem_toList] at inside inside' again
  have first := own d inside
  have second := own d' inside'
  simp only [decisionState, Array.getD, inside, inside', dite_true, Array.getInternal_eq_getElem, again] at first second
  exact Option.some.inj (first.symm.trans second)

end Network

namespace Decode

open Network

variable {base linked acted : Network} {edges : List (Nat × Transition)} {ds : List Nat}

theorem decision_decided_of_notMem (net : Network) {ds : List Nat} {n : Nat} (other : n ∉ ds) :
    ((decided net ds).state n).decision = (net.state n).decision := by
  induction ds generalizing net with
  | nil => rfl
  | cons d ds ih =>
    rw [List.mem_cons, not_or] at other
    refine (ih (net.defineDecision d).2 other.2).trans ?_
    rw [decision_defineDecision, if_neg fun both => other.1 both.1]

/-- States that are listed once keep the decision that they are given. -/
theorem decision_decided (net : Network) {ds : List Nat} (distinct : ds.Nodup)
    (inside : ∀ d ∈ ds, d < net.states.size) (i : Nat) (below : i < ds.length) :
    ((decided net ds).state ds[i]).decision = some (net.decisions.size + i) := by
  induction ds generalizing net i with
  | nil => cases below
  | cons d ds ih =>
    obtain ⟨fresh, distinct⟩ := List.nodup_cons.1 distinct
    cases i with
    | zero =>
      refine (decision_decided_of_notMem (net.defineDecision d).2 fresh).trans ?_
      rw [decision_defineDecision, if_pos ⟨rfl, inside d List.mem_cons_self⟩]
      rfl
    | succ i =>
      have later := ih (net.defineDecision d).2 distinct
        (fun d' member => by
          rw [defineDecision_size]
          exact inside d' (List.mem_cons_of_mem _ member)) i (Nat.lt_of_succ_lt_succ below)
      rw [show (net.defineDecision d).2.decisions.size = net.decisions.size + 1 by simp [defineDecision]] at later
      rw [List.getElem_cons_succ, show decided net (d :: ds) = decided (net.defineDecision d).2 ds from rfl, later]
      congr 1
      omega

/-! ## Networks that were read -/

theorem Listed.stopsBelow (listed : Listed base edges) : base.StopsBelow base.states.size := by
  obtain ⟨stopped, stops, same⟩ := listed.stops
  have looked : stopped.StopsBelow base.states.size :=
    foldlM_range_preserves (P := fun k net => net.StopsBelow k) base.stopsBelow_skeleton
      (fun _ _ _ _ inv ran => inv.enterStop ran) stops
  have states : base.states.size = stopped.states.size := by rw [same]
  rw [states] at looked
  rw [same]
  exact ⟨looked.size, looked.entered, looked.covered, looked.linked⟩

theorem kind_completed (links : linkBlocks (addReturns (base.addEdges edges)) = .ok linked)
    (acts : Acts (decided linked ds) acted) {n : Nat} (isStart : (base.state n).kind.isRuleStart = true) :
    ((mark acted).state n).kind = (base.state n).kind := by
  have before : ((addReturns (base.addEdges edges)).state n).kind = (base.state n).kind :=
    (kind_addEdges _ _ n).trans (base.kind_addEdges edges n)
  have behind : (acted.state n).kind = (base.state n).kind :=
    calc (acted.state n).kind = ((decided linked ds).state n).kind := acts.recast.kindAt n
      _ = (linked.state n).kind := kind_decided linked ds n
      _ = ((addReturns (base.addEdges edges)).state n).kind := kind_linkBlocks links (by rwa [before])
      _ = (base.state n).kind := before
  refine ((kind_mark acted n).eq (.inl fun back p isEntry => ?_)).trans behind
  rw [← behind, isEntry] at isStart
  cases isStart

theorem stopsBelow_completed (listed : Listed base edges)
    (links : linkBlocks (addReturns (base.addEdges edges)) = .ok linked)
    (acts : Acts (decided linked ds) acted) : (mark acted).StopsBelow (mark acted).states.size := by
  have same := sameBare_completed links acts
  have starts : (mark acted).ruleStarts = base.ruleStarts := (sameTables_completed links acts).ruleStarts
  have ruleStop (r : Nat) : (mark acted).ruleStop? r = base.ruleStop? r := by
    rw [ruleStop?, ruleStops_completed links acts, ruleStop?]
  obtain ⟨size, entered, covered, linked⟩ := listed.stopsBelow
  refine ⟨?_, fun r stop known => ?_, fun n inside isStop => ?_, fun n stop leftRecursive isStart => ?_⟩
  · rw [ruleStops_completed links acts, size, numRules, numRules, starts]
  · rw [same.isRuleStop, same.rule]
    exact entered r stop (ruleStop r ▸ known)
  · rw [same.size] at inside
    rw [same.isRuleStop] at isStop
    simpa only [numRules, starts, same.rule, ruleStop] using covered n inside isStop
  · have began : (base.state n).kind.isRuleStart = true := by
      rw [← same.isRuleStart, isStart]
      rfl
    have kind := (kind_completed links acts began).symm.trans isStart
    simpa only [numRules, starts, ruleStart, ruleStop] using linked n stop leftRecursive kind

theorem decision_completed (acts : Acts (decided linked ds) acted) (n : Nat) :
    ((mark acted).state n).decision = ((decided linked ds).state n).decision := by
  have refreshed := mapStates_keeps acted State.refresh (·.decision) (fun _ => rfl) n
  have marked := mapStates_keeps { acted with states := acted.states.map State.refresh }
    (markPrecedence { acted with states := acted.states.map State.refresh }) (·.decision)
    (fun s => by unfold markPrecedence; split <;> [split; skip] <;> rfl) n
  refine (marked.trans refreshed).trans ?_
  rw [acts.recast.state n]

/-- Decisions whose states are listed once are those of their states. -/
theorem decisionState_completed (listed : Listed base edges)
    (links : linkBlocks (addReturns (base.addEdges edges)) = .ok linked) (acts : Acts (decided linked ds) acted)
    (known : ∀ n ∈ ds, n < linked.states.size) (distinct : (mark acted).decisions.toList.Nodup) {d : Nat}
    (inside : d < (mark acted).decisions.size) : ((mark acted).decisionState d).decision = some d := by
  have decisions := decisions_completed listed links acts
  have none' : linked.decisions = #[] := by
    rw [linkBlocks_eq links]
    show (Network.addEdges (base.addEdges edges) _).decisions = #[]
    rw [addEdges_eq, addEdges_eq]
    exact listed.tables.1
  rw [decisions] at inside distinct
  have given := decision_decided linked distinct known d inside
  rw [none'] at given
  rw [decisionState, decisions, decision_completed acts]
  simpa [Array.getD, show d < ds.length from inside] using given

/-- Where the transitions name the actions, they get places in the table. -/
theorem ensures_places {f : Format} (older : f.hasLexerActions = false) (net : Network) :
    (actions f net).Ensures fun acted => acted.isLexer = true → ∀ n, ∀ t ∈ acted.out n, ∀ r i c,
      t.label = .action r i c → ∃ place, i = some place ∧ place < acted.actions.size := by
  unfold actions
  split
  · rename_i isParser
    refine ensures_pure fun isLexer => ?_
    rw [isLexer] at isParser
    cases isParser
  · rw [older]
    refine (ensures_pure (P := (· = customActions net)) rfl).bind fun changed changedIs => ?_
    subst changedIs
    refine (ensures_any _).bind fun _ _ => ensures_pure fun _ n t member r i c label => ?_
    exact customActions_places member label

theorem ensures_completed_places {f : Format} (older : f.hasLexerActions = false) (net : Network) :
    (completed f net).Ensures fun result => result.isLexer = true → ∀ n, ∀ t ∈ result.out n, ∀ r i c,
      t.label = .action r i c → ∃ place, i = some place ∧ place < result.actions.size := by
  refine (ensures_any _).bind fun linked _ => (ensures_any _).bind fun decided _ => ?_
  refine (ensures_places older decided).bind fun acted places => ensures_pure fun isLexer n t member => ?_
  rw [out_mark] at member
  exact places isLexer n t member

theorem hasActionTable_of_listed {words : List Word} {f : Format} {cursor : WordCursor}
    (run : listed.run ⟨words, 0⟩ = .ok ((f, base, edges), cursor)) :
    hasActionTable words = f.hasLexerActions := by
  obtain ⟨g, mid, first, rest⟩ := bind_ok.1 run
  obtain ⟨_, _, _, rest⟩ := bind_ok.1 rest
  obtain ⟨_, _, _, rest⟩ := bind_ok.1 rest
  obtain ⟨_, _, _, rest⟩ := bind_ok.1 rest
  obtain ⟨_, _, _, rest⟩ := bind_ok.1 rest
  obtain ⟨_, _, _, rest⟩ := bind_ok.1 rest
  obtain ⟨_, _, _, rest⟩ := bind_ok.1 rest
  cases rest
  rw [hasActionTable, first]

end Decode

namespace Network

variable {net : Network} {words : List Word}

/-- In a network that was accepted the numbers that are looked up are in their ranges exactly if what is not
checked of them holds. Of this, every rule has a stop state if no two of them share a start. -/
theorem inRange_iff (decoded : decode words true = .ok net) :
    (net.InRange ↔ net.Orderly (hasActionTable words)) ∧
      (net.ruleStarts.toList.Nodup → ∀ r < net.numRules, ∃ n, (net.state n).kind.isRuleStop = true ∧
        (net.state n).rule = some r) := by
  obtain ⟨f, base, edges, cursor, cursor', front, back, sound⟩ := decode_runs decoded
  have table := Decode.hasActionTable_of_listed front
  have listed := Decode.ensures_listed _ _ _ front
  have places (older : hasActionTable words = false) :=
    Decode.ensures_completed_places (table.symm.trans older) _ _ _ _ back
  obtain ⟨linked, ds, acted, links, known, acts, rfl⟩ := (Decode.ensures_completed f _ _ _ _ back).steps
  have same := Decode.sameBare_completed links acts
  have stops := Decode.stopsBelow_completed listed links acts
  refine ⟨⟨fun inRange => ?sound, fun orderly => ?complete⟩, fun distinct r inside => ?starts⟩
  case sound =>
    exact ⟨fun n r _ owner => inRange.rule n r owner,
      fun r inside => (stops.ruleStop_iff r).1 (inRange.ruleStop r inside), fun _ => inRange.action,
      nodup_of_decisions inRange.decision⟩
  case complete =>
    refine ⟨fun n r owner => ?_, fun r inside => (stops.ruleStop_iff r).2 (orderly.stopped r inside),
      fun isLexer => ?_, fun d inside => ?_⟩
    · cases isStop : ((Decode.mark acted).state n).kind.isRuleStop with
      | false => exact orderly.rules n r isStop owner
      | true =>
        obtain ⟨r', inside, owner', -⟩ := stops.covered n (lt_size_of_isRuleStop isStop) isStop
        exact Option.some.inj (owner.symm.trans owner') ▸ inside
    · cases older : hasActionTable words with
      | true => exact orderly.actions older isLexer
      | false =>
        intro n t member r i c label
        obtain ⟨place, here, below⟩ := places older isLexer n t member r (some i) c label
        exact Option.some.inj here ▸ below
    · exact Decode.decisionState_completed listed links acts (fun n member => (known n member).1) orderly.distinct inside
  case starts =>
    have isStart := (Decode.grounded_completed listed links acts).ruleStart r inside
    have entered := stops.ruleStop_of_distinct (sound rfl) distinct inside isStart
    obtain ⟨stop, entered⟩ := Option.isSome_iff_exists.1 entered
    exact ⟨stop, stops.entered r stop entered⟩

theorem inRange_iff_custom : decode customWords true = .ok customNetwork ∧
    hasActionTable customWords = false ∧ customNetwork.InRange := by
  obtain ⟨decoded, -⟩ := customWords_read
  have older : hasActionTable customWords = false := by decide
  have inside : ∀ n < 4, (customNetwork.state n).rule = none ∨ (customNetwork.state n).rule = some 0 := by decide
  refine ⟨decoded, older, (inRange_iff decoded).1.2 ⟨fun n r _ owner => ?_, fun r below => ?_, ?_, by decide⟩⟩
  · rcases Nat.lt_or_ge n 4 with below | above
    · rcases inside n below with none' | first
      · cases none'.symm.trans owner
      · exact Option.some.inj (first.symm.trans owner) ▸ Nat.zero_lt_one
    · rw [state_of_le above] at owner
      cases owner
  · obtain rfl : r = 0 := Nat.lt_one_iff.1 below
    exact ⟨2, rfl, rfl⟩
  · rw [older]
    exact nofun

/-- Two rules with one start, of which one has a stop state; a state of a rule that is not there, and a state
that is listed for two decisions. -/
def strayWords : List Word :=
  formatVersion :: identifierWords Format.current.identifier ++
    [1, 1, 5, 2, 0, 7, 0, 1, 7, 3, 0, 4, 8, 0, 0, 0, 2, 0, 0, 0, 0, 0, 5, 0, 3, 1, 0, 0, 0, 3, 2, 1, 0, 0, 0,
      3, 4, 1, 0, 0, 0, 2, 4, 5, 1, 0, 0, 4, 1, 1, 0, 0, 0, 2, 3, 3]

/-- What is read from `strayWords`. -/
def strayNetwork : Network where
  kind := .parser
  maxTokenType := 1
  states := #[
    { number := 0, rule := some 0, kind := .ruleStart (some 1) false, transitions := [.epsilon 3],
      epsilonOnly := true },
    { number := 1, rule := some 0, kind := .ruleStop },
    { number := 2, rule := some 7, kind := .basic, transitions := [⟨4, .atom 1⟩] },
    { number := 3, rule := some 0, kind := .blockStart .basic (some 4), transitions := [.epsilon 2, .epsilon 4],
      epsilonOnly := true, decision := some 1 },
    { number := 4, rule := some 0, kind := .blockEnd (some 3), transitions := [.epsilon 1],
      epsilonOnly := true }]
  decisions := #[3, 3]
  ruleStarts := #[0, 0]
  ruleStops := #[some 1, none]

/-- Rules without a stop state, rules that are not there and decisions that are taken for others are read. -/
theorem decode_accepts_stray : decode strayWords true = .ok strayNetwork ∧ ¬ strayNetwork.InRange ∧
    (strayNetwork.state 2).rule = some 7 ∧ strayNetwork.numRules = 2 ∧ strayNetwork.ruleStop? 1 = none ∧
    (strayNetwork.decisionState 0).decision = some 1 := by
  refine ⟨by decide +kernel, fun inRange => ?_, rfl, rfl, rfl, rfl⟩
  have below : 7 < strayNetwork.numRules := inRange.rule 2 7 rfl
  exact absurd below (by decide)

end Network

end AdaptiveLL
