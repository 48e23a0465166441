import AdaptiveLL.Proofs.Grammar.Built
import AdaptiveLL.Proofs.Grammar.Outfitting
import AdaptiveLL.Proofs.Network.Reencoding

/-!
# What is derived from the words of a grammar

The reader is given the skeleton of the network and derives the rest. Read from the words of a grammar,
each link appears at the state that calls for it: the stop state of a rule, the start of a block or the
way back of a loop. So after some steps those links are there whose states have been passed
(`StateKind.upTo`), and after the last one the network is the one that was laid out (`derive_run`).
-/

set_option autoImplicit false

namespace AdaptiveLL

/-- The kind as far as the reader has linked it, when it has entered the stop states below `k` and linked
the blocks and loops of the states below `j`. -/
def StateKind.upTo (k j : Nat) : StateKind → StateKind
  | .ruleStart stop leftRecursive => .ruleStart (stop.filter (· < k)) leftRecursive
  | .blockEnd start => .blockEnd (start.filter (· < j))
  | .starLoopEntry back _ => .starLoopEntry (back.filter (· < j)) false
  | kind => kind

namespace StateKind

theorem upTo_zero (kind : StateKind) : kind.upTo 0 0 = kind.bare := by
  cases kind <;> simp [upTo, bare]

theorem filter_lt_succ {link : Option Nat} {k : Nat} (other : link ≠ some k) :
    link.filter (· < k + 1) = link.filter (· < k) := by
  cases link with
  | none => rfl
  | some n =>
    have apart : n ≠ k := fun same => other (by rw [same])
    have same : decide (n < k + 1) = decide (n < k) := decide_eq_decide.2 (by omega)
    simp only [Option.filter, same]

theorem upTo_stop {kind : StateKind} {k j : Nat} (other : ∀ lr, kind ≠ .ruleStart (some k) lr) :
    kind.upTo (k + 1) j = kind.upTo k j := by
  cases kind with
  | ruleStart stop lr =>
    rw [upTo, filter_lt_succ fun same => other lr (by rw [same]), upTo]
  | _ => rfl

theorem upTo_link {kind : StateKind} {k j : Nat} (notEnd : kind ≠ .blockEnd (some j))
    (notEntry : ∀ p, kind ≠ .starLoopEntry (some j) p) : kind.upTo k (j + 1) = kind.upTo k j := by
  cases kind with
  | blockEnd start => rw [upTo, filter_lt_succ fun same => notEnd (by rw [same]), upTo]
  | starLoopEntry back p => rw [upTo, filter_lt_succ fun same => notEntry p (by rw [same]), upTo]
  | _ => rfl

end StateKind

/-- Steps that succeed one after the other and go on with what they preserve. -/
theorem foldlM_range {ε β : Type} {P : Nat → β → Prop} {f : β → Nat → Except ε β} {k : Nat} {b : β}
    (before : P 0 b) (step : ∀ i < k, ∀ b, P i b → ∃ b', f b i = .ok b' ∧ P (i + 1) b') :
    ∃ b', (List.range k).foldlM f b = .ok b' ∧ P k b' := by
  induction k with
  | zero => exact ⟨b, rfl, before⟩
  | succ k ih =>
    obtain ⟨mid, run, holds⟩ := ih fun i inside => step i (Nat.lt_succ_of_lt inside)
    obtain ⟨last, ran, after⟩ := step k (Nat.lt_succ_self k) mid holds
    refine ⟨last, ?_, after⟩
    rw [List.range_succ, List.foldlM_append]
    exact except_bind_ok.2 ⟨mid, run, except_bind_ok.2 ⟨last, ran, rfl⟩⟩

namespace Layout

open Network Decode

variable {g : Grammar} {net : Network}

/-! ## Links and what they name -/

namespace Outfitted

theorem fits_of_valid (outfitted : Outfitted g net) {n : Nat} (valid : (net.state n).kind ≠ .invalid) :
    net.Fits n := by
  refine outfitted.fits n ?_
  by_contra outside
  exact valid (by rw [state_of_le (Nat.not_lt.1 outside)])

theorem stop_link (outfitted : Outfitted g net) {n : Nat} {stop : Option Nat} {lr : Bool}
    (kind : (net.state n).kind = .ruleStart stop lr) :
    stop = some (n + 1) ∧ (net.state (n + 1)).kind = .ruleStop := by
  cases outfitted.fits_of_valid (n := n) (by simp [kind]) with
  | ruleStart kindIs isStop =>
    rw [kindIs] at kind
    cases kind
    exact ⟨rfl, isStop⟩
  | _ => simp_all

theorem end_link (outfitted : Outfitted g net) {n : Nat} {start : Option Nat}
    (kind : (net.state n).kind = .blockEnd start) : ∃ begin block, start = some begin ∧ n = begin + 1 ∧
      (net.state begin).kind = .blockStart block (some n) := by
  cases outfitted.fits_of_valid (n := n) (by simp [kind]) with
  | blockEnd place kindIs begins one =>
    rw [kindIs] at kind
    cases kind
    exact ⟨_, _, rfl, place, begins⟩
  | _ => simp_all

theorem entry_link (outfitted : Outfitted g net) {n : Nat} {back : Option Nat} {p : Bool}
    (kind : (net.state n).kind = .starLoopEntry back p) :
    back = some (n + 1) ∧ p = false ∧ (net.state (n + 1)).kind = .starLoopBack := by
  cases outfitted.fits_of_valid (n := n) (by simp [kind]) with
  | starLoopEntry kindIs back two decided =>
    rw [kindIs] at kind
    cases kind
    exact ⟨rfl, rfl, back⟩
  | _ => simp_all

/-- All links are there in the end. -/
theorem kind_upTo (outfitted : Outfitted g net) (n : Nat) :
    (net.state n).kind.upTo net.states.size net.states.size = (net.state n).kind := by
  have inside {m : Nat} (valid : (net.state m).kind ≠ .invalid) : m < net.states.size := by
    by_contra outside
    exact valid (by rw [state_of_le (Nat.not_lt.1 outside)])
  cases kind : (net.state n).kind with
  | ruleStart stop lr =>
    obtain ⟨rfl, isStop⟩ := outfitted.stop_link kind
    simp [StateKind.upTo, inside (m := n + 1) (by simp [isStop])]
  | blockEnd start =>
    obtain ⟨begin, block, rfl, -, begins⟩ := outfitted.end_link kind
    simp [StateKind.upTo, inside (m := begin) (by simp [begins])]
  | starLoopEntry back p =>
    obtain ⟨rfl, rfl, isBack⟩ := outfitted.entry_link kind
    simp [StateKind.upTo, inside (m := n + 1) (by simp [isBack])]
  | _ => rfl

end Outfitted

/-- Only rules have stop states, each its own. -/
theorem stop_owner (laid : net.LaidOut g) {n : Nat} (isStop : (net.state n).kind.isRuleStop = true) :
    ∃ r < g.rules.length, n = 2 * r + 1 ∧ (net.state n).rule = some r := by
  have inside : n < net.states.size := by
    by_contra outside
    simp [state_of_le (Nat.not_lt.1 outside), StateKind.isRuleStop] at isStop
  rcases laid.states_cases inside with ⟨r, known, rfl | rfl⟩ | ⟨mode, known, rfl⟩ |
    ⟨i, r, seg, lo, hi, -, body, low, high⟩
  · have isStart := (laid.startState r known).1
    cases kind : (net.state (2 * r)).kind <;> simp [kind, StateKind.isRuleStart, StateKind.isRuleStop] at isStart isStop
  · exact ⟨r, known, rfl, (laid.stopState r known).2.1⟩
  · simp [(laid.modeState mode known).1, StateKind.isRuleStop] at isStop
  · have inner := body.inner n low high
    cases kind : (net.state n).kind <;> simp [kind, StateKind.isInner, StateKind.isRuleStop] at inner isStop

/-! ## Stop states -/

/-- What the reader has when it has entered the stop states below `k`. -/
structure Entered (net : Network) (g : Grammar) (k : Nat) (read : Network) : Prop where
  same : SameBare net read
  ruleStarts : read.ruleStarts = net.ruleStarts
  kind : ∀ n, (read.state n).kind = (net.state n).kind.upTo k 0
  stops : read.ruleStops = (Array.range g.rules.length).map fun r =>
    if 2 * r + 1 < k then some (2 * r + 1) else none
  decisions : read.decisions = #[]
  undecided : ∀ n, (read.state n).decision = none

theorem enterStop_run (laid : net.LaidOut g) (outfitted : Outfitted g net) {k : Nat} {read : Network}
    (entered : Entered net g k read) :
    ∃ read', enterStop read k = .ok read' ∧ Entered net g (k + 1) read' := by
  cases isStop : (net.state k).kind.isRuleStop with
  | true =>
    obtain ⟨r, known, rfl, owner⟩ := stop_owner laid isStop
    have numRules : read.numRules = g.rules.length := by
      rw [Network.numRules, entered.ruleStarts, ← Network.numRules, laid.numRules]
    have start : read.ruleStart r = 2 * r := by
      rw [Network.ruleStart, entered.ruleStarts, ← Network.ruleStart, laid.ruleStart_eq known]
    have run : enterStop read (2 * r + 1) = .ok { read.modifyState (2 * r) (linkStop (2 * r + 1)) with
        ruleStops := read.ruleStops.setIfInBounds r (some (2 * r + 1)) } := by
      rw [enterStop, if_pos (by rw [entered.same.isRuleStop, isStop]), entered.same.rule, owner]
      simp only [numRules, if_pos known, start]
    refine ⟨_, run, entered.same.trans (sameBare_enterStop run), entered.ruleStarts, fun n => ?_, ?_,
      entered.decisions, fun n => ?_⟩
    · change ((read.modifyState (2 * r) (linkStop (2 * r + 1))).state n).kind = _
      by_cases here : n = 2 * r
      · subst here
        have isStart := (laid.startState r known).1
        cases kind : (net.state (2 * r)).kind with
        | ruleStart stop lr =>
          obtain ⟨rfl, -⟩ := outfitted.stop_link kind
          have inside : 2 * r < read.states.size := by
            by_contra outside
            have unlinked := entered.kind (2 * r)
            rw [kind, state_of_le (Nat.not_lt.1 outside)] at unlinked
            cases unlinked
          have unlinked := entered.kind (2 * r)
          rw [kind] at unlinked
          rw [modifyState_state_same _ _ inside, linkStop, unlinked]
          simp [StateKind.upTo, Option.filter]
        | _ => simp [kind, StateKind.isRuleStart] at isStart
      · rw [modifyState_state_of_ne _ _ here, entered.kind, StateKind.upTo_stop (k := 2 * r + 1) fun lr kind => ?_]
        have place := (outfitted.stop_link kind).1
        exact here (by have := Option.some.inj place; omega)
    · change read.ruleStops.setIfInBounds r (some (2 * r + 1)) = _
      rw [entered.stops]
      refine Array.ext (by simp) fun i _ _ => ?_
      simp only [Array.getElem_map, Array.getElem_range]
      grind
    · have keeps (s : State) : (linkStop (2 * r + 1) s).decision = s.decision := by
        unfold linkStop
        split <;> rfl
      exact (read.modifyState_keeps (2 * r) _ (·.decision) keeps n).trans (entered.undecided n)
  | false =>
    refine ⟨read, ?_, entered.same, entered.ruleStarts, fun n => ?_, ?_, entered.decisions,
      entered.undecided⟩
    · rw [enterStop, if_neg (by rw [entered.same.isRuleStop, isStop]; simp)]
    · rw [entered.kind, StateKind.upTo_stop fun lr kind => ?_]
      obtain ⟨same, stop⟩ := outfitted.stop_link kind
      rw [Option.some.inj same, stop] at isStop
      cases isStop
    · rw [entered.stops]
      refine Array.map_congr_left fun r member => ?_
      have other : 2 * r + 1 ≠ k := by
        rintro rfl
        have known : r < g.rules.length := by simpa using member
        rw [(laid.stopState r known).1] at isStop
        cases isStop
      by_cases below : 2 * r + 1 < k
      · rw [if_pos below, if_pos (by omega)]
      · rw [if_neg below, if_neg (by omega)]

/-- The stop states are entered, and with them the table of the rules is complete. -/
theorem enterStops_run (laid : net.LaidOut g) (outfitted : Outfitted g net) : ∃ stopped,
    (List.range net.states.size).foldlM enterStop net.skeleton = .ok stopped ∧
      Entered net g net.states.size stopped := by
  refine foldlM_range ⟨net.sameBare_skeleton, rfl, fun n => ?_, ?_, rfl, fun n => ?_⟩
    fun k _ read entered => enterStop_run laid outfitted entered
  · rw [StateKind.upTo_zero, net.skeleton_state]
    rfl
  · refine Array.ext (by simp [skeleton, laid.numRules]) fun i _ _ => ?_
    simp [skeleton]
  · rw [net.skeleton_state]
    rfl

theorem Entered.stops_eq (laid : net.LaidOut g) {read : Network}
    (entered : Entered net g net.states.size read) : read.ruleStops = net.ruleStops := by
  rw [entered.stops, laid.ruleStops]
  refine Array.map_congr_left fun r member => if_pos ?_
  have known : r < g.rules.length := by simpa using member
  by_contra outside
  have kind := (laid.stopState r known).1
  rw [state_of_le (Nat.not_lt.1 outside)] at kind
  cases kind

/-! ## Blocks and loops -/

/-- What the reader has when it has linked the blocks and loops of the states below `j`. -/
structure Linked (net : Network) (j : Nat) (read : Network) : Prop where
  same : SameBare net read
  kind : ∀ n, (read.state n).kind = (net.state n).kind.upTo net.states.size j
  undecided : ∀ n, (read.state n).decision = none
  out : ∀ n, (net.state n).kind.isRuleStop = false → read.out n = net.out n

/-- A state that is neither the start of a block nor the way back of a loop links nothing. -/
theorem Linked.skip (outfitted : Outfitted g net) {j : Nat} {read : Network} (linked : Linked net j read)
    (notStart : ∀ block stop, (net.state j).kind ≠ .blockStart block stop)
    (notBack : (net.state j).kind ≠ .starLoopBack) :
    linkBlock read j = .ok read ∧ Linked net (j + 1) read := by
  refine ⟨?_, linked.same, fun n => ?_, linked.undecided, linked.out⟩
  · have kind := linked.kind j
    unfold linkBlock
    cases known : (net.state j).kind with
    | blockStart block stop => exact absurd known (notStart block stop)
    | starLoopBack => exact absurd known notBack
    | _ =>
      rw [known] at kind
      rw [kind]
      rfl
  · rw [linked.kind, StateKind.upTo_link (fun kind => ?_) fun p kind => ?_]
    · obtain ⟨begin, block, same, -, begins⟩ := outfitted.end_link kind
      cases same
      exact notStart block _ begins
    · obtain ⟨same, -, isBack⟩ := outfitted.entry_link kind
      cases same
      exact notBack isBack

/-- The state `m` gets the link that the state `j` calls for. -/
theorem Linked.link {j m : Nat} {f : State → State} {read : Network} (linked : Linked net j read)
    (run : linkBlock read j = .ok (read.modifyState m f)) (inside : m < net.states.size)
    (decision : ∀ s, (f s).decision = s.decision)
    (kind : (f (read.state m)).kind = (net.state m).kind.upTo net.states.size (j + 1))
    (notEnd : ∀ n, (net.state n).kind = .blockEnd (some j) → n = m)
    (notEntry : ∀ n p, (net.state n).kind = .starLoopEntry (some j) p → n = m) :
    Linked net (j + 1) (read.modifyState m f) := by
  refine ⟨linked.same.trans (sameBare_linkBlock run), fun n => ?_, fun n => ?_, fun n inner => ?_⟩
  · by_cases here : n = m
    · rw [here, modifyState_state_same _ _ (by rwa [linked.same.size]), kind]
    · rw [modifyState_state_of_ne _ _ here, linked.kind,
        StateKind.upTo_link (fun same => here (notEnd n same)) fun p same => here (notEntry n p same)]
  · exact (read.modifyState_keeps m f (·.decision) decision n).trans (linked.undecided n)
  · exact ((linkBlock_keeps run).2 n).trans (linked.out n inner)

theorem linkBlock_run (outfitted : Outfitted g net) {j : Nat} (inside : j < net.states.size)
    {read : Network} (linked : Linked net j read) :
    ∃ read', linkBlock read j = .ok read' ∧ Linked net (j + 1) read' := by
  cases outfitted.fits j inside with
  | @blockStart block kind stop choice =>
    have isStart : (read.state j).kind = .blockStart block (some (j + 1)) := by
      rw [linked.kind, kind]
      rfl
    have isEnd : (read.state (j + 1)).kind = .blockEnd none := by
      rw [linked.kind, stop]
      simp [StateKind.upTo, Option.filter]
    have run : linkBlock read j =
        .ok (read.modifyState (j + 1) ({ · with kind := .blockEnd (some j) })) := by
      rw [linkBlock, isStart]
      simp only [isEnd]
    have endInside : j + 1 < net.states.size := by
      by_contra outside
      rw [state_of_le (Nat.not_lt.1 outside)] at stop
      cases stop
    refine ⟨_, run, linked.link run endInside (fun _ => rfl) ?_ (fun n same => ?_) fun n p same => ?_⟩
    · rw [stop]
      simp [StateKind.upTo, Option.filter]
    · obtain ⟨begin, -, place, isNext, -⟩ := outfitted.end_link same
      cases place
      exact isNext
    · obtain ⟨place, -, isBack⟩ := outfitted.entry_link same
      cases place
      rw [isBack] at kind
      cases kind
  | @starLoopBack entry place kind leads entered =>
    have isBack : (read.state j).kind = .starLoopBack := by
      rw [linked.kind, kind]
      rfl
    have leaves : (read.state j).transitions = [.epsilon entry] :=
      (linked.out j (by rw [kind]; rfl)).trans leads
    have isEntry : (read.state entry).kind = .starLoopEntry none false := by
      rw [linked.kind, entered]
      simp [StateKind.upTo, Option.filter]
    have run : linkBlock read j = .ok (read.modifyState entry (linkLoopEntry j)) := by
      rw [linkBlock, isBack]
      simp only [leaves]
      rfl
    have keeps (s : State) : (linkLoopEntry j s).decision = s.decision := by
      unfold linkLoopEntry
      split <;> rfl
    refine ⟨_, run, linked.link run (by omega) keeps ?_ (fun n same => ?_) fun n p same => ?_⟩
    · rw [linkLoopEntry, isEntry, entered]
      simp [StateKind.upTo, Option.filter]
    · obtain ⟨begin, block, same, -, begins⟩ := outfitted.end_link same
      cases same
      rw [begins] at kind
      cases kind
    · obtain ⟨same, -, -⟩ := outfitted.entry_link same
      have := Option.some.inj same
      omega
  | ruleStart kind stop => exact ⟨read, linked.skip outfitted (by simp [kind]) (by simp [kind])⟩
  | blockEnd place kind begins one =>
    exact ⟨read, linked.skip outfitted (by simp [kind]) (by simp [kind])⟩
  | starLoopEntry kind back two decided =>
    exact ⟨read, linked.skip outfitted (by simp [kind]) (by simp [kind])⟩
  | loopEnd place kind one => exact ⟨read, linked.skip outfitted (by simp [kind]) (by simp [kind])⟩
  | ruleStop kind | tokenStart kind decided | basic kind one | plusLoopBack kind decided =>
    exact ⟨read, linked.skip outfitted (by simp [kind]) (by simp [kind])⟩

/-! ## Decisions -/

/-- What the states own that are given decisions, each at most one. -/
theorem decisions_state (net : Network) (ds : List Nat) (apart : ds.Nodup)
    (inside : ∀ d ∈ ds, d < net.states.size) (n : Nat) : (ds.foldl (fun net n => (net.defineDecision n).2) net).state n =
      { net.state n with
        decision := ((ds.idxOf? n).map (net.decisions.size + ·)).or (net.state n).decision } := by
  induction ds generalizing net with
  | nil => rfl
  | cons d ds ih =>
    obtain ⟨outside, apartRest⟩ := List.nodup_cons.1 apart
    have later := ih (net.defineDecision d).2 apartRest fun e member => by
      simpa using inside e (List.mem_cons_of_mem d member)
    rw [List.foldl_cons, later, List.idxOf?_cons]
    have size : (net.defineDecision d).2.decisions.size = net.decisions.size + 1 := Array.size_push _
    by_cases here : n = d
    · subst here
      rw [List.idxOf?_eq_none_iff.2 outside, if_pos (beq_self_eq_true n),
        show (net.defineDecision n).2.state n = _ from modifyState_state_same net _ (inside n (by simp))]
      simp
    · have other : (d == n) = false := beq_false_of_ne (Ne.symm here)
      rw [other, show (net.defineDecision d).2.state n = _ from modifyState_state_of_ne net _ here, size]
      cases ds.idxOf? n with
      | none => rfl
      | some i => simp [Nat.add_comm, Nat.add_left_comm]

/-- The decisions of an equipped network are those of its states. -/
theorem decision_eq (equipped : net.Equipped g) (n : Nat) :
    net.decisions.toList.idxOf? n = (net.state n).decision := by
  have owner {d : Nat} (inside : d < net.decisions.toList.length) (same : net.decisions.toList[d] = n) :
      (net.state n).decision = some d := by
    refine (equipped.decides d n ?_).1
    rw [← Array.getElem?_toList, List.getElem?_eq_getElem inside, same]
  cases owned : (net.state n).decision with
  | none =>
    refine List.idxOf?_eq_none_iff.2 fun member => ?_
    obtain ⟨d, inside, same⟩ := List.getElem_of_mem member
    cases owned.symm.trans (owner inside same)
  | some d =>
    have owns := equipped.decision n d owned
    rw [← Array.getElem?_toList] at owns
    obtain ⟨inside, same⟩ := List.getElem?_eq_some_iff.1 owns
    refine List.idxOf?_eq_some_iff.2 ⟨inside, same, fun e earlier other => ?_⟩
    have := Option.some.inj (owned.symm.trans (owner (Nat.lt_trans earlier inside) other))
    omega

theorem decision_known (equipped : net.Equipped g) {n : Nat} (member : n ∈ net.decisions.toList) :
    n < net.states.size ∧ (net.state n).kind.isDecision = true := by
  obtain ⟨d, inside, same⟩ := List.getElem_of_mem member
  obtain ⟨owned, isDecision⟩ := equipped.decides d n (by
    rw [← Array.getElem?_toList, List.getElem?_eq_getElem inside, same])
  refine ⟨?_, isDecision⟩
  by_contra outside
  rw [state_of_le (Nat.not_lt.1 outside)] at owned
  cases owned

theorem nodup_decisions (equipped : net.Equipped g) : net.decisions.toList.Nodup := by
  refine List.nodup_iff_getElem?_ne_getElem?.2 fun i j before inside same => ?_
  have last := List.getElem?_eq_getElem inside
  rw [Array.getElem?_toList] at same last
  rw [Array.getElem?_toList] at same
  have first := (equipped.decides i _ (same.trans last)).1
  have := Option.some.inj (first.symm.trans (equipped.decides j _ last).1)
  omega

/-! ## The ways back from calls -/

/-- The transitions back from the calls of a network, with the stop states that they leave. -/
def ways (net : Network) : List (Nat × Transition) :=
  (List.range net.states.size).flatMap fun n => (net.out n).filterMap (returnEdge? net)

/-- The transitions that leave the ends of rules ask for nothing. -/
def EndsFree (net : Network) : Prop := ∀ n, (net.state n).kind.isRuleStop = true →
  ∀ t ∈ net.out n, ∃ outermost, t.label = .epsilon outermost

/-- The ways back depend on the calls, the stop states and the left-recursive rules only. -/
theorem ways_eq {net' : Network} (same : SameBare net net') (starts : net'.ruleStarts = net.ruleStarts)
    (stops : net'.ruleStops = net.ruleStops)
    (out : ∀ n, (net.state n).kind.isRuleStop = false → net'.out n = net.out n)
    (free : EndsFree net) (free' : EndsFree net') : ways net' = ways net := by
  have edge : returnEdge? net' = returnEdge? net := by
    funext t
    unfold returnEdge?
    cases t.label with
    | rule r p follow =>
      have start : net'.ruleStart r = net.ruleStart r := by rw [Network.ruleStart, starts, Network.ruleStart]
      have stop : net'.ruleStop? r = net.ruleStop? r := by rw [Network.ruleStop?, stops, Network.ruleStop?]
      dsimp only
      rw [start, stop, same.isLeftRecursiveStart]
    | _ => rfl
  have none' {base : Network} (ts : List Transition)
      (free : ∀ t ∈ ts, ∃ outermost, t.label = .epsilon outermost) : ts.filterMap (returnEdge? base) = [] := by
    refine List.filterMap_eq_nil_iff.2 fun t member => ?_
    obtain ⟨outermost, label⟩ := free t member
    rw [returnEdge?, label]
  rw [ways, ways, same.size, edge]
  congr 1
  funext n
  cases isStop : (net.state n).kind.isRuleStop with
  | true => rw [none' _ (free n isStop), none' _ (free' n (same.isRuleStop n ▸ isStop))]
  | false => rw [out n isStop]

theorem endsFree (laid : net.LaidOut g) : EndsFree net := by
  intro n isStop t member
  obtain ⟨r, known, rfl, -⟩ := stop_owner laid isStop
  rw [(laid.stopState r known).2.2] at member
  cases member

/-! ## The derived network -/

/-- What the reader derives from the words of a grammar, up to the marks, is the network that was laid
out, and in the stop states the ways back from calls. -/
structure Derived (net derived : Network) : Prop where
  same : SameBare net derived
  tables : SameTables { net with actions := #[], sets := net.referredSets.toArray } derived
  ruleStops : derived.ruleStops = net.ruleStops
  decisions : derived.decisions = net.decisions
  kind : ∀ n, (derived.state n).kind = (net.state n).kind
  decision : ∀ n, (derived.state n).decision = (net.state n).decision
  out : ∀ n, (net.state n).kind.isRuleStop = false → derived.out n = net.out n
  returns : ∀ n, (net.state n).kind.isRuleStop = true →
    ∀ t ∈ derived.out n, ∃ outermost, t.label = .epsilon outermost
  ways : ∀ n, (net.state n).kind.isRuleStop = true → derived.out n = edgesFrom n (ways net)

theorem derive_run (laid : net.LaidOut g) (outfitted : Outfitted g net) :
    ∃ derived, net.derive = .ok derived ∧ Derived net derived := by
  obtain ⟨stopped, stops, entered⟩ := enterStops_run laid outfitted
  let tabled : Network :=
    { stopped with modeStarts := net.modeStarts, sets := net.referredSets.toArray }
  let written := tabled.addEdges (Encode.writtenTransitions net)
  have sameWritten : SameBare net written := entered.same.trans (tabled.sameBare_addEdges _)
  have writtenOut (n : Nat) : written.out n = if (net.state n).kind.isRuleStop then [] else net.out n := by
    rcases Nat.lt_or_ge n net.states.size with inside | outside
    · have empty : tabled.out n = [] := (out_enterStops stops n).trans (net.out_skeleton n)
      rw [addEdges_out _ _ (by rwa [show tabled.states.size = _ from entered.same.size]), empty,
        edgesFrom_written laid.number, List.nil_append]
    · rw [out_of_le (by rwa [sameWritten.size]), out_of_le outside, ite_self]
  have isStop : ∀ r stop, written.ruleStop? r = some stop → (written.state stop).kind.isRuleStop = true := by
    intro r stop found
    have stops : written.ruleStops = net.ruleStops := by
      rw [show written = _ from tabled.addEdges_eq _]
      exact entered.stops_eq laid
    rw [Network.ruleStop?, stops, laid.ruleStops] at found
    obtain ⟨known, rfl⟩ : r < g.rules.length ∧ 2 * r + 1 = stop := by
      by_cases known : r < g.rules.length
      · exact ⟨known, by simpa [known] using found⟩
      · simp [Nat.not_lt.1 known] at found
    rw [sameWritten.isRuleStop, (laid.stopState r known).1]
    rfl
  have back := out_addReturns isStop
  have start : Linked net 0 (addReturns written) := by
    refine ⟨sameWritten.trans (sameBare_addEdges _ _), fun n => ?_, fun n => ?_, fun n inner => ?_⟩
    · exact ((addEdges_kind _ _ n).1.trans (addEdges_kind tabled _ n).1).trans (entered.kind n)
    · exact ((addEdges_kind _ _ n).2.trans (addEdges_kind tabled _ n).2).trans (entered.undecided n)
    · obtain ⟨added, out, -, none'⟩ := back n
      rw [out, none' (by rw [sameWritten.isRuleStop, inner]), List.append_nil, writtenOut, inner]
      rfl
  obtain ⟨linked, links, done⟩ : ∃ linked, linkBlocks (addReturns written) = .ok linked ∧
      Linked net net.states.size linked := by
    have size : (addReturns written).states.size = net.states.size := start.same.size
    rw [linkBlocks, size]
    exact foldlM_range start fun j inside _ linked => linkBlock_run outfitted inside linked
  have derives : net.derive = .ok (net.decisions.toList.foldl (fun net n => (net.defineDecision n).2) linked) :=
    except_bind_ok.2 ⟨stopped, stops, except_bind_ok.2 ⟨linked, links, rfl⟩⟩
  obtain ⟨same, tables⟩ := derive_keeps derives
  obtain ⟨decisions, out⟩ := decisions_foldl linked net.decisions.toList
  have linkedTables : linked.decisions = #[] ∧ linked.ruleStops = net.ruleStops := by
    rw [linkBlocks_eq links, show addReturns written = _ from addEdges_eq _ _,
      show written = _ from tabled.addEdges_eq _]
    exact ⟨entered.decisions, entered.stops_eq laid⟩
  have state := decisions_state linked net.decisions.toList (nodup_decisions outfitted.equipped)
    fun d member => by
      rw [done.same.size]
      exact (decision_known outfitted.equipped member).1
  refine ⟨_, derives, same, tables, ?_, ?_, fun n => ?_, fun n => ?_, fun n inner => ?_,
    fun n isStop t member => ?_, fun n isStop => ?_⟩
  · have keeps (ds : List Nat) (net : Network) :
        (ds.foldl (fun net n => (net.defineDecision n).2) net).ruleStops = net.ruleStops := by
      induction ds generalizing net with
      | nil => rfl
      | cons d ds ih => exact ih _
    exact (keeps _ _).trans linkedTables.2
  · rw [decisions, linkedTables.1]
    simp
  · rw [state, done.kind, outfitted.kind_upTo]
  · rw [state, linkedTables.1, decision_eq outfitted.equipped]
    simp [done.undecided]
  · rw [out, done.out n inner]
  · obtain ⟨added, addedOut, free, -⟩ := back n
    rw [out, out_linkBlocks links, addedOut, writtenOut, isStop] at member
    exact free t member
  · obtain ⟨r, known, rfl, -⟩ := stop_owner laid isStop
    have inside : 2 * r + 1 < written.states.size := by
      by_contra outside
      have kind := sameWritten.isRuleStop (2 * r + 1)
      rw [state_of_le (Nat.not_lt.1 outside), isStop] at kind
      cases kind
    have added : (addReturns written).out (2 * r + 1) = written.out (2 * r + 1) ++
        edgesFrom (2 * r + 1) (written.states.toList.flatMap fun s =>
          s.transitions.filterMap (returnEdge? written)) := written.addEdges_out _ inside
    rw [out, out_linkBlocks links, added, writtenOut, isStop, if_pos rfl, List.nil_append, states_toList,
      List.flatMap_map]
    have starts : written.ruleStarts = net.ruleStarts := by
      rw [show written = _ from tabled.addEdges_eq _]
      exact entered.ruleStarts
    have stops : written.ruleStops = net.ruleStops := by
      rw [show written = _ from tabled.addEdges_eq _]
      exact entered.stops_eq laid
    refine congrArg (edgesFrom (2 * r + 1)) (ways_eq sameWritten starts stops (fun n inner => ?_) (endsFree laid)
      fun n isStop t member => ?_)
    · rw [writtenOut, inner]
      rfl
    · rw [writtenOut, ← sameWritten.isRuleStop, isStop] at member
      cases member

end Layout

end AdaptiveLL
