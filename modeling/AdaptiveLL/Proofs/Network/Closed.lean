import AdaptiveLL.Proofs.Network.Reencoding

/-!
# Accepted networks are closed

The words of a network can name any state anywhere. Some references are checked where they are read, others
only by the verification at the end, and in between the reader adds links, transitions and marks of its own.
Of what passes all that, every reference leads to a state that is there and is of the kind that is asked for,
the links between blocks, their ends and the ways back of loops agree in both directions, and each call has
its return (`decode_closed`).

The links come about state by state. `LinkedBelow` is what holds of them when the states below a number have
been linked; what follows the links only marks the loops of left-recursive rules (`StateKind.Marks`).
-/

set_option autoImplicit false

namespace AdaptiveLL

/-- Every reference of the network leads to what is there, and what links one state to another links that
one back. -/
structure Network.Closed (net : Network) : Prop where
  number : ∀ n < net.states.size, (net.state n).number = n
  target : ∀ n, ∀ t ∈ net.out n, t.target < net.states.size
  call : ∀ n, ∀ t ∈ net.out n, ∀ r p follow, t.label = .rule r p follow →
    (net.state t.target).kind.isRuleStart = true ∧ r < net.numRules ∧ follow < net.states.size
  decision : ∀ n ∈ net.decisions, n < net.states.size ∧ (net.state n).kind.isDecision = true
  ruleStart : ∀ r < net.numRules,
    net.ruleStart r < net.states.size ∧ (net.state (net.ruleStart r)).kind.isRuleStart = true
  modeStart : ∀ n ∈ net.modeStarts, n < net.states.size ∧ (net.state n).kind = .tokenStart
  blockStart : ∀ n block stop, (net.state n).kind = .blockStart block stop →
    ∃ e, stop = some e ∧ (net.state e).kind = .blockEnd (some n)
  blockEnd : ∀ n start, (net.state n).kind = .blockEnd start →
    ∃ s block, start = some s ∧ (net.state s).kind = .blockStart block (some n)
  loopEntry : ∀ n back precedence, (net.state n).kind = .starLoopEntry back precedence →
    ∃ b t, back = some b ∧ (net.state b).kind = .starLoopBack ∧ net.out b = [t] ∧ t.target = n
  loopEnd : ∀ n back, (net.state n).kind = .loopEnd back → ∃ b < net.states.size, back = some b
  epsilonOnly : ∀ n, (net.state n).epsilonOnly = true ↔
    net.out n ≠ [] ∧ ∀ t ∈ net.out n, t.label.isEpsilon = true
  /-- A return names the rule exactly if that is left-recursive and was called at precedence 0. -/
  returns : ∀ n, ∀ t ∈ net.out n, ∀ r p follow, t.label = .rule r p follow →
    ∀ stop, net.ruleStop? r = some stop →
      ⟨follow, .epsilon (if (net.state (net.ruleStart r)).kind.isLeftRecursiveStart = true ∧ p = 0
        then some r else none)⟩ ∈ net.out stop

/-- The kinds are the same, but the second may mark a loop as that of a left-recursive rule. -/
inductive StateKind.Marks : StateKind → StateKind → Prop
  | same (k : StateKind) : Marks k k
  | loop (back : Option Nat) (precedence : Bool) :
    Marks (.starLoopEntry back precedence) (.starLoopEntry back true)

namespace StateKind.Marks

variable {k k' : StateKind}

/-- Only the entries of loops are marked. -/
theorem eq (marks : k.Marks k')
    (plain : (∀ back p, k ≠ .starLoopEntry back p) ∨ ∀ back p, k' ≠ .starLoopEntry back p) : k' = k := by
  cases marks with
  | same => rfl
  | loop back p =>
    rcases plain with plain | plain
    · exact absurd rfl (plain back p)
    · exact absurd rfl (plain back true)

/-- A marked entry has the link that it had. -/
theorem entry (marks : k.Marks k') {back : Option Nat} {p : Bool} (isEntry : k' = .starLoopEntry back p) :
    ∃ p, k = .starLoopEntry back p := by
  cases marks with
  | same => exact ⟨p, isEntry⟩
  | loop back p =>
    cases isEntry
    exact ⟨p, rfl⟩

end StateKind.Marks

theorem Transition.mem_of_casts {ts ts' : List Transition} {t : Transition}
    (same : ts'.map cast = ts.map cast) (member : t ∈ ts) : ∃ t' ∈ ts', t'.cast = t.cast := by
  have among : t.cast ∈ ts'.map cast := same ▸ List.mem_map_of_mem member
  exact List.mem_map.1 among

theorem Transition.eq_of_cast {t t' : Transition} (same : t'.cast = t.cast)
    (plain : ∀ r i c, t.label ≠ .action r i c) : t' = t := by
  rcases cast_cases same with same | ⟨target, r, i, i', c, c', rfl, -⟩
  · exact same
  · exact absurd rfl (plain r i c)

namespace Network

variable {net net' : Network}

theorem lt_size_of_kind {n : Nat} (valid : (net.state n).kind ≠ .invalid) : n < net.states.size := by
  by_contra outside
  exact valid (by rw [state_of_le (Nat.not_lt.1 outside)])

theorem lt_size_of_isRuleStart {n : Nat} (isStart : (net.state n).kind.isRuleStart = true) :
    n < net.states.size :=
  lt_size_of_kind fun invalid => by
    rw [invalid] at isStart
    cases isStart

theorem lt_size_of_isRuleStop {n : Nat} (isStop : (net.state n).kind.isRuleStop = true) :
    n < net.states.size :=
  lt_size_of_kind fun invalid => by
    rw [invalid] at isStop
    cases isStop

/-! ## Links -/

/-- The links when the states below `k` have been linked. -/
structure LinkedBelow (net : Network) (k : Nat) : Prop where
  ends : ∀ stop start, (net.state stop).kind = .blockEnd (some start) →
    ∃ block, (net.state start).kind = .blockStart block (some stop)
  starts : ∀ start < k, ∀ block stop, (net.state start).kind = .blockStart block (some stop) →
    (net.state stop).kind = .blockEnd (some start)
  entries : ∀ entry back precedence, (net.state entry).kind = .starLoopEntry (some back) precedence →
    (net.state back).kind = .starLoopBack ∧ ∃ t ∈ net.out back, t.target = entry

/-- The way back of a loop links itself to the entries that it leads to. -/
theorem kind_linkLoopEntries (net : Network) (k : Nat) (ts : List Transition) (n : Nat) :
    let linked := ts.foldl (fun net t => net.modifyState t.target (Decode.linkLoopEntry k)) net
    (linked.state n).kind = (net.state n).kind ∨
      ∃ back precedence, (net.state n).kind = .starLoopEntry back precedence ∧
        (linked.state n).kind = .starLoopEntry (some k) precedence ∧ ∃ t ∈ ts, t.target = n := by
  induction ts generalizing net with
  | nil => exact .inl rfl
  | cons t ts ih =>
    have first : ((net.modifyState t.target (Decode.linkLoopEntry k)).state n).kind = (net.state n).kind ∨
        ∃ back precedence, (net.state n).kind = .starLoopEntry back precedence ∧ t.target = n ∧
          ((net.modifyState t.target (Decode.linkLoopEntry k)).state n).kind =
            .starLoopEntry (some k) precedence := by
      by_cases here : n = t.target
      · subst here
        rcases Nat.lt_or_ge t.target net.states.size with inside | outside
        · rw [modifyState_state_same _ _ inside, Decode.linkLoopEntry]
          split
          · rename_i back precedence isEntry
            exact .inr ⟨back, precedence, isEntry, rfl, rfl⟩
          · exact .inl rfl
        · left
          rw [state_of_le outside, state_of_le (by simpa using outside)]
      · left
        rw [modifyState_state_of_ne _ _ here]
    rcases ih (net.modifyState t.target (Decode.linkLoopEntry k)) with later | ⟨back, precedence, before, after, later⟩
    · rcases first with same | ⟨back, precedence, isEntry, here, linked⟩
      · exact .inl (later.trans same)
      · exact .inr ⟨back, precedence, isEntry, later.trans linked, t, List.mem_cons_self, here⟩
    · obtain ⟨t', member, here⟩ := later
      right
      rcases first with same | ⟨back', precedence', isEntry, -, linked⟩
      · exact ⟨back, precedence, same ▸ before, after, t', List.mem_cons_of_mem _ member, here⟩
      · rw [linked] at before
        cases before
        exact ⟨back', precedence, isEntry, after, t', List.mem_cons_of_mem _ member, here⟩

/-- The end of a block is linked to its start. -/
theorem LinkedBelow.blockStart {k stop : Nat} {block : BlockKind} (linked : net.LinkedBelow k)
    (isStart : (net.state k).kind = .blockStart block (some stop)) (isEnd : (net.state stop).kind = .blockEnd none)
    (here : (net'.state stop).kind = .blockEnd (some k))
    (elsewhere : ∀ n, n ≠ stop → (net'.state n).kind = (net.state n).kind)
    (outs : ∀ n, net'.out n = net.out n) : net'.LinkedBelow (k + 1) := by
  have apart {n : Nat} (kind : (net.state n).kind ≠ .blockEnd none) : n ≠ stop := fun same => kind (same ▸ isEnd)
  have apart' {n : Nat} (kind : (net'.state n).kind ≠ .blockEnd (some k)) : n ≠ stop :=
    fun same => kind (same ▸ here)
  refine ⟨fun e start atEnd => ?_, fun start below block' e begins => ?_, fun entry back p isEntry => ?_⟩
  · by_cases isStop : e = stop
    · subst isStop
      rw [here] at atEnd
      cases atEnd
      exact ⟨block, (elsewhere _ (apart (by rw [isStart]; exact nofun))).trans isStart⟩
    · rw [elsewhere e isStop] at atEnd
      obtain ⟨block', begins⟩ := linked.ends e start atEnd
      exact ⟨block', (elsewhere _ (apart (by rw [begins]; exact nofun))).trans begins⟩
  · rw [elsewhere start (apart' (by rw [begins]; exact nofun))] at begins
    rcases Nat.lt_succ_iff_lt_or_eq.1 below with earlier | rfl
    · have atEnd := linked.starts start earlier block' e begins
      exact (elsewhere _ (apart (by rw [atEnd]; exact nofun))).trans atEnd
    · rw [isStart] at begins
      cases begins
      exact here
  · rw [elsewhere entry (apart' (by rw [isEntry]; exact nofun))] at isEntry
    obtain ⟨isBack, leads⟩ := linked.entries entry back p isEntry
    exact ⟨(elsewhere _ (apart (by rw [isBack]; exact nofun))).trans isBack, outs back ▸ leads⟩

/-- The entries of a loop are linked to the way back. -/
theorem LinkedBelow.loopBack {k : Nat} (linked : net.LinkedBelow k) (isBack : (net.state k).kind = .starLoopBack)
    (kinds : ∀ n, (net'.state n).kind = (net.state n).kind ∨
      ∃ back precedence, (net.state n).kind = .starLoopEntry back precedence ∧
        (net'.state n).kind = .starLoopEntry (some k) precedence ∧ ∃ t ∈ net.out k, t.target = n)
    (outs : ∀ n, net'.out n = net.out n) : net'.LinkedBelow (k + 1) := by
  have behind {n : Nat} (other : ∀ back p, (net.state n).kind ≠ .starLoopEntry back p) :=
    (kinds n).resolve_right fun ⟨back, p, isEntry, _⟩ => other back p isEntry
  have before {n : Nat} {kind : StateKind} (after : (net'.state n).kind = kind)
      (other : ∀ back p, kind ≠ .starLoopEntry back p) : (net.state n).kind = kind := by
    rcases kinds n with same | ⟨back, p, -, isEntry, -⟩
    · exact same.symm.trans after
    · exact absurd (after.symm.trans isEntry) (other _ _)
  refine ⟨fun e start atEnd => ?_, fun start below block e begins => ?_, fun entry back p isEntry => ?_⟩
  · obtain ⟨block, begins⟩ := linked.ends e start (before atEnd nofun)
    exact ⟨block, (behind (by rw [begins]; exact nofun)).trans begins⟩
  · have begun := before begins nofun
    rcases Nat.lt_succ_iff_lt_or_eq.1 below with earlier | rfl
    · have atEnd := linked.starts start earlier block e begun
      exact (behind (by rw [atEnd]; exact nofun)).trans atEnd
    · cases begun.symm.trans isBack
  · rcases kinds entry with same | ⟨back', p', -, isEntry', leads⟩
    · obtain ⟨isBack', leads⟩ := linked.entries entry back p (same.symm.trans isEntry)
      exact ⟨(behind (by rw [isBack']; exact nofun)).trans isBack', outs back ▸ leads⟩
    · cases isEntry.symm.trans isEntry'
      exact ⟨(behind (by rw [isBack]; exact nofun)).trans isBack, outs k ▸ leads⟩

/-- One more state is linked. -/
theorem LinkedBelow.linkBlock {k : Nat} (linked : net.LinkedBelow k) (run : Decode.linkBlock net k = .ok net') :
    net'.LinkedBelow (k + 1) := by
  have outs := (linkBlock_keeps run).2
  unfold Decode.linkBlock at run
  split at run
  · rename_i block stop isStart
    split at run
    · rename_i isEnd
      cases run
      refine linked.blockStart isStart isEnd ?_ (fun n other => ?_) outs
      · rw [modifyState_state_same _ _ (lt_size_of_kind (by rw [isEnd]; exact nofun))]
      · rw [modifyState_state_of_ne _ _ other]
    · cases run
    · cases run
  · rename_i isBack
    cases run
    exact linked.loopBack isBack (net.kind_linkLoopEntries k _) outs
  · rename_i notStart _
    cases run
    refine ⟨linked.ends, fun start below block e begins => ?_, linked.entries⟩
    rcases Nat.lt_succ_iff_lt_or_eq.1 below with earlier | rfl
    · exact linked.starts start earlier block e begins
    · exact absurd begins (notStart block e)

theorem linkedBelow_linkBlocks (run : Decode.linkBlocks net = .ok net') (before : net.LinkedBelow 0) :
    net'.LinkedBelow net.states.size :=
  foldlM_range_preserves (P := fun k net => net.LinkedBelow k) before
    (fun _ _ _ _ linked ran => linked.linkBlock ran) run

/-- None of the states is linked yet. -/
def Unlinked (net : Network) : Prop :=
  ∀ n, (∀ start, (net.state n).kind ≠ .blockEnd (some start)) ∧
    ∀ back precedence, (net.state n).kind ≠ .starLoopEntry (some back) precedence

theorem Unlinked.linkedBelow (unlinked : net.Unlinked) : net.LinkedBelow 0 :=
  ⟨fun stop start atEnd => absurd atEnd ((unlinked stop).1 start),
    fun start below => absurd below (Nat.not_lt_zero start),
    fun entry back p isEntry => absurd isEntry ((unlinked entry).2 back p)⟩

theorem Unlinked.of_kinds (unlinked : net.Unlinked) (kinds : ∀ n, (net'.state n).kind = (net.state n).kind) :
    net'.Unlinked := fun n => by rw [kinds n]; exact unlinked n

theorem unlinked_skeleton (net : Network) : net.skeleton.Unlinked := by
  intro n
  rw [skeleton_state]
  show (∀ start, (net.state n).kind.bare ≠ _) ∧ ∀ back p, (net.state n).kind.bare ≠ _
  cases (net.state n).kind <;> exact ⟨nofun, nofun⟩

theorem Unlinked.enterStop (unlinked : net.Unlinked) {n : Nat} (run : Decode.enterStop net n = .ok net') :
    net'.Unlinked := by
  unfold Decode.enterStop at run
  split at run
  · split at run
    · cases run
    · split at run
      · rename_i r _ _
        cases run
        intro m
        show (∀ start, ((net.modifyState (net.ruleStart r) (Decode.linkStop n)).state m).kind ≠ _) ∧
          ∀ back p, ((net.modifyState (net.ruleStart r) (Decode.linkStop n)).state m).kind ≠ _
        by_cases here : m = net.ruleStart r
        · subst here
          rcases Nat.lt_or_ge (net.ruleStart r) net.states.size with inside | outside
          · rw [modifyState_state_same _ _ inside, Decode.linkStop]
            split
            · exact ⟨nofun, nofun⟩
            · exact unlinked _
          · rw [state_of_le (by simpa using outside)]
            exact ⟨nofun, nofun⟩
        · rw [modifyState_state_of_ne _ _ here]
          exact unlinked m
      · cases run
  · cases run
    exact unlinked

theorem kind_addEdges (net : Network) (edges : List (Nat × Transition)) (n : Nat) :
    ((net.addEdges edges).state n).kind = (net.state n).kind := by
  rcases Nat.lt_or_ge n net.states.size with inside | outside
  · rw [addEdges_state _ _ inside]
  · rw [state_of_le outside, state_of_le (by rwa [addEdges_size])]

/-- Marks and what lies beside the kinds do not change the links. -/
theorem LinkedBelow.of_marks {k : Nat} (linked : net.LinkedBelow k)
    (marks : ∀ n, (net.state n).kind.Marks (net'.state n).kind)
    (casts : ∀ n, (net'.out n).map Transition.cast = (net.out n).map Transition.cast) :
    net'.LinkedBelow k := by
  have before {n : Nat} {kind : StateKind} (after : (net'.state n).kind = kind)
      (plain : ∀ back p, kind ≠ .starLoopEntry back p) : (net.state n).kind = kind :=
    ((marks n).eq (.inr (after ▸ plain))).symm.trans after
  have behind {n : Nat} {kind : StateKind} (was : (net.state n).kind = kind)
      (plain : ∀ back p, kind ≠ .starLoopEntry back p) : (net'.state n).kind = kind :=
    ((marks n).eq (.inl (was ▸ plain))).trans was
  refine ⟨fun stop start atEnd => ?_, fun start below block stop begins => ?_, fun entry back p isEntry => ?_⟩
  · obtain ⟨block, begins⟩ := linked.ends stop start (before atEnd nofun)
    exact ⟨block, behind begins nofun⟩
  · exact behind (linked.starts start below block stop (before begins nofun)) nofun
  · obtain ⟨p, wasEntry⟩ := (marks entry).entry isEntry
    obtain ⟨isBack, t, member, leads⟩ := linked.entries entry back p wasEntry
    obtain ⟨t', member', same⟩ := Transition.mem_of_casts (casts back) member
    exact ⟨behind isBack nofun, t', member', (Transition.cast_target same).trans leads⟩

/-! ## Returns -/

theorem lt_size_of_mem_out {n : Nat} {t : Transition} (member : t ∈ net.out n) : n < net.states.size := by
  by_contra outside
  rw [out_of_le (Nat.not_lt.1 outside)] at member
  cases member

theorem mem_out_addReturns {n : Nat} {t : Transition} : t ∈ (Decode.addReturns net).out n ↔
    t ∈ net.out n ∨ n < net.states.size ∧
      ∃ m, ∃ call ∈ net.out m, Decode.returnEdge? net call = some (n, t) := by
  rcases Nat.lt_or_ge n net.states.size with inside | outside
  · rw [Decode.addReturns, ← addEdges, addEdges_out _ _ inside, List.mem_append, mem_edgesFrom,
      states_toList, List.flatMap_map]
    refine or_congr_right ?_
    constructor
    · intro member
      obtain ⟨m, -, here⟩ := List.mem_flatMap.1 member
      obtain ⟨call, called, returns⟩ := List.mem_filterMap.1 here
      exact ⟨inside, m, call, called, returns⟩
    · rintro ⟨-, m, call, called, returns⟩
      refine List.mem_flatMap.2 ⟨m, List.mem_range.2 (lt_size_of_mem_out called), ?_⟩
      exact List.mem_filterMap.2 ⟨call, called, returns⟩
  · have none' : (Decode.addReturns net).out n = [] := by
      rw [Decode.addReturns, ← addEdges]
      exact out_of_le (by rwa [addEdges_size])
    rw [none', out_of_le outside]
    simp [Nat.not_lt.2 outside]

/-- A way back from a call asks for nothing. -/
theorem label_of_returnEdge {call t : Transition} {n : Nat}
    (returns : Decode.returnEdge? net call = some (n, t)) :
    ∃ r p outermost, call.label = .rule r p t.target ∧ t.label = .epsilon outermost := by
  obtain ⟨target, label⟩ := call
  cases label with
  | rule r p follow =>
    obtain ⟨stop, -, same⟩ := Option.map_eq_some_iff.1 returns
    cases same
    exact ⟨r, p, _, rfl, rfl⟩
  | _ => cases returns

/-! ## Marks -/

theorem kind_mark (net : Network) (n : Nat) :
    (net.state n).kind.Marks ((Decode.mark net).state n).kind := by
  have refreshed : (({ net with states := net.states.map State.refresh } : Network).state n).kind =
      (net.state n).kind := mapStates_keeps net State.refresh (·.kind) (fun _ => rfl) n
  have marked (s : State) : s.kind.Marks (Decode.markPrecedence
      { net with states := net.states.map State.refresh } s).kind := by
    unfold Decode.markPrecedence
    split
    · rename_i back p isEntry
      split
      · rw [isEntry]
        exact .loop back p
      · exact .same _
    · exact .same _
  rw [Decode.mark, mapStates_state, ← refreshed]
  split
  · exact marked _
  · exact .same _

theorem epsilonOnly_mark (net : Network) (n : Nat) : ((Decode.mark net).state n).epsilonOnly = true ↔
    (Decode.mark net).out n ≠ [] ∧ ∀ t ∈ (Decode.mark net).out n, t.label.isEpsilon = true := by
  rw [out_mark]
  have kept := mapStates_keeps { net with states := net.states.map State.refresh }
    (Decode.markPrecedence { net with states := net.states.map State.refresh }) (·.epsilonOnly)
    (fun s => by unfold Decode.markPrecedence; split <;> [split; skip] <;> rfl) n
  rw [show ((Decode.mark net).state n).epsilonOnly = _ from kept, mapStates_state]
  split
  · simp [State.refresh, out]
  · rename_i outside
    rw [state_of_le (Nat.not_lt.1 outside), out_of_le (Nat.not_lt.1 outside)]
    simp

/-! ## Verification -/

/-- In a network without faults no state has a fault of its kind. -/
theorem kindFault?_of_verified (verified : net.fault? = none) {n : Nat} (inside : n < net.states.size) :
    net.kindFault? (net.state n) = none := by
  have member : net.state n ∈ net.states.toList := by
    rw [state_of_lt inside]
    exact Array.mem_toList_iff.2 (Array.getElem_mem inside)
  have faultless := List.findSome?_eq_none_iff.1 verified _ member
  unfold stateFault? at faultless
  split at faultless
  · rename_i isInvalid
    rw [kindFault?, beq_iff_eq.1 isInvalid]
  · split at faultless
    · cases faultless
    · exact (Option.or_eq_none_iff.1 faultless).1

/-- The way back of a loop without a fault has one transition. -/
theorem only_of_loopBack {n : Nat} (isBack : (net.state n).kind = .starLoopBack)
    (faultless : net.kindFault? (net.state n) = none) : ∃ t, net.out n = [t] := by
  rw [kindFault?, isBack] at faultless
  unfold out
  cases transitions : (net.state n).transitions with
  | nil => simp [transitions] at faultless
  | cons t rest =>
    cases rest with
    | nil => exact ⟨t, rfl⟩
    | cons t' rest => simp [transitions] at faultless

/-! ### Links of networks without faults -/

section Verified

variable {k n : Nat} (verified : net.fault? = none)
include verified

theorem blockStart_of_verified (linked : net.LinkedBelow net.states.size) {block : BlockKind} {stop : Option Nat}
    (begins : (net.state n).kind = .blockStart block stop) :
    ∃ e, stop = some e ∧ (net.state e).kind = .blockEnd (some n) := by
  have inside : n < net.states.size := lt_size_of_kind (by rw [begins]; exact nofun)
  have checked := kindFault?_of_verified verified inside
  cases stop with
  | none =>
    rw [kindFault?, begins] at checked
    cases checked
  | some e => exact ⟨e, rfl, linked.starts n inside block e begins⟩

theorem blockEnd_of_verified (linked : net.LinkedBelow k) {start : Option Nat}
    (ends : (net.state n).kind = .blockEnd start) :
    ∃ s block, start = some s ∧ (net.state s).kind = .blockStart block (some n) := by
  have checked := kindFault?_of_verified verified (lt_size_of_kind (by rw [ends]; exact nofun))
  cases start with
  | none =>
    rw [kindFault?, ends] at checked
    cases checked
  | some s =>
    obtain ⟨block, begins⟩ := linked.ends n s ends
    exact ⟨s, block, rfl, begins⟩

theorem loopEntry_of_verified (linked : net.LinkedBelow k) {back : Option Nat} {precedence : Bool}
    (isEntry : (net.state n).kind = .starLoopEntry back precedence) :
    ∃ b t, back = some b ∧ (net.state b).kind = .starLoopBack ∧ net.out b = [t] ∧ t.target = n := by
  have checked := kindFault?_of_verified verified (lt_size_of_kind (by rw [isEntry]; exact nofun))
  cases back with
  | none =>
    rw [kindFault?, isEntry] at checked
    cases checked
  | some b =>
    obtain ⟨isBack, t, member, leads⟩ := linked.entries n b precedence isEntry
    have alone := kindFault?_of_verified verified (lt_size_of_kind (n := b) (by rw [isBack]; exact nofun))
    obtain ⟨t', only⟩ := only_of_loopBack isBack alone
    rw [only, List.mem_singleton] at member
    exact ⟨b, t', rfl, isBack, only, member ▸ leads⟩

theorem loopEnd_of_verified {back : Option Nat} (isEnd : (net.state n).kind = .loopEnd back) :
    ∃ b, back = some b := by
  have checked := kindFault?_of_verified verified (lt_size_of_kind (by rw [isEnd]; exact nofun))
  cases back with
  | none =>
    rw [kindFault?, isEnd] at checked
    cases checked
  | some b => exact ⟨b, rfl⟩

end Verified

end Network

namespace Decode

open Network

variable {base linked acted : Network} {edges : List (Nat × Transition)} {ds : List Nat}

/-! ## Networks that were read -/

theorem Listed.unlinked (listed : Listed base edges) : base.Unlinked := by
  obtain ⟨stopped, stops, same⟩ := listed.stops
  have unlinked : stopped.Unlinked := foldlM_preserves _ (P := Unlinked) base.unlinked_skeleton
    (fun _ _ _ inv ran => inv.enterStop ran) stops
  rw [same]
  exact unlinked

theorem kind_decided (linked : Network) (ds : List Nat) (n : Nat) :
    ((decided linked ds).state n).kind = (linked.state n).kind := by
  induction ds generalizing linked with
  | nil => rfl
  | cons d ds ih =>
    refine (ih (linked.defineDecision d).2).trans ?_
    exact modifyState_keeps linked d (fun s => { s with decision := some linked.decisions.size }) (·.kind)
      (fun _ => rfl) n

theorem linkedBelow_completed (listed : Listed base edges)
    (links : linkBlocks (addReturns (base.addEdges edges)) = .ok linked)
    (acts : Acts (decided linked ds) acted) : (mark acted).LinkedBelow base.states.size := by
  have unlinked : (addReturns (base.addEdges edges)).Unlinked :=
    (listed.unlinked.of_kinds (base.kind_addEdges edges)).of_kinds (kind_addEdges _ _)
  have size : (addReturns (base.addEdges edges)).states.size = base.states.size := by
    rw [addReturns, ← addEdges, addEdges_size, addEdges_size]
  refine (size ▸ linkedBelow_linkBlocks links unlinked.linkedBelow).of_marks (fun n => ?_) fun n => ?_
  · rw [← kind_decided linked ds, ← acts.recast.kindAt]
    exact kind_mark acted n
  · rw [out_mark, acts.recast.casts, show (decided linked ds).out n = linked.out n from
      (decisions_foldl linked ds).2 n]

theorem casts_completed (links : linkBlocks (addReturns (base.addEdges edges)) = .ok linked)
    (acts : Acts (decided linked ds) acted) (n : Nat) : ((mark acted).out n).map Transition.cast =
      ((addReturns (base.addEdges edges)).out n).map Transition.cast := by
  rw [out_mark, acts.recast.casts, show (decided linked ds).out n = linked.out n from
    (decisions_foldl linked ds).2 n, out_linkBlocks links]

theorem ruleStops_decided (linked : Network) (ds : List Nat) :
    (decided linked ds).ruleStops = linked.ruleStops := by
  induction ds generalizing linked with
  | nil => rfl
  | cons d ds ih => exact ih (linked.defineDecision d).2

theorem ruleStops_completed (links : linkBlocks (addReturns (base.addEdges edges)) = .ok linked)
    (acts : Acts (decided linked ds) acted) : (mark acted).ruleStops = base.ruleStops := by
  calc (mark acted).ruleStops = (decided linked ds).ruleStops := acts.recast.ruleStops
    _ = linked.ruleStops := ruleStops_decided linked ds
    _ = (addReturns (base.addEdges edges)).ruleStops := by rw [linkBlocks_eq links]
    _ = base.ruleStops := by rw [addReturns, ← addEdges, addEdges_eq, addEdges_eq]

theorem grounded_completed (listed : Listed base edges)
    (links : linkBlocks (addReturns (base.addEdges edges)) = .ok linked)
    (acts : Acts (decided linked ds) acted) : (mark acted).Grounded := by
  have tables := sameTables_completed links acts
  exact listed.grounded.of_same (sameBare_completed links acts) tables.kind tables.ruleStarts tables.ruleTypes
    tables.modeStarts

/-- A transition was listed, or it is the way back from a call that was listed. -/
theorem Listed.transition (listed : Listed base edges) {n : Nat} {t : Transition}
    (member : t ∈ (addReturns (base.addEdges edges)).out n) : (n, t) ∈ edges ∨
      ∃ m call r p outermost, (m, call) ∈ edges ∧ call.label = .rule r p t.target ∧
        t.label = .epsilon outermost := by
  rcases mem_out_addReturns.1 member with written | ⟨-, m, call, called, returns⟩
  · rw [listed.out_addEdges] at written
    exact .inl (mem_edgesFrom.1 written)
  · rw [listed.out_addEdges] at called
    obtain ⟨r, p, outermost, label, free⟩ := label_of_returnEdge returns
    exact .inr ⟨m, call, r, p, outermost, mem_edgesFrom.1 called, label, free⟩

theorem target_completed (listed : Listed base edges)
    (links : linkBlocks (addReturns (base.addEdges edges)) = .ok linked)
    (acts : Acts (decided linked ds) acted) {n : Nat} {t : Transition} (member : t ∈ (mark acted).out n) :
    t.target < base.states.size := by
  obtain ⟨t', member', same⟩ := Transition.mem_of_casts (casts_completed links acts n).symm member
  rw [← Transition.cast_target same]
  rcases listed.transition member' with written | ⟨m, call, r, p, -, called, label, -⟩
  · exact (listed.joins _ written).readable.target
  · exact ((listed.joins _ called).readable.call r p _ label).2.2

/-- A call was listed. -/
theorem call_completed (listed : Listed base edges)
    (links : linkBlocks (addReturns (base.addEdges edges)) = .ok linked)
    (acts : Acts (decided linked ds) acted) {n : Nat} {t : Transition} (member : t ∈ (mark acted).out n)
    {r : Nat} {p : Int} {follow : Nat} (label : t.label = .rule r p follow) : (n, t) ∈ edges := by
  obtain ⟨t', member', same⟩ := Transition.mem_of_casts (casts_completed links acts n).symm member
  obtain rfl : t' = t := Transition.eq_of_cast same fun r i c => by rw [label]; exact nofun
  rcases listed.transition member' with written | ⟨-, -, -, -, outermost, -, -, free⟩
  · exact written
  · cases label.symm.trans free

/-- The way back from a call stands at the stop state of the rule. -/
theorem returns_completed (listed : Listed base edges)
    (links : linkBlocks (addReturns (base.addEdges edges)) = .ok linked)
    (acts : Acts (decided linked ds) acted) {n : Nat} {call : Transition} (written : (n, call) ∈ edges)
    {stop : Nat} {t : Transition} (free : ∃ outermost, t.label = .epsilon outermost)
    (returns : returnEdge? (base.addEdges edges) call = some (stop, t)) (inside : stop < base.states.size) :
    t ∈ (mark acted).out stop := by
  have member : t ∈ (addReturns (base.addEdges edges)).out stop := by
    refine mem_out_addReturns.2 (.inr ⟨by rwa [addEdges_size], n, call, ?_, returns⟩)
    rw [listed.out_addEdges]
    exact mem_edgesFrom.2 written
  obtain ⟨t', member', same⟩ := Transition.mem_of_casts (casts_completed links acts stop) member
  obtain ⟨outermost, free⟩ := free
  obtain rfl : t' = t := Transition.eq_of_cast same fun r i c => by rw [free]; exact nofun
  exact member'

end Decode

namespace Network

variable {net : Network} {words : List Word}

/-- A network that was accepted is closed. -/
theorem decode_closed (decoded : decode words true = .ok net) : net.Closed := by
  obtain ⟨f, base, edges, -, -, listed, completed, sound⟩ := decode_steps decoded
  obtain ⟨linked, ds, acted, links, known, acts, rfl⟩ := completed.steps
  have same := Decode.sameBare_completed links acts
  have tables := Decode.sameTables_completed links acts
  have grounded := Decode.grounded_completed listed links acts
  have linkedBelow := Decode.linkedBelow_completed listed links acts
  have numRules : (Decode.mark acted).numRules = base.numRules := by
    rw [Network.numRules, tables.ruleStarts, Network.numRules]
  rw [← same.size] at linkedBelow
  refine {
    number := grounded.number
    target := fun n t member => ?target
    call := fun n t member r p follow label => ?call
    decision := fun n member => ?decision
    ruleStart := fun r inside => ?ruleStart
    modeStart := fun n member => ?modeStart
    blockStart := fun _ _ _ begins => blockStart_of_verified (sound rfl) linkedBelow begins
    blockEnd := fun _ _ ends => blockEnd_of_verified (sound rfl) linkedBelow ends
    loopEntry := fun _ _ _ isEntry => loopEntry_of_verified (sound rfl) linkedBelow isEntry
    loopEnd := fun n back isEnd => ?loopEnd
    epsilonOnly := epsilonOnly_mark acted
    returns := fun n t member r p follow label stop known => ?returns }
  case target =>
    rw [same.size]
    exact Decode.target_completed listed links acts member
  case call =>
    have written := Decode.call_completed listed links acts member label
    have call := (listed.joins _ written).readable.call r p follow label
    rwa [same.isRuleStart, same.size, numRules]
  case decision =>
    rw [Decode.decisions_completed listed links acts] at member
    have linkedSame : SameBare linked (Decode.mark acted) :=
      (sameBare_defineDecisions linked ds).trans (acts.recast.sameBare.trans (sameBare_mark acted))
    rw [linkedSame.size, linkedSame.isDecision]
    exact known n (List.mem_toArray.1 member)
  case ruleStart =>
    have isStart := grounded.ruleStart r inside
    exact ⟨lt_size_of_isRuleStart isStart, isStart⟩
  case modeStart =>
    have isMode := grounded.modeStart n (Array.mem_toList_iff.2 member)
    exact ⟨lt_size_of_kind (by simp [isMode]), isMode⟩
  case loopEnd =>
    obtain ⟨b, rfl⟩ := loopEnd_of_verified (sound rfl) isEnd
    exact ⟨b, grounded.loopLink n b (by rw [isEnd]; rfl), rfl⟩
  case returns =>
    have written := Decode.call_completed listed links acts member label
    rw [ruleStop?, Decode.ruleStops_completed links acts] at known
    have inside : stop < base.states.size := lt_size_of_isRuleStop (listed.ruleStop r stop known)
    refine Decode.returns_completed listed links acts written ⟨_, rfl⟩ ?_ inside
    have start : (base.addEdges edges).ruleStart r = (Decode.mark acted).ruleStart r := by
      rw [ruleStart, ruleStart, tables.ruleStarts, addEdges_eq]
    have entered : (base.addEdges edges).ruleStop? r = some stop := by
      rw [ruleStop?, addEdges_eq]
      exact known
    have leftRecursive : ((base.addEdges edges).state ((Decode.mark acted).ruleStart r)).kind.isLeftRecursiveStart =
        ((Decode.mark acted).state ((Decode.mark acted).ruleStart r)).kind.isLeftRecursiveStart := by
      rw [kind_addEdges, same.isLeftRecursiveStart]
    simp only [Decode.returnEdge?, label, entered, start, leftRecursive, Option.map_some, Bool.and_eq_true,
      beq_iff_eq]

/-- A rule that calls a left-recursive one in a loop. -/
def loopWords : List Word :=
  formatVersion :: identifierWords Format.current.identifier ++
    [1, 1, 11, 2, 0, 7, 0, 2, 1, 7, 1, 10, 0, 5, 0, 6, 8, 0, 12, 0, 8, 9, 0, 1, 0, 1, 1, 0, 1, 2, 2, 0, 2,
      0, 0, 0, 10, 0, 4, 1, 0, 0, 0, 4, 5, 1, 0, 0, 0, 4, 7, 1, 0, 0, 0, 5, 9, 1, 0, 0, 0, 9, 6, 3, 2, 1, 0,
      6, 8, 1, 0, 0, 0, 8, 4, 1, 0, 0, 0, 7, 1, 1, 0, 0, 0, 2, 10, 5, 1, 0, 0, 10, 3, 1, 0, 0, 0, 2, 4, 5]

/-- What is read from `loopWords`. -/
def loopNetwork : Network where
  kind := .parser
  maxTokenType := 1
  states := #[
    { number := 0, rule := some 0, kind := .ruleStart (some 1) false, transitions := [.epsilon 4],
      epsilonOnly := true },
    { number := 1, rule := some 0, kind := .ruleStop },
    { number := 2, rule := some 1, kind := .ruleStart (some 3) true, transitions := [⟨10, .atom 1⟩] },
    { number := 3, rule := some 1, kind := .ruleStop, transitions := [⟨6, .epsilon (some 1)⟩],
      epsilonOnly := true },
    { number := 4, rule := some 0, kind := .starLoopEntry (some 8) false,
      transitions := [.epsilon 5, .epsilon 7], epsilonOnly := true, decision := some 0 },
    { number := 5, rule := some 0, kind := .blockStart .star (some 6), transitions := [.epsilon 9],
      epsilonOnly := true, decision := some 1 },
    { number := 6, rule := some 0, kind := .blockEnd (some 5), transitions := [.epsilon 8],
      epsilonOnly := true },
    { number := 7, rule := some 0, kind := .loopEnd (some 8), transitions := [.epsilon 1],
      epsilonOnly := true },
    { number := 8, rule := some 0, kind := .starLoopBack, transitions := [.epsilon 4],
      epsilonOnly := true },
    { number := 9, rule := some 0, kind := .basic, transitions := [⟨2, .rule 1 0 6⟩],
      epsilonOnly := true },
    { number := 10, rule := some 1, kind := .basic, transitions := [.epsilon 3], epsilonOnly := true }]
  decisions := #[4, 5]
  ruleStarts := #[0, 2]
  ruleStops := #[some 1, some 3]

theorem decode_closed_loop : decode loopWords true = .ok loopNetwork ∧ loopNetwork.Closed := by
  have decoded : decode loopWords true = .ok loopNetwork := by decide +kernel
  exact ⟨decoded, decode_closed decoded⟩

end Network

end AdaptiveLL
