import AdaptiveLL.Proofs.Network.Skeleton

/-!
# Networks that differ in their actions

A format without a table of actions names custom actions on the transitions, and the reader gives each
such transition a place in a table that it builds. The network before and the one after are recast of
each other (`Network.Recast`): they agree in all but what the actions on their transitions name. What
the reader derives follows from the rest, so it derives the same from both.
-/

set_option autoImplicit false

namespace AdaptiveLL

/-! ## Transitions -/

/-- The transition without what an action names. -/
def Transition.cast (t : Transition) : Transition :=
  match t.label with
  | .action rule _ _ => ⟨t.target, .action rule none false⟩
  | _ => t

namespace Transition

variable {t t' : Transition}

/-- Transitions of one cast are equal, or they are actions of one rule with one target. -/
theorem cast_cases (same : t'.cast = t.cast) : t' = t ∨ ∃ target r i i' c c',
    t = ⟨target, .action r i c⟩ ∧ t' = ⟨target, .action r i' c'⟩ := by
  obtain ⟨target, label⟩ := t
  obtain ⟨target', label'⟩ := t'
  cases label <;> cases label' <;> simp_all [cast]

theorem cast_target (same : t'.cast = t.cast) : t'.target = t.target := by
  rcases cast_cases same with rfl | ⟨target, r, i, i', c, c', rfl, rfl⟩ <;> rfl

/-- What does not look at actions does the same with transitions of the same casts. -/
theorem filterMap_of_cast {α : Type} {f : Transition → Option α} (blind : ∀ t, f t.cast = f t)
    {ts ts' : List Transition} (same : ts'.map cast = ts.map cast) :
    ts'.filterMap f = ts.filterMap f := by
  have through (ts : List Transition) : (ts.map cast).filterMap f = ts.filterMap f := by
    rw [List.filterMap_map]
    exact List.filterMap_congr fun t _ => blind t
  rw [← through ts', same, through]

theorem eq_of_casts {ts ts' : List Transition} (same : ts'.map cast = ts.map cast)
    (plain : ∀ t ∈ ts, ∀ r i c, t.label ≠ .action r i c) : ts' = ts := by
  induction ts generalizing ts' with
  | nil => simpa using same
  | cons t ts ih =>
    cases ts' with
    | nil => cases same
    | cons t' ts' =>
      simp only [List.map_cons, List.cons.injEq] at same
      rw [ih same.2 fun t member => plain t (by simp [member])]
      rcases cast_cases same.1 with here | ⟨target, r, i, i', c, c', rfl, -⟩
      · rw [here]
      · exact absurd rfl (plain ⟨target, .action r i c⟩ (by simp) r i c)

end Transition

/-! ## Networks -/

namespace Network

/-- The networks agree in all but the actions on their transitions. -/
structure Recast (net net' : Network) : Prop where
  size : net'.states.size = net.states.size
  state : ∀ n, net'.state n = { net.state n with transitions := net'.out n }
  casts : ∀ n, (net'.out n).map Transition.cast = (net.out n).map Transition.cast
  kind : net'.kind = net.kind
  ruleStarts : net'.ruleStarts = net.ruleStarts
  ruleStops : net'.ruleStops = net.ruleStops
  decisions : net'.decisions = net.decisions

variable {net net' : Network}

theorem states_toList (net : Network) : net.states.toList = (List.range net.states.size).map net.state := by
  refine List.ext_getElem (by simp) fun i bound _ => ?_
  rw [Array.length_toList] at bound
  simp [state_of_lt bound]

namespace Recast

theorem refl (net : Network) : net.Recast net := ⟨rfl, fun _ => rfl, fun _ => rfl, rfl, rfl, rfl, rfl⟩

theorem sameBare (recast : net.Recast net') : SameBare net net' := by
  refine Array.ext (by simp [recast.size]) fun n inside' inside => ?_
  have known : n < net.states.size := by simpa using inside
  have known' : n < net'.states.size := by simpa using inside'
  rw [Array.getElem_map, Array.getElem_map, ← state_of_lt known, ← state_of_lt known', recast.state n]
  rfl

theorem kindAt (recast : net.Recast net') (n : Nat) : (net'.state n).kind = (net.state n).kind := by
  rw [recast.state n]

theorem of_state (size : net'.states.size = net.states.size)
    (state : ∀ n < net.states.size, net'.state n = { net.state n with transitions := net'.out n })
    (casts : ∀ n < net.states.size, (net'.out n).map Transition.cast = (net.out n).map Transition.cast)
    (kind : net'.kind = net.kind) (ruleStarts : net'.ruleStarts = net.ruleStarts)
    (ruleStops : net'.ruleStops = net.ruleStops) (decisions : net'.decisions = net.decisions) :
    net.Recast net' := by
  refine ⟨size, fun n => ?_, fun n => ?_, kind, ruleStarts, ruleStops, decisions⟩
  · rcases Nat.lt_or_ge n net.states.size with inside | outside
    · exact state n inside
    · rw [state_of_le (size ▸ outside), state_of_le outside, out_of_le (size ▸ outside)]
  · rcases Nat.lt_or_ge n net.states.size with inside | outside
    · exact casts n inside
    · rw [out_of_le (size ▸ outside), out_of_le outside]

/-- The same edges are added to both. -/
theorem addEdges (recast : net.Recast net') (edges : List (Nat × Transition)) :
    (net.addEdges edges).Recast (net'.addEdges edges) := by
  have tables := net.addEdges_eq edges
  have tables' := net'.addEdges_eq edges
  refine of_state (by simp [recast.size]) (fun n inside => ?_) (fun n inside => ?_) ?_ ?_ ?_ ?_
  · rw [addEdges_size] at inside
    have inside' : n < net'.states.size := recast.size ▸ inside
    rw [addEdges_state _ _ inside', addEdges_state _ _ inside, addEdges_out _ _ inside', recast.state n]
  · rw [addEdges_size] at inside
    have inside' : n < net'.states.size := recast.size ▸ inside
    rw [addEdges_out _ _ inside', addEdges_out _ _ inside, List.map_append, List.map_append,
      recast.casts n]
  · rw [tables, tables']
    exact recast.kind
  · rw [tables, tables']
    exact recast.ruleStarts
  · rw [tables, tables']
    exact recast.ruleStops
  · rw [tables, tables']
    exact recast.decisions

/-- The calls are the same, so their returns are. -/
theorem returnEdge? (recast : net.Recast net') (t : Transition) :
    Decode.returnEdge? net' t = Decode.returnEdge? net t := by
  obtain ⟨target, label⟩ := t
  cases label with
  | rule r precedence follow =>
    have start : net'.ruleStart r = net.ruleStart r := by rw [ruleStart, ruleStart, recast.ruleStarts]
    have stop : net'.ruleStop? r = net.ruleStop? r := by rw [ruleStop?, ruleStop?, recast.ruleStops]
    simp only [Decode.returnEdge?]
    rw [start, stop, recast.kindAt]
  | _ => rfl

theorem returns (recast : net.Recast net') :
    (net'.states.toList.flatMap fun s => s.transitions.filterMap (Decode.returnEdge? net')) =
      net.states.toList.flatMap fun s => s.transitions.filterMap (Decode.returnEdge? net) := by
  have blind (t : Transition) : Decode.returnEdge? net t.cast = Decode.returnEdge? net t := by
    obtain ⟨target, label⟩ := t
    cases label <;> rfl
  rw [states_toList, states_toList, recast.size, List.flatMap_map, List.flatMap_map]
  refine List.flatMap_congr fun n _ => ?_
  rw [funext (recast.returnEdge?)]
  exact Transition.filterMap_of_cast blind (recast.casts n)

theorem addReturns (recast : net.Recast net') :
    (Decode.addReturns net).Recast (Decode.addReturns net') := by
  have edges := recast.returns
  unfold Decode.addReturns
  rw [edges]
  exact recast.addEdges _

/-- A change of one state that does not look at its transitions. -/
theorem modify (recast : net.Recast net') (m : Nat) (f : State → State)
    (blind : ∀ s ts, f { s with transitions := ts } = { f s with transitions := ts }) :
    (net.modifyState m f).Recast (net'.modifyState m f) := by
  have keeps (s : State) : (f s).transitions = s.transitions := by
    have := blind s s.transitions
    rw [this]
  refine of_state (by simp [recast.size]) (fun n inside => ?_) (fun n _ => ?_) recast.kind
    recast.ruleStarts recast.ruleStops recast.decisions
  · rw [modifyState_size] at inside
    have inside' : n < net'.states.size := recast.size ▸ inside
    rw [modifyState_out_of_keeps _ _ _ keeps]
    by_cases same : n = m
    · subst same
      rw [modifyState_state_same _ _ inside', modifyState_state_same _ _ inside, recast.state n, blind]
    · rw [modifyState_state_of_ne _ _ same, modifyState_state_of_ne _ _ same, recast.state n]
  · rw [modifyState_out_of_keeps _ _ _ keeps, modifyState_out_of_keeps _ _ _ keeps, recast.casts n]

theorem linkLoopEntries (recast : net.Recast net') (n : Nat) {ts ts' : List Transition}
    (same : ts'.map Transition.cast = ts.map Transition.cast) :
    (ts.foldl (fun net t => net.modifyState t.target (Decode.linkLoopEntry n)) net).Recast
      (ts'.foldl (fun net t => net.modifyState t.target (Decode.linkLoopEntry n)) net') := by
  have blind (s : State) (ts : List Transition) :
      Decode.linkLoopEntry n { s with transitions := ts } =
        { Decode.linkLoopEntry n s with transitions := ts } := by
    unfold Decode.linkLoopEntry
    dsimp only
    split <;> rfl
  induction ts generalizing ts' net net' with
  | nil =>
    obtain rfl : ts' = [] := by simpa using same
    exact recast
  | cons t ts ih =>
    cases ts' with
    | nil => cases same
    | cons t' ts' =>
      simp only [List.map_cons, List.cons.injEq] at same
      rw [List.foldl_cons, List.foldl_cons, Transition.cast_target same.1]
      exact ih (recast.modify t.target _ blind) same.2

theorem linkBlock {linked : Network} {n : Nat} (recast : net.Recast net')
    (run : Decode.linkBlock net n = .ok linked) :
    ∃ linked', Decode.linkBlock net' n = .ok linked' ∧ linked.Recast linked' := by
  unfold Decode.linkBlock at run ⊢
  rw [recast.kindAt n]
  split at run
  · rename_i block stop _
    rw [recast.kindAt stop]
    split at run
    · cases run
      exact ⟨_, rfl, recast.modify stop _ fun _ _ => rfl⟩
    · cases run
    · cases run
  · cases run
    exact ⟨_, rfl, recast.linkLoopEntries n (recast.casts n)⟩
  · cases run
    exact ⟨_, rfl, recast⟩

theorem linkBlocks {linked : Network} (recast : net.Recast net')
    (run : Decode.linkBlocks net = .ok linked) :
    ∃ linked', Decode.linkBlocks net' = .ok linked' ∧ linked.Recast linked' := by
  unfold Decode.linkBlocks at run ⊢
  rw [recast.size]
  generalize List.range net.states.size = ns at run
  induction ns generalizing net net' with
  | nil =>
    cases run
    exact ⟨net', rfl, recast⟩
  | cons n ns ih =>
    rw [List.foldlM_cons] at run ⊢
    obtain ⟨mid, first, rest⟩ := except_bind_ok.1 run
    obtain ⟨mid', first', recast'⟩ := recast.linkBlock first
    obtain ⟨linked', rest', recast''⟩ := ih recast' rest
    exact ⟨linked', except_bind_ok.2 ⟨mid', first', rest'⟩, recast''⟩

theorem defineDecisions (recast : net.Recast net') (ns : List Nat) :
    (ns.foldl (fun net n => (net.defineDecision n).2) net).Recast
      (ns.foldl (fun net n => (net.defineDecision n).2) net') := by
  induction ns generalizing net net' with
  | nil => exact recast
  | cons n ns ih =>
    refine ih ?_
    have changed := recast.modify n ({ · with decision := some net.decisions.size }) fun _ _ => rfl
    simp only [defineDecision, recast.decisions]
    exact ⟨changed.size, changed.state, changed.casts, changed.kind, changed.ruleStarts,
      changed.ruleStops, rfl⟩

end Recast

end Network

/-! ## Custom actions -/

namespace Decode

open Network

/-- The custom actions of states, one state behind the other. -/
def customStates (table : Array LexerAction) : List State → Array LexerAction × List State
  | [] => (table, [])
  | s :: rest =>
    let here := customTransitions table s.transitions
    let later := customStates here.1 rest
    (later.1, { s with transitions := here.2 } :: later.2)

theorem customActions_eq (net : Network) : customActions net =
    { net with
      actions := (customStates #[] net.states.toList).1
      states := (customStates #[] net.states.toList).2.toArray } := by
  have run (ss : List State) (table : Array LexerAction) (done : Array State) :
      ss.foldl (fun (p : Array LexerAction × Array State) s =>
        ((customTransitions p.1 s.transitions).1,
          p.2.push { s with transitions := (customTransitions p.1 s.transitions).2 })) (table, done) =
      ((customStates table ss).1, done ++ (customStates table ss).2.toArray) := by
    induction ss generalizing table done with
    | nil => simp [customStates]
    | cons s ss ih =>
      rw [List.foldl_cons, ih]
      simp [customStates]
  have whole := run net.states.toList #[] #[]
  rw [Array.foldl_toList, Array.empty_append] at whole
  have opened : customActions net =
      { net with
        actions := (net.states.foldl (fun (p : Array LexerAction × Array State) s =>
          ((customTransitions p.1 s.transitions).1,
            p.2.push { s with transitions := (customTransitions p.1 s.transitions).2 })) (#[], #[])).1
        states := (net.states.foldl (fun (p : Array LexerAction × Array State) s =>
          ((customTransitions p.1 s.transitions).1,
            p.2.push { s with transitions := (customTransitions p.1 s.transitions).2 })) (#[], #[])).2 } :=
    rfl
  rw [opened, whole]

/-- What transitions with custom actions become: actions by their places in a table that grows by
them. -/
structure Tabled (table table' : Array LexerAction) (ts ts' : List Transition) : Prop where
  grows : table.size ≤ table'.size
  casts : ts'.map Transition.cast = ts.map Transition.cast
  places : ∀ t ∈ ts', ∀ r i c, t.label = .action r i c → ∃ place, i = some place ∧ place < table'.size
  custom : ∀ a ∈ table'.toList, a ∈ table.toList ∨
    ∃ t ∈ ts, ∃ r i c, t.label = .action r i c ∧ a = .custom r (i.getD 0)

theorem Tabled.append {first second third : Array LexerAction} {ts ts' us us' : List Transition}
    (early : Tabled first second ts ts') (late : Tabled second third us us') :
    Tabled first third (ts ++ us) (ts' ++ us') := by
  refine ⟨Nat.le_trans early.grows late.grows, by rw [List.map_append, List.map_append, early.casts,
    late.casts], fun t member r i c label => ?_, fun a member => ?_⟩
  · rcases List.mem_append.1 member with here | there
    · obtain ⟨place, placeIs, below⟩ := early.places t here r i c label
      exact ⟨place, placeIs, Nat.lt_of_lt_of_le below late.grows⟩
    · exact late.places t there r i c label
  · rcases late.custom a member with old | ⟨t, among, shown⟩
    · rcases early.custom a old with older | ⟨t, among, shown⟩
      · exact .inl older
      · exact .inr ⟨t, List.mem_append_left _ among, shown⟩
    · exact .inr ⟨t, List.mem_append_right _ among, shown⟩

theorem tabled_action (table : Array LexerAction) (t : Transition) :
    Tabled table (customAction table t).1 [t] [(customAction table t).2] := by
  by_cases isAction : ∃ r i c, t.label = .action r i c
  · obtain ⟨r, i, c, label⟩ := isAction
    obtain ⟨target, _⟩ := t
    obtain rfl := label
    refine ⟨by simp [customAction], rfl, ?_, fun a member => ?_⟩
    · intro t' here r' i' c' label'
      obtain rfl := List.mem_singleton.1 here
      cases label'
      exact ⟨table.size, rfl, by simp [customAction]⟩
    · simp only [customAction, Array.toList_push, List.mem_append, List.mem_singleton] at member
      refine member.imp_right fun here => ⟨_, List.mem_singleton.2 rfl, r, i, c, rfl, here⟩
  · have same : customAction table t = (table, t) := by
      unfold customAction
      split
      · rename_i r i c label
        exact absurd ⟨r, i, c, label⟩ isAction
      · rfl
    rw [same]
    refine ⟨Nat.le_refl _, rfl, fun t' here r i c label => ?_, fun a member => .inl member⟩
    obtain rfl := List.mem_singleton.1 here
    exact absurd ⟨r, i, c, label⟩ isAction

theorem tabled_transitions (table : Array LexerAction) (ts : List Transition) :
    Tabled table (customTransitions table ts).1 ts (customTransitions table ts).2 := by
  induction ts generalizing table with
  | nil => exact ⟨Nat.le_refl _, rfl, by simp [customTransitions], fun a member => .inl member⟩
  | cons t ts ih => exact (tabled_action table t).append (ih _)

theorem tabled_states (table : Array LexerAction) (ss : List State) :
    Tabled table (customStates table ss).1 (ss.flatMap (·.transitions))
      ((customStates table ss).2.flatMap (·.transitions)) ∧
    List.Forall₂ (fun s s' : State => s' = { s with transitions := s'.transitions } ∧
      s'.transitions.map Transition.cast = s.transitions.map Transition.cast) ss
      (customStates table ss).2 := by
  induction ss generalizing table with
  | nil => exact ⟨⟨Nat.le_refl _, rfl, by simp [customStates], fun a member => .inl member⟩, .nil⟩
  | cons s ss ih =>
    have here := tabled_transitions table s.transitions
    obtain ⟨later, each⟩ := ih (customTransitions table s.transitions).1
    exact ⟨here.append later, .cons ⟨rfl, here.casts⟩ each⟩

theorem mem_transitions {net : Network} {n : Nat} {t : Transition} (member : t ∈ net.out n) :
    t ∈ net.states.toList.flatMap (·.transitions) := by
  have inside : n < net.states.size := by
    by_contra outside
    rw [out_of_le (Nat.not_lt.1 outside)] at member
    cases member
  refine List.mem_flatMap.2 ⟨net.state n, ?_, member⟩
  rw [state_of_lt inside]
  exact Array.mem_toList_iff.2 (Array.getElem_mem inside)

theorem out_of_mem_transitions {net : Network} {t : Transition}
    (member : t ∈ net.states.toList.flatMap (·.transitions)) : ∃ n, t ∈ net.out n := by
  rw [states_toList, List.flatMap_map] at member
  obtain ⟨n, -, here⟩ := List.mem_flatMap.1 member
  exact ⟨n, here⟩

theorem recast_customActions (net : Network) : net.Recast (customActions net) := by
  obtain ⟨-, each⟩ := tabled_states #[] net.states.toList
  have length := each.length_eq
  rw [Array.length_toList] at length
  have related (n : Nat) (inside : n < net.states.size) :
      (customActions net).state n =
        { net.state n with transitions := ((customActions net).state n).transitions } ∧
      ((customActions net).state n).transitions.map Transition.cast =
        (net.state n).transitions.map Transition.cast := by
    have inside' : n < (customActions net).states.size := by
      rw [customActions_eq]
      simpa [length] using inside
    have pair := each.get (i := n) (by simpa using inside) (by simpa [length] using inside)
    rw [state_of_lt inside, state_of_lt inside']
    simpa [customActions_eq] using pair
  refine .of_state (by rw [customActions_eq]; simpa using length.symm) (fun n inside => (related n inside).1)
    (fun n inside => (related n inside).2) ?_ ?_ ?_ ?_
  all_goals rw [customActions_eq]

theorem customActions_places {net : Network} {n : Nat} {t : Transition}
    (member : t ∈ (customActions net).out n) {r : Nat} {i : Option Nat} {c : Bool}
    (label : t.label = .action r i c) :
    ∃ place, i = some place ∧ place < (customActions net).actions.size := by
  have inside := mem_transitions member
  rw [customActions_eq] at inside ⊢
  exact (tabled_states #[] net.states.toList).1.places t (by simpa using inside) r i c label

theorem customActions_custom {net : Network} {a : LexerAction}
    (member : a ∈ (customActions net).actions.toList) :
    ∃ n, ∃ t ∈ net.out n, ∃ r i c, t.label = .action r i c ∧ a = .custom r (i.getD 0) := by
  rw [customActions_eq] at member
  obtain ⟨t, among, shown⟩ :=
    ((tabled_states #[] net.states.toList).1.custom a member).resolve_left (by simp)
  obtain ⟨n, here⟩ := out_of_mem_transitions among
  exact ⟨n, t, here, shown⟩

end Decode

end AdaptiveLL
