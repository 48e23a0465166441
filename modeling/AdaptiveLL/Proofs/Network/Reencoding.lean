import AdaptiveLL.Proofs.Network.Accepted
import AdaptiveLL.Proofs.Network.Recasting

/-!
# Writing again what was read

A network that was read from words and can be written is read again from what was written. The words
may be of an older format, so they need not be the same; but the reader derives from the words that are
written what it derived from those that were read. Only the table of sets may differ: written are the
sets that some transition refers to, once each.

This takes words that list no transition leaving the stop state of a rule, since the writer leaves out
whatever leaves a stop state as a transition back from a call.
-/

set_option autoImplicit false

namespace AdaptiveLL

/-! ## The sets that are written -/

namespace Encode.SetTable

/-- The table lists the sets once each, the narrow ones apart from the wide ones. -/
structure Lists (table : SetTable) (ss : List SymbolSet) : Prop where
  narrow : ∀ s ∈ table.narrow, isWide s = false
  wide : ∀ s ∈ table.wide, isWide s = true
  nodup : (table.narrow ++ table.wide).Nodup
  mem : ∀ s, s ∈ table.narrow ++ table.wide ↔ s ∈ ss

theorem Lists.insert {table : SetTable} {ss : List SymbolSet} (lists : table.Lists ss) (s : SymbolSet) :
    (table.insert s).Lists (ss ++ [s]) := by
  obtain ⟨narrow, wide, nodup, mem⟩ := lists
  unfold SetTable.insert
  cases isWide' : isWide s with
  | true =>
    have notNarrow : s ∉ table.narrow := fun member => by simp [narrow s member] at isWide'
    by_cases known : s ∈ table.wide
    · simp only [if_true, List.contains_iff_mem.2 known]
      refine ⟨narrow, wide, nodup, fun s' => ?_⟩
      have here := mem s
      grind
    · simp only [if_true, List.contains_eq_mem, known, decide_false, Bool.false_eq_true, if_false]
      exact ⟨narrow, by grind, by grind, by grind⟩
  | false =>
    have notWide : s ∉ table.wide := fun member => by simp [wide s member] at isWide'
    by_cases known : s ∈ table.narrow
    · simp only [Bool.false_eq_true, if_false, List.contains_iff_mem.2 known, if_true]
      refine ⟨narrow, wide, nodup, fun s' => ?_⟩
      have here := mem s
      grind
    · simp only [Bool.false_eq_true, if_false, List.contains_eq_mem, known, decide_false]
      exact ⟨by grind, wide, by grind, by grind⟩

theorem lists_foldl {table : SetTable} {ss : List SymbolSet} (lists : table.Lists ss)
    (more : List SymbolSet) : (more.foldl SetTable.insert table).Lists (ss ++ more) := by
  induction more generalizing table ss with
  | nil => simpa using lists
  | cons s more ih => simpa using ih (lists.insert s)

end Encode.SetTable

namespace Network

variable {net net' : Network}

theorem lists_collect (net : Network) : (Encode.SetTable.collect net).Lists
    (net.states.toList.flatMap fun s => s.transitions.filterMap fun t => Encode.SetTable.referred? t.label) := by
  have none' : (Encode.SetTable.mk [] []).Lists [] := ⟨nofun, nofun, .nil, fun _ => Iff.rfl⟩
  exact Encode.SetTable.lists_foldl none' _

theorem nodup_referredSets (net : Network) : net.referredSets.Nodup := net.lists_collect.nodup

theorem mem_referredSets {s : SymbolSet} : s ∈ net.referredSets ↔
    ∃ n, ∃ t ∈ net.out n, Encode.SetTable.referred? t.label = some s := by
  refine (net.lists_collect.mem s).trans ?_
  rw [states_toList, List.flatMap_map, List.mem_flatMap]
  constructor
  · rintro ⟨n, -, here⟩
    obtain ⟨t, member, refers⟩ := List.mem_filterMap.1 here
    exact ⟨n, t, member, refers⟩
  · rintro ⟨n, t, member, refers⟩
    refine ⟨n, ?_, List.mem_filterMap.2 ⟨t, member, refers⟩⟩
    by_contra outside
    rw [List.mem_range, Nat.not_lt] at outside
    rw [out_of_le outside] at member
    cases member

/-! ## Transitions back from calls -/

theorem mem_edgesFrom {n : Nat} {t : Transition} {edges : List (Nat × Transition)} :
    t ∈ edgesFrom n edges ↔ (n, t) ∈ edges := by
  simp only [edgesFrom, List.mem_filterMap, Option.ite_none_right_eq_some, Option.some.injEq]
  constructor
  · rintro ⟨e, member, rfl, rfl⟩
    exact member
  · intro member
    exact ⟨(n, t), member, rfl, rfl⟩

/-- Only stop states get transitions back from calls, and these ask for nothing. -/
theorem out_addReturns (stops : ∀ r stop, net.ruleStop? r = some stop →
      (net.state stop).kind.isRuleStop = true) (n : Nat) :
    ∃ back, (Decode.addReturns net).out n = net.out n ++ back ∧
      (∀ t ∈ back, ∃ outermost, t.label = .epsilon outermost) ∧
      ((net.state n).kind.isRuleStop = false → back = []) := by
  rcases Nat.lt_or_ge n net.states.size with inside | outside
  · refine ⟨_, net.addEdges_out _ inside, fun t member => ?_, fun inner => ?_⟩
    · obtain ⟨s, -, here⟩ := List.mem_flatMap.1 (mem_edgesFrom.1 member)
      obtain ⟨call, -, returns⟩ := List.mem_filterMap.1 here
      unfold Decode.returnEdge? at returns
      split at returns
      · obtain ⟨stop, -, same⟩ := Option.map_eq_some_iff.1 returns
        cases same
        exact ⟨_, rfl⟩
      · cases returns
    · refine List.eq_nil_iff_forall_not_mem.2 fun t member => ?_
      obtain ⟨s, -, here⟩ := List.mem_flatMap.1 (mem_edgesFrom.1 member)
      obtain ⟨call, -, returns⟩ := List.mem_filterMap.1 here
      unfold Decode.returnEdge? at returns
      split at returns
      · obtain ⟨stop, entered, same⟩ := Option.map_eq_some_iff.1 returns
        cases same
        exact Bool.false_ne_true (inner.symm.trans (stops _ _ entered))
      · cases returns
  · have outside' : (Decode.addReturns net).states.size ≤ n := by
      rw [show Decode.addReturns net = net.addEdges _ from rfl, addEdges_size]
      exact outside
    exact ⟨[], by simp [out_of_le outside', out_of_le outside], nofun, fun _ => rfl⟩

end Network

/-! ## The network before its edges -/

namespace Decode

open Network

variable {base net linked acted : Network} {edges : List (Nat × Transition)} {ds : List Nat}

namespace Listed

theorem out (listed : Listed base edges) (n : Nat) : base.out n = [] := by
  obtain ⟨stopped, stops, same⟩ := listed.stops
  have states : base.out n = stopped.out n := by rw [same]; rfl
  rw [states, out_enterStops stops, out_skeleton]

theorem ruleStop (listed : Listed base edges) (r stop : Nat) (entered : base.ruleStop? r = some stop) :
    (base.state stop).kind.isRuleStop = true := by
  obtain ⟨stopped, stops, same⟩ := listed.stops
  have none' (r stop : Nat) (entered : base.skeleton.ruleStop? r = some stop) :
      (base.skeleton.state stop).kind.isRuleStop = true := by
    simp only [ruleStop?, skeleton, Array.getElem?_replicate] at entered
    split at entered <;> cases entered
  have states : base.state stop = stopped.state stop := by rw [same]; rfl
  have table : base.ruleStop? r = stopped.ruleStop? r := by rw [same]; rfl
  rw [states]
  exact stops_enterStops stops none' r stop (table ▸ entered)

theorem tables (listed : Listed base edges) : base.decisions = #[] ∧ base.actions = #[] := by
  obtain ⟨stopped, stops, same⟩ := listed.stops
  have kept : stopped.decisions = base.skeleton.decisions ∧ stopped.actions = base.skeleton.actions := by
    refine foldlM_preserves _ (P := fun net => net.decisions = base.skeleton.decisions ∧
      net.actions = base.skeleton.actions) ⟨rfl, rfl⟩ (fun before n after inv ran => ?_) stops
    unfold enterStop at ran
    split at ran
    · split at ran
      · cases ran
      · split at ran
        · cases ran
          exact inv
        · cases ran
    · cases ran
      exact inv
  rw [same]
  exact kept

end Listed

/-! ## The network behind its edges -/

namespace Acts

theorem recast (acts : Acts net acted) : net.Recast acted := by
  cases acts with
  | parser => exact .refl net
  | table => exact ⟨rfl, fun _ => rfl, fun _ => rfl, rfl, rfl, rfl, rfl⟩
  | custom => exact recast_customActions net

theorem tables (acts : Acts net acted) : SameTables { net with actions := acted.actions } acted := by
  cases acts with
  | parser => exact .refl net
  | table => exact ⟨rfl, rfl, rfl, rfl, rfl, rfl, rfl⟩
  | custom =>
    rw [customActions_eq]
    exact ⟨rfl, rfl, rfl, rfl, rfl, rfl, rfl⟩

end Acts

theorem decisions_foldl (net : Network) (ds : List Nat) :
    (ds.foldl (fun net n => (net.defineDecision n).2) net).decisions = net.decisions ++ ds.toArray ∧
      ∀ n, (ds.foldl (fun net n => (net.defineDecision n).2) net).out n = net.out n := by
  induction ds generalizing net with
  | nil => simp
  | cons d ds ih =>
    obtain ⟨decisions, out⟩ := ih (net.defineDecision d).2
    refine ⟨decisions.trans ?_, fun n => (out n).trans (defineDecision_out net d n)⟩
    simp [defineDecision]

/-- The decisions are given to the network that is linked. -/
def decided (linked : Network) (ds : List Nat) : Network :=
  ds.foldl (fun net n => (net.defineDecision n).2) linked

theorem sameBare_completed (links : linkBlocks (addReturns (base.addEdges edges)) = .ok linked)
    (acts : Acts (decided linked ds) acted) : SameBare base (mark acted) :=
  ((((base.sameBare_addEdges edges).trans (sameBare_addEdges _ _)).trans
    (sameBare_linkBlocks links)).trans (sameBare_defineDecisions linked ds)).trans
      (acts.recast.sameBare.trans (sameBare_mark acted))

theorem sameTables_decided (ds : List Nat)
    (links : linkBlocks (addReturns (base.addEdges edges)) = .ok linked) :
    SameTables base (decided linked ds) :=
  (((base.sameTables_addEdges edges).trans (sameTables_addEdges _ _)).trans
    (sameTables_linkBlocks links)).trans (sameTables_defineDecisions linked ds)

theorem sameTables_completed (links : linkBlocks (addReturns (base.addEdges edges)) = .ok linked)
    (acts : Acts (decided linked ds) acted) :
    SameTables { base with actions := acted.actions } (mark acted) := by
  have before := sameTables_decided ds links
  have behind := acts.tables
  exact ⟨behind.kind.trans before.kind, behind.maxTokenType.trans before.maxTokenType,
    behind.ruleStarts.trans before.ruleStarts, behind.ruleTypes.trans before.ruleTypes,
    behind.modeStarts.trans before.modeStarts, rfl, behind.sets.trans before.sets⟩

namespace Listed

/-- The transitions that are listed, by their sources. -/
theorem out_addEdges (listed : Listed base edges) (n : Nat) :
    (base.addEdges edges).out n = edgesFrom n edges := by
  rcases Nat.lt_or_ge n base.states.size with inside | outside
  · rw [Network.addEdges_out _ _ inside, listed.out, List.nil_append]
  · rw [out_of_le (by rwa [addEdges_size])]
    refine (List.eq_nil_iff_forall_not_mem.2 fun t member => ?_).symm
    have source := (listed.joins _ (mem_edgesFrom.1 member)).source
    exact Nat.lt_irrefl _ (Nat.lt_of_lt_of_le source outside)

/-- Before the actions, the states have the listed transitions, and the stop states have those back
from calls. -/
theorem out_linked (listed : Listed base edges)
    (inner : ∀ e ∈ edges, (base.state e.1).kind.isRuleStop = false)
    (links : linkBlocks (addReturns (base.addEdges edges)) = .ok linked) (n : Nat) :
    ((base.state n).kind.isRuleStop = false → linked.out n = edgesFrom n edges) ∧
      ((base.state n).kind.isRuleStop = true → ∀ t ∈ linked.out n, ∃ o, t.label = .epsilon o) := by
  have same := base.sameBare_addEdges edges
  have stops (r stop : Nat) (entered : (base.addEdges edges).ruleStop? r = some stop) :
      ((base.addEdges edges).state stop).kind.isRuleStop = true := by
    rw [same.isRuleStop]
    refine listed.ruleStop r stop ?_
    rwa [base.addEdges_eq edges] at entered
  obtain ⟨back, outs, free, inside⟩ := out_addReturns stops n
  rw [same.isRuleStop] at inside
  rw [out_linkBlocks links, outs, listed.out_addEdges]
  refine ⟨fun notStop => by rw [inside notStop, List.append_nil], fun isStop t member => ?_⟩
  rcases List.mem_append.1 member with early | late
  · have notStop := inner _ (mem_edgesFrom.1 early)
    exact absurd (isStop.symm.trans notStop) (by decide)
  · exact free t late

end Listed

/-- The transitions of a network are those that are listed, up to what the actions name; those that
leave stop states are transitions back from calls. -/
structure Carries (base : Network) (edges : List (Nat × Transition)) (net : Network) : Prop where
  inner : ∀ n, (base.state n).kind.isRuleStop = false →
    (net.out n).map Transition.cast = (edgesFrom n edges).map Transition.cast
  back : ∀ n, (base.state n).kind.isRuleStop = true → ∀ t ∈ net.out n, ∃ o, t.label = .epsilon o

theorem carries_completed (listed : Listed base edges)
    (inner : ∀ e ∈ edges, (base.state e.1).kind.isRuleStop = false)
    (links : linkBlocks (addReturns (base.addEdges edges)) = .ok linked)
    (acts : Acts (decided linked ds) acted) : Carries base edges (mark acted) := by
  have outs (n : Nat) := listed.out_linked inner links n
  have decidedOut (n : Nat) : (decided linked ds).out n = linked.out n := (decisions_foldl linked ds).2 n
  refine ⟨fun n notStop => ?_, fun n isStop => ?_⟩
  · rw [out_mark, acts.recast.casts, decidedOut, (outs n).1 notStop]
  · have free : ∀ t ∈ (decided linked ds).out n, ∃ o, t.label = .epsilon o := by
      rw [decidedOut]
      exact (outs n).2 isStop
    rw [out_mark, Transition.eq_of_casts (acts.recast.casts n) fun t member r i c label => by
      obtain ⟨o, free⟩ := free t member
      cases label.symm.trans free]
    exact free

/-- A transition that is carried is listed, or it is an action that is listed under another name. -/
theorem Carries.listed (carries : Carries base edges net) {n : Nat}
    (notStop : (base.state n).kind.isRuleStop = false) {t : Transition} (member : t ∈ net.out n) :
    (n, t) ∈ edges ∨ ∃ target r i i' c c', (n, ⟨target, .action r i c⟩) ∈ edges ∧
      t = ⟨target, .action r i' c'⟩ := by
  have among : t.cast ∈ (edgesFrom n edges).map Transition.cast := by
    rw [← carries.inner n notStop]
    exact List.mem_map_of_mem member
  obtain ⟨t', member', same⟩ := List.mem_map.1 among
  rcases Transition.cast_cases same.symm with rfl | ⟨target, r, i, i', c, c', rfl, rfl⟩
  · exact .inl (mem_edgesFrom.1 member')
  · exact .inr ⟨target, r, i, i', c, c', mem_edgesFrom.1 member', rfl⟩

/-- The sets that transitions refer to were read. -/
theorem Carries.sets (carries : Carries base edges net) (listed : Listed base edges) {s : SymbolSet}
    (member : s ∈ net.referredSets) : s ∈ base.sets.toList := by
  obtain ⟨n, t, member, refers⟩ := mem_referredSets.1 member
  cases isStop : (base.state n).kind.isRuleStop with
  | false =>
    rcases carries.listed isStop member with here | ⟨target, r, i, i', c, c', here, rfl⟩
    · exact (listed.joins _ here).set s refers
    · cases refers
  | true =>
    obtain ⟨o, free⟩ := carries.back n isStop t member
    rw [free] at refers
    cases refers

/-- The transitions that are written, added to the network before its edges. -/
theorem out_addWritten (listed : Listed base edges) (same : SameBare base net) (sets : Array SymbolSet)
    {n : Nat} (inside : n < base.states.size) :
    (Network.addEdges { base with sets } (Encode.writtenTransitions net)).out n =
      if (base.state n).kind.isRuleStop then [] else net.out n := by
  have numbered (n : Nat) (inside : n < net.states.size) : (net.state n).number = n := by
    rw [same.number, listed.grounded.number n (same.size ▸ inside)]
  rw [Network.addEdges_out { base with sets } _ inside,
    show ({ base with sets } : Network).out n = base.out n from rfl, listed.out, List.nil_append,
    edgesFrom_written numbered, same.isRuleStop]

/-- The networks with the listed and with the written transitions agree up to the actions. -/
theorem recast_written (listed : Listed base edges)
    (inner : ∀ e ∈ edges, (base.state e.1).kind.isRuleStop = false)
    (same : SameBare base net) (carries : Carries base edges net) (sets : Array SymbolSet) :
    (base.addEdges edges).Recast
      (Network.addEdges { base with sets } (Encode.writtenTransitions net)) := by
  let tabled : Network := { base with sets }
  have tables := base.addEdges_eq edges
  have tables' := tabled.addEdges_eq (Encode.writtenTransitions net)
  refine .of_state (by simp) (fun n inside => ?_) (fun n inside => ?_) ?_ ?_ ?_ ?_
  · rw [addEdges_size] at inside
    rw [addEdges_state base _ inside, addEdges_state tabled _ inside, Network.addEdges_out tabled _ inside]
    rfl
  · rw [addEdges_size] at inside
    rw [out_addWritten listed same sets inside, listed.out_addEdges]
    cases isStop : (base.state n).kind.isRuleStop with
    | false => exact carries.inner n isStop
    | true =>
      have none' : edgesFrom n edges = [] := List.eq_nil_iff_forall_not_mem.2 fun t member => by
        have notStop := inner _ (mem_edgesFrom.1 member)
        exact absurd (isStop.symm.trans notStop) (by decide)
      simp [none']
  all_goals
    rw [tables, tables']

/-- Deriving again gives the transitions that were there. -/
theorem out_derived {linked' : Network} {sets : Array SymbolSet} (listed : Listed base edges)
    (inner : ∀ e ∈ edges, (base.state e.1).kind.isRuleStop = false)
    (same : SameBare base net) (recast : (base.addEdges edges).Recast
      (Network.addEdges { base with sets } (Encode.writtenTransitions net)))
    (links : linkBlocks (addReturns (base.addEdges edges)) = .ok linked)
    (links' : linkBlocks (addReturns (Network.addEdges { base with sets }
      (Encode.writtenTransitions net))) = .ok linked')
    (recast' : linked.Recast linked') (casts : ∀ n, (net.out n).map Transition.cast =
      (linked.out n).map Transition.cast) {n : Nat} (inside : n < base.states.size) :
    linked'.out n = net.out n := by
  cases isStop : (base.state n).kind.isRuleStop with
  | false =>
    have sameStops (m : Nat) : ((Network.addEdges { base with sets }
        (Encode.writtenTransitions net)).state m).kind.isRuleStop = (base.state m).kind.isRuleStop := by
      rw [recast.kindAt, (base.sameBare_addEdges edges).isRuleStop]
    have stops (r stop : Nat) (entered : (Network.addEdges { base with sets }
        (Encode.writtenTransitions net)).ruleStop? r = some stop) : ((Network.addEdges { base with sets }
          (Encode.writtenTransitions net)).state stop).kind.isRuleStop = true := by
      rw [sameStops]
      refine listed.ruleStop r stop ?_
      rwa [Network.addEdges_eq] at entered
    obtain ⟨back, outs, -, none'⟩ := out_addReturns stops n
    rw [out_linkBlocks links', outs, none' (by rw [sameStops, isStop]), List.append_nil,
      out_addWritten listed same sets inside, isStop]
    rfl
  | true =>
    have plain (t : Transition) (member : t ∈ linked.out n) (r : Nat) (i : Option Nat) (c : Bool) :
        t.label ≠ .action r i c := fun label => by
      obtain ⟨o, free⟩ := (listed.out_linked inner links n).2 isStop t member
      cases label.symm.trans free
    rw [Transition.eq_of_casts (recast'.casts n) plain, Transition.eq_of_casts (casts n) plain]

theorem decisions_completed (listed : Listed base edges)
    (links : linkBlocks (addReturns (base.addEdges edges)) = .ok linked)
    (acts : Acts (decided linked ds) acted) : (mark acted).decisions = ds.toArray := by
  have early : linked.decisions = base.decisions := by
    rw [linkBlocks_eq links]
    show (Network.addEdges (base.addEdges edges) _).decisions = base.decisions
    rw [addEdges_eq, addEdges_eq]
  calc (mark acted).decisions = (decided linked ds).decisions := acts.recast.decisions
    _ = linked.decisions ++ ds.toArray := (decisions_foldl linked ds).1
    _ = ds.toArray := by rw [early, listed.tables.1, Array.empty_append]

/-- What is derived from the words that are written is what was derived from those that were read. -/
theorem derive_completed (listed : Listed base edges)
    (inner : ∀ e ∈ edges, (base.state e.1).kind.isRuleStop = false)
    (links : linkBlocks (addReturns (base.addEdges edges)) = .ok linked)
    (acts : Acts (decided linked ds) acted) :
    ∃ derived, (mark acted).derive = .ok derived ∧
      mark { derived with actions := acted.actions } =
        { mark acted with sets := (mark acted).referredSets.toArray } := by
  have same := sameBare_completed links acts
  have tables := sameTables_completed links acts
  have carries := carries_completed listed inner links acts
  let sets := (mark acted).referredSets.toArray
  have recast := recast_written listed inner same carries sets
  obtain ⟨linked', links', recast'⟩ := recast.addReturns.linkBlocks links
  have decisions := decisions_completed listed links acts
  have derives : (mark acted).derive = .ok (decided linked' ds) := by
    obtain ⟨stopped, stops, baseIs⟩ := listed.stops
    have skeleton : (mark acted).skeleton = base.skeleton := by
      have states : (mark acted).states.map State.bare = base.states.map State.bare := same
      simp only [Network.skeleton, states, numRules, tables.kind, tables.maxTokenType, tables.ruleStarts,
        tables.ruleTypes]
    refine except_bind_ok.2 ⟨stopped, ?_, except_bind_ok.2 ⟨linked', ?_, ?_⟩⟩
    · rw [skeleton, same.size]
      exact stops
    · have tabled : ({ stopped with
          modeStarts := (mark acted).modeStarts, sets := sets } : Network) = { base with sets } := by
        rw [baseIs, show (mark acted).modeStarts = base.modeStarts from tables.modeStarts]
      rw [← links', ← tabled]
    · rw [decisions]
      rfl
  obtain ⟨derivedBare, derivedTables⟩ := derive_keeps derives
  have decidedOut (n : Nat) : (decided linked ds).out n = linked.out n := (decisions_foldl linked ds).2 n
  have casts (n : Nat) : ((mark acted).out n).map Transition.cast = (linked.out n).map Transition.cast := by
    rw [out_mark, acts.recast.casts, decidedOut]
  have behind : (decided linked ds).Recast (decided linked' ds) := recast'.defineDecisions ds
  have states : (decided linked' ds).states = acted.states := by
    have size : (decided linked' ds).states.size = acted.states.size := by
      rw [behind.size, acts.recast.size]
    refine Array.ext size fun n inside inside' => ?_
    have known : n < base.states.size := by rwa [derivedBare.size, same.size] at inside
    rw [← state_of_lt inside, ← state_of_lt inside', behind.state, acts.recast.state,
      show (decided linked' ds).out n = linked'.out n from (decisions_foldl linked' ds).2 n,
      out_derived listed inner same recast links links' recast' casts known, out_mark]
  have again : { decided linked' ds with actions := acted.actions } = { acted with sets := sets } :=
    SameTables.eq ⟨derivedTables.kind, derivedTables.maxTokenType, derivedTables.ruleStarts,
      derivedTables.ruleTypes, derivedTables.modeStarts, rfl, derivedTables.sets⟩ states
      (behind.decisions.trans acts.recast.decisions.symm)
      (behind.ruleStops.trans acts.recast.ruleStops.symm)
  refine ⟨_, derives, ?_⟩
  rw [again]
  rfl

/-! ## What is known of the network -/

/-- What an action names is a word, or its place in the table. -/
theorem place_completed (listed : Listed base edges)
    (inner : ∀ e ∈ edges, (base.state e.1).kind.isRuleStop = false)
    (links : linkBlocks (addReturns (base.addEdges edges)) = .ok linked)
    (acts : Acts (decided linked ds) acted) (few : acted.actions.size < 18446744073709551616)
    {n : Nat} (notStop : (base.state n).kind.isRuleStop = false) {t : Transition}
    (member : t ∈ acted.out n) {r : Nat} {i : Option Nat} {c : Bool} (label : t.label = .action r i c) :
    ∀ place, i = some place → place < 18446744073709551616 := by
  have joins : t ∈ (decided linked ds).out n → ∀ place, i = some place → place < 18446744073709551616 := by
    intro here
    rw [show (decided linked ds).out n = linked.out n from (decisions_foldl linked ds).2 n,
      (listed.out_linked inner links n).1 notStop] at here
    exact ((listed.joins _ (mem_edgesFrom.1 here)).readable.action r i c label).2
  cases acts with
  | parser => exact joins member
  | table => exact joins member
  | custom isLexer modes =>
    obtain ⟨place, rfl, below⟩ := customActions_places member label
    rintro _ ⟨⟩
    exact Nat.lt_trans below few

theorem restorable_completed (listed : Listed base edges)
    (inner : ∀ e ∈ edges, (base.state e.1).kind.isRuleStop = false)
    (links : linkBlocks (addReturns (base.addEdges edges)) = .ok linked)
    (known : ∀ d ∈ ds, d < linked.states.size ∧ (linked.state d).kind.isDecision = true)
    (acts : Acts (decided linked ds) acted) (few : acted.actions.size < 18446744073709551616) :
    (mark acted).Restorable := by
  have same := sameBare_completed links acts
  have tables := sameTables_completed links acts
  have carries := carries_completed listed inner links acts
  have numRules : (mark acted).numRules = base.numRules := by
    rw [Network.numRules, tables.ruleStarts, Network.numRules]
  have readable {t : Transition} (reads : base.Readable t) : (mark acted).Readable t := by
    obtain ⟨target, plain, call, predicate, action⟩ := reads
    refine ⟨same.size ▸ target, plain, fun r p follow label => ?_, predicate, action⟩
    rw [same.isRuleStart, same.size, numRules]
    exact call r p follow label
  refine ⟨listed.grounded.of_same same tables.kind tables.ruleStarts tables.ruleTypes tables.modeStarts,
    fun n notStop t member => ?_, fun s member => ?_, fun d member => ?_⟩
  · rw [same.isRuleStop] at notStop
    rcases carries.listed notStop member with here | ⟨target, r, i, i', c, c', here, rfl⟩
    · exact readable (listed.joins _ here).readable
    · have joins := listed.joins _ here
      refine ⟨same.size ▸ joins.readable.target, fun _ label => absurd label (by simp),
        fun _ _ _ label => absurd label (by simp), fun _ _ _ label => absurd label (by simp), ?_⟩
      rintro _ _ _ ⟨⟩
      rw [out_mark] at member
      exact ⟨(joins.readable.action r i c rfl).1,
        place_completed listed inner links acts few notStop member rfl⟩
  · exact listed.proper s (carries.sets listed member)
  · rw [decisions_completed listed links acts] at member
    have linkedSame : SameBare linked (mark acted) :=
      (sameBare_defineDecisions linked ds).trans (acts.recast.sameBare.trans (sameBare_mark acted))
    rw [linkedSame.size, linkedSame.isDecision]
    exact known d member

/-- The actions of the network can be written and read, and they lead to modes that are there. -/
theorem actions_completed (listed : Listed base edges)
    (inner : ∀ e ∈ edges, (base.state e.1).kind.isRuleStop = false)
    (links : linkBlocks (addReturns (base.addEdges edges)) = .ok linked)
    (acts : Acts (decided linked ds) acted) :
    (∀ a ∈ acted.actions.toList, Storable a ∧ leadsAstray acted a = false) ∧
      (acted.isLexer = false → acted.actions = #[]) := by
  have none' : (decided linked ds).actions = #[] := by
    rw [(sameTables_decided ds links).actions, listed.tables.2]
  cases acts with
  | parser isParser =>
    rw [none']
    exact ⟨nofun, fun _ => rfl⟩
  | table isLexer storable modes =>
    refine ⟨fun a member => ⟨storable a member, modes a member⟩, fun isParser => ?_⟩
    exact absurd (isLexer.symm.trans isParser) (by decide)
  | custom isLexer modes =>
    have tables := (Acts.custom isLexer modes).tables
    refine ⟨fun a member => ⟨?_, ?_⟩, fun isParser => ?_⟩
    · obtain ⟨n, t, here, r, i, c, label, rfl⟩ := customActions_custom member
      rw [show (decided linked ds).out n = linked.out n from (decisions_foldl linked ds).2 n] at here
      cases isStop : (base.state n).kind.isRuleStop with
      | false =>
        rw [(listed.out_linked inner links n).1 isStop] at here
        have small := (listed.joins _ (mem_edgesFrom.1 here)).action r i c label
        exact ⟨by omega, by omega⟩
      | true =>
        obtain ⟨o, free⟩ := (listed.out_linked inner links n).2 isStop t here
        cases label.symm.trans free
    · have known := modes a member
      rwa [leadsAstray, ← show (customActions (decided linked ds)).modeStarts = _ from
        tables.modeStarts] at known
    · rw [Network.isLexer, show (customActions (decided linked ds)).kind = _ from tables.kind] at isParser
      exact absurd (isLexer.symm.trans isParser) (by decide)

end Decode

/-! ## Reading again -/

/-- Adding 2 to the words and taking it away gives them back. -/
theorem unshiftWords_shiftWords (words : List Word) : unshiftWords (shiftWords words) = words := by
  have back (w : Word) : w + 2 - 2 = w := by
    rw [UInt16.add_sub_cancel]
  cases words with
  | nil => rfl
  | cons w rest => simp [shiftWords, unshiftWords, Function.comp_def, back]

/-- None of the transitions that the words list leaves the stop state of a rule. -/
def returnFree (words : List Word) : Bool :=
  match Decode.listed.run { rest := words } with
  | .ok ((_, net, edges), _) => edges.all fun e => !(net.state e.1).kind.isRuleStop
  | .error _ => true

namespace Network

variable {net : Network} {words words' : List Word} {verify : Bool}

theorem fewActions (encoded : net.encode = .ok words) (lexers : net.isLexer = false → net.actions = #[]) :
    net.actions.size < 18446744073709551616 := by
  cases isLexer : net.isLexer with
  | false =>
    rw [lexers isLexer]
    exact Nat.zero_lt_succ _
  | true =>
    obtain ⟨-, -, -, -, -, -, -, -, -, actionItems, -⟩ := Encode.sections_of_encode encoded
    simp only [Encode.actions, isLexer, if_true] at actionItems
    obtain ⟨n, count, -⟩ := except_bind_ok.1 actionItems
    have := (Encode.index_ok count).2
    omega

/-- What is written of a network that was read is read again: the same network, but for its table of
sets, which are now those that transitions refer to, once each. Writing that network gives the same
words. -/
theorem decode_reencoded (decoded : decode words verify = .ok net) (inner : returnFree words = true)
    (encoded : net.encode = .ok words') : ∃ sets : Array SymbolSet,
      decode words' verify = .ok { net with sets } ∧
      decode (unshiftWords (shiftWords words')) verify = .ok { net with sets } ∧
      ({ net with sets } : Network).encode = .ok words' ∧
      sets.toList.Nodup ∧ ∀ s, s ∈ sets ↔ s ∈ net.sets ∧
        ∃ n, ∃ t ∈ net.out n, Encode.SetTable.referred? t.label = some s := by
  obtain ⟨f, base, edges, cursor, run, listed, completed, sound⟩ := decode_steps decoded
  obtain ⟨linked, ds, acted, links, known, acts, rfl⟩ := completed.steps
  have notStop : ∀ e ∈ edges, (base.state e.1).kind.isRuleStop = false := by
    intro e member
    rw [returnFree, run] at inner
    simpa using List.all_eq_true.1 inner e member
  obtain ⟨actions, lexers⟩ := Decode.actions_completed listed notStop links acts
  have few := fewActions encoded lexers
  have restorable := Decode.restorable_completed listed notStop links known acts few
  obtain ⟨derived, derives, again⟩ := Decode.derive_completed listed notStop links acts
  have sound' : verify = true →
      (Decode.mark { derived with actions := (Decode.mark acted).actions }).fault? = none := by
    rw [show (Decode.mark acted).actions = acted.actions from rfl, again]
    exact sound
  have read := decode_encode_eq restorable encoded derives (fun a member => (actions a member).1)
    (fun a member => (actions a member).2) lexers sound'
  rw [show (Decode.mark acted).actions = acted.actions from rfl, again] at read
  refine ⟨_, read, by rwa [unshiftWords_shiftWords], encoded, ?_, fun s => ?_⟩
  · exact nodup_referredSets _
  · have tables := Decode.sameTables_completed links acts
    have carries := Decode.carries_completed listed notStop links acts
    rw [List.mem_toArray, show (Decode.mark acted).sets = base.sets from tables.sets]
    refine ⟨fun member => ⟨?_, mem_referredSets.1 member⟩, fun here => mem_referredSets.2 here.2⟩
    exact Array.mem_toList_iff.1 (carries.sets listed member)

/-- A lexer in a format that names custom actions on the transitions. It lists one set twice and
another one that no transition refers to. -/
def customWords : List Word :=
  formatVersion :: identifierWords (Format.identifier .precedence) ++
    [0, 5, 4, 6, 0xFFFF, 2, 0, 7, 0, 1, 0, 0, 0, 1, 1, 1, 0, 1, 0, 3, 1, 0, 65, 66, 1, 0, 70, 70,
      1, 0, 65, 66, 3, 0, 1, 1, 0, 0, 0, 1, 3, 7, 2, 0, 0, 3, 2, 6, 0, 7, 0, 1, 0]

/-- What is read from `customWords`. -/
def customNetwork : Network where
  kind := .lexer
  maxTokenType := 5
  states := #[
    { number := 0, rule := none, kind := .tokenStart, transitions := [⟨1, .epsilon none⟩],
      epsilonOnly := true, decision := some 0 },
    { number := 1, rule := some 0, kind := .ruleStart (some 2) false,
      transitions := [⟨3, .set ⟨[(65, 66)]⟩⟩] },
    { number := 2, rule := some 0, kind := .ruleStop },
    { number := 3, rule := some 0, kind := .basic, transitions := [⟨2, .action 0 (some 0) false⟩],
      epsilonOnly := true }]
  decisions := #[0]
  ruleStarts := #[1]
  ruleStops := #[some 2]
  ruleTypes := #[1]
  modeStarts := #[0]
  actions := #[.custom 0 7]
  sets := #[⟨[(65, 66)]⟩, ⟨[(70, 70)]⟩, ⟨[(65, 66)]⟩]

/-- The words of the network in the current format. -/
def customRewritten : List Word :=
  formatVersion :: identifierWords Format.current.identifier ++
    [0, 5, 4, 6, 0xFFFF, 2, 0, 7, 0, 1, 0, 0, 0, 1, 1, 1, 1, 0, 1, 1, 0, 65, 66, 0, 3, 0, 1, 1, 0, 0, 0,
      1, 3, 7, 0, 0, 0, 3, 2, 6, 0, 0, 0, 1, 0, 1, 1, 0, 7]

theorem customWords_read : decode customWords true = .ok customNetwork ∧ returnFree customWords = true ∧
    customNetwork.encode = .ok customRewritten := by
  decide +kernel

theorem decode_reencoded_custom : decode customWords true = .ok customNetwork ∧
    returnFree customWords = true ∧ customNetwork.encode = .ok customRewritten ∧
    ∃ sets : Array SymbolSet,
      decode customRewritten true = .ok { customNetwork with sets } ∧
      decode (unshiftWords (shiftWords customRewritten)) true = .ok { customNetwork with sets } ∧
      ({ customNetwork with sets } : Network).encode = .ok customRewritten ∧
      sets.toList.Nodup ∧ ∀ s, s ∈ sets ↔ s ∈ customNetwork.sets ∧
        ∃ n, ∃ t ∈ customNetwork.out n, Encode.SetTable.referred? t.label = some s := by
  obtain ⟨decoded, inner, encoded⟩ := customWords_read
  exact ⟨decoded, inner, encoded, decode_reencoded decoded inner encoded⟩

/-- A parser for one token, with a set that no transition refers to. -/
def unusedSetWords : List Word :=
  formatVersion :: identifierWords Format.current.identifier ++
    [1, 1, 3, 2, 0, 7, 0, 1, 0, 0, 0, 1, 0, 0, 1, 1, 0, 5, 7, 0, 2, 0, 2, 5, 1, 0, 0, 2, 1, 1, 0, 0, 0, 0]

/-- What is read from `unusedSetWords`. -/
def unusedSetNetwork : Network where
  kind := .parser
  maxTokenType := 1
  states := #[
    { number := 0, rule := some 0, kind := .ruleStart (some 1) false, transitions := [⟨2, .atom 1⟩] },
    { number := 1, rule := some 0, kind := .ruleStop },
    { number := 2, rule := some 0, kind := .basic, transitions := [⟨1, .epsilon none⟩],
      epsilonOnly := true }]
  ruleStarts := #[0]
  ruleStops := #[some 1]
  sets := #[⟨[(5, 7)]⟩]

/-- A set that no transition refers to is read but not written. -/
theorem reencoding_drops_unused_set : decode unusedSetWords true = .ok unusedSetNetwork ∧
    returnFree unusedSetWords = true ∧ ∃ words', unusedSetNetwork.encode = .ok words' ∧
      decode words' true = .ok { unusedSetNetwork with sets := #[] } ∧
      ¬ ∀ s, s ∈ unusedSetNetwork.sets ↔ s ∈ (#[] : Array SymbolSet) := by
  refine ⟨by decide +kernel, by decide +kernel, formatVersion :: identifierWords
    Format.current.identifier ++ [1, 1, 3, 2, 0, 7, 0, 1, 0, 0, 0, 1, 0, 0, 0, 0, 2, 0, 2, 5, 1, 0, 0,
      2, 1, 1, 0, 0, 0, 0], by decide +kernel, by decide +kernel, fun same => ?_⟩
  exact absurd ((same ⟨[(5, 7)]⟩).1 (by decide +kernel)) (by simp)

end Network

end AdaptiveLL
