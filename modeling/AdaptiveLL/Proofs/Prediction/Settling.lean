import AdaptiveLL.Proofs.Prediction.Gathering
import AdaptiveLL.Proofs.Prediction.Labels
import AdaptiveLL.Proofs.Tokens.Viewing

/-!
# Decisions that one token settles

Where a token leaves one alternative, all configurations behind it being in one state with one guard, the
decision ends behind that token, in every mode and with whatever was learned before. `Settling` says of a
decision that each of its starts goes on like this with every token it is asked about, and what follows is
that a prediction ends with the alternative that the token leaves (`predict_settles`).

The automaton of such a decision has two kinds of states (`Dfa.Settled`): those at which the decision begins,
and those behind a token, which have the alternative.
-/

set_option autoImplicit false

namespace AdaptiveLL

/-! ## Places of configurations -/

/-- Where a thread is, the alternative it began with and the guard it has collected. -/
structure Place where
  state : Nat
  alt : Nat
  guard : Guard
  deriving DecidableEq

/-- What tells a configuration of a parser from the others of its set. -/
def Config.place (c : Config) : Place := ⟨c.state, c.alt, c.guard⟩

theorem Config.agrees_iff_place {c d : Config} : c.agrees d = true ↔ c.place = d.place := by
  rw [Config.agrees_iff, place, place, Place.mk.injEq]

namespace ConfigSet

variable {s s' : ConfigSet} {q : Place} {c : Config} {memo : Context.Memo}

/-- Some configuration of the set has the place. -/
def At (s : ConfigSet) (q : Place) : Prop := ∃ c ∈ s.configs, c.place = q

/-- The places of the sets are the same. -/
def Alike (s s' : ConfigSet) : Prop := ∀ q, s.At q ↔ s'.At q

/-- The set has configurations, and all of them have one place. -/
def Only (s : ConfigSet) (q : Place) : Prop := ∀ q', s.At q' ↔ q' = q

theorem Alike.symm (alike : s.Alike s') : s'.Alike s := fun q => (alike q).symm

theorem Only.of_alike (only : s.Only q) (alike : s.Alike s') : s'.Only q := fun q' =>
  (alike q').symm.trans (only q')

theorem at_iff_mem_key : s.At q ↔ ∃ c ∈ s.identity, c.place = q := by
  have mem (c : Config) : c ∈ s.key ↔ c ∈ s.configs := by
    unfold key
    split
    · exact Array.mem_toList_iff
    · rw [List.mem_mergeSort, Array.mem_toList_iff]
  simp only [identity, List.mem_map, At]
  constructor
  · rintro ⟨c, member, rfl⟩
    exact ⟨c.identity, ⟨c, (mem c).2 member, rfl⟩, rfl⟩
  · rintro ⟨_, ⟨c, member, rfl⟩, rfl⟩
    exact ⟨c, (mem c).1 member, rfl⟩

theorem alike_of_identity (same : s.identity = s'.identity) : s.Alike s' := fun q => by
  rw [at_iff_mem_key, at_iff_mem_key, same]

theorem at_insertMemo (unordered : s.ordered = false) :
    (s.insertMemo c memo).1.At q ↔ s.At q ∨ q = c.place := by
  simp only [insertMemo]
  rw [show (s.note c).ordered = s.ordered from rfl, unordered, if_neg Bool.false_ne_true]
  cases found : (s.note c).place? c with
  | none =>
    simp only [At, push, Array.mem_push]
    constructor
    · rintro ⟨d, old | rfl, rfl⟩
      · exact .inl ⟨d, old, rfl⟩
      · exact .inr rfl
    · rintro (⟨d, old, rfl⟩ | rfl)
      · exact ⟨d, .inl old, rfl⟩
      · exact ⟨c, .inr rfl, rfl⟩
  | some i =>
    obtain ⟨inside, agrees, -⟩ := Array.findIdx?_eq_some_iff_getElem.1 found
    have inside : i < s.configs.size := inside
    have samePlace : s.configs[i].place = c.place := Config.agrees_iff_place.1 agrees
    dsimp only
    have places (d : Config) (merged : Context) : (d.absorb c merged).place = d.place := rfl
    simp only [At, absorbAt, Array.mem_iff_getElem, Array.size_modify, Array.getElem_modify]
    constructor
    · rintro ⟨d, ⟨j, below, rfl⟩, rfl⟩
      refine .inl ⟨s.configs[j], ⟨j, below, rfl⟩, ?_⟩
      split <;> rfl
    · rintro (⟨d, ⟨j, below, rfl⟩, rfl⟩ | rfl)
      · refine ⟨_, ⟨j, below, rfl⟩, ?_⟩
        change (if i = j then _ else s.configs[j]).place = _
        split <;> rfl
      · refine ⟨_, ⟨i, inside, rfl⟩, ?_⟩
        rw [if_pos rfl]
        exact samePlace

/-- The set of a parser with local context, in which no call is pending. -/
structure Rooted (s : ConfigSet) : Prop where
  unordered : s.ordered = false
  local' : s.fullContext = false
  contexts : ∀ c ∈ s.configs, c.context = .empty

theorem rooted_ofParser : (ofParser false).Rooted := ⟨rfl, rfl, fun c member => by simp [ofParser] at member⟩

theorem Rooted.insertMemo (rooted : s.Rooted) (bottom : c.context = .empty) : (s.insertMemo c memo).1.Rooted := by
  simp only [ConfigSet.insertMemo]
  rw [show (s.note c).ordered = s.ordered from rfl, rooted.unordered, if_neg Bool.false_ne_true]
  cases found : (s.note c).place? c with
  | none =>
    refine ⟨rooted.unordered, rooted.local', fun d member => ?_⟩
    rcases Array.mem_push.1 member with old | rfl
    · exact rooted.contexts d old
    · exact bottom
  | some i =>
    obtain ⟨inside, -, -⟩ := Array.findIdx?_eq_some_iff_getElem.1 found
    have inside : i < s.configs.size := inside
    have before : (s.note c).contextAt i = .empty := by
      change (s.configs[i]?.map (·.context)).getD .empty = .empty
      rw [Array.getElem?_eq_getElem inside]
      exact rooted.contexts _ (Array.getElem_mem inside)
    have merged (wild : Bool) : (Context.mergeMemo wild .empty .empty memo).1 = .empty := by
      unfold Context.mergeMemo
      rw [if_pos rfl]
    dsimp only
    rw [before, bottom]
    refine ⟨rooted.unordered, rooted.local', fun d member => ?_⟩
    simp only [absorbAt, Array.mem_iff_getElem, Array.size_modify, Array.getElem_modify] at member
    obtain ⟨j, below, rfl⟩ := member
    split
    · exact merged _
    · exact rooted.contexts _ (Array.getElem_mem below)

theorem Rooted.intern (rooted : s.Rooted) (table : Context.Table) : (s.intern table).1 = s :=
  intern_eq (fun c member => ⟨[], rooted.contexts c member⟩) table

end ConfigSet

/-! ## What the state behind a token says -/

/-- The state is accepting without further ado: it has the alternative, or asks the guard about it. -/
structure DfaState.Answers (t : DfaState) (q : Place) : Prop where
  only : t.configs.Only q
  accepts : t.accepts = true
  local' : t.needsFullContext = false
  outcome : (t.predicates = none ∧ t.prediction = q.alt) ∨ t.predicates = some [⟨q.guard, q.alt⟩]

namespace Prediction

variable {s : ConfigSet} {q : Place}

theorem sharedAlt_of_only (only : s.Only q) (valid : 1 ≤ q.alt) : s.sharedAlt = q.alt := by
  have all : ∀ c ∈ s.configs.toList, c.alt = q.alt := fun c member =>
    congrArg Place.alt ((only c.place).1 ⟨c, Array.mem_toList_iff.1 member, rfl⟩)
  refine (ConfigSet.sharedAlt_eq_iff (fun c member => (all c member).symm ▸ valid) (Nat.ne_of_gt valid)).2 ⟨?_, all⟩
  obtain ⟨c, member, -⟩ := (only q).2 rfl
  exact List.ne_nil_of_mem (Array.mem_toList_iff.2 member)

theorem guardOf_of_only (only : s.Only q) (normal : q.guard.Normal) : guardOf s q.alt = q.guard := by
  have all : ∀ c ∈ s.configs.toList, c.place = q := fun c member =>
    (only c.place).1 ⟨c, Array.mem_toList_iff.1 member, rfl⟩
  have kept : s.configs.toList.filter (·.alt == q.alt) = s.configs.toList :=
    List.filter_eq_self.2 fun c member => beq_iff_eq.2 (congrArg Place.alt (all c member))
  have fold (gs : List Guard) (same : ∀ g ∈ gs, g = q.guard) : gs.foldl Guard.or q.guard = q.guard := by
    induction gs with
    | nil => rfl
    | cons g gs ih =>
      rw [List.foldl_cons, same g List.mem_cons_self, Guard.or_self normal]
      exact ih fun g member => same g (List.mem_cons_of_mem _ member)
  rw [guardOf, kept]
  cases configs : s.configs.toList with
  | nil =>
    obtain ⟨c, member, -⟩ := (only q).2 rfl
    rw [← Array.mem_toList_iff, configs] at member
    cases member
  | cons c cs =>
    rw [configs] at all
    have guards : ∀ d ∈ c :: cs, d.guard = q.guard := fun d member => congrArg Place.guard (all d member)
    rw [List.map_cons, guards c List.mem_cons_self]
    refine fold _ fun g member => ?_
    obtain ⟨d, among, rfl⟩ := List.mem_map.1 member
    exact guards d (List.mem_cons_of_mem _ among)

theorem filter_range_singleton {a count : Nat} (valid : 1 ≤ a) (known : a ≤ count) :
    (List.range' 1 count).filter (AltSet.singleton a).contains = [a] := by
  have asPredicate : (AltSet.singleton a).contains = fun b => b == a := by
    funext b
    by_cases same : b = a <;>
      simp [AltSet.singleton, AltSet.contains, AltSet.insert, AltSet.empty, AltSet.insertAscending, same]
  rw [asPredicate, List.filter_beq, List.count_eq_one_of_mem (List.nodup_range' ..) (List.mem_range'_1.2 (by omega))]
  rfl

theorem stateOf_answers (net : Network) (mode : PredictionMode) {count : Nat} (width : Nat) (only : s.Only q)
    (valid : 1 ≤ q.alt) (known : q.alt ≤ count) (normal : q.guard.Normal) :
    (stateOf net mode count width s).Answers q := by
  have present : q.alt ≠ invalidAlt := Nat.ne_of_gt valid
  unfold stateOf
  rw [sharedAlt_of_only only valid]
  simp only [if_pos present]
  unfold guardState
  have only' : ({ s with uniqueAlt := q.alt } : ConfigSet).Only q := only
  have guard : guardOf { s with uniqueAlt := q.alt } q.alt = q.guard := guardOf_of_only only' normal
  dsimp only [DfaState.ofConfigs]
  rw [Bool.true_and]
  split
  · rw [guardedAlts, filter_range_singleton valid known, List.map_singleton, guard]
    split
    · rename_i some'
      split at some'
      · cases some'
      · obtain rfl := Option.some.inj some'
        exact ⟨only', rfl, rfl, .inr rfl⟩
    · exact ⟨only', rfl, rfl, .inl ⟨rfl, rfl⟩⟩
  · exact ⟨only', rfl, rfl, .inl ⟨rfl, rfl⟩⟩

end Prediction

/-! ## Decisions that one token settles -/

/-- The precedence of the rule call in progress. -/
def Guard.Evaluator.Compares {η : Type} (evaluator : Guard.Evaluator η) (p : Int) : Prop :=
  ∀ q h, evaluator.precedence q h = (decide (q ≥ p), h)

/-- What is fixed at a decision, but the answers of the user code. -/
structure DecisionSite where
  net : Network
  decision : Nat
  start : Nat
  loop : Bool
  fuel : Nat

/-- What is fixed during a prediction. -/
def DecisionSite.env {η : Type} (site : DecisionSite) (evaluator : Guard.Evaluator η) : Prediction.Env η where
  net := site.net
  decision := site.decision
  startState := site.start
  precedenceLoop := site.loop
  evaluator
  fuel := site.fuel

/-- A decision at which every token that is asked about leaves one alternative. -/
structure Settling (η : Type) (site : DecisionSite) where
  /-- The sets with which the decision begins at a precedence. -/
  Opens : Int → ConfigSet → Prop
  Asked : Int → Prop
  /-- Where a token leads at a precedence. -/
  place : Int → Int → Place
  alike : ∀ {p s s'}, Opens p s → s.Alike s' → Opens p s'
  valid : ∀ p x, Asked x → 1 ≤ (place p x).alt ∧ (place p x).alt ≤ site.net.choices site.decision ∧
    (place p x).guard.Normal
  apart : ∀ {p p' x s}, Asked x → Opens p s → ¬ s.Only (place p' x)
  agree : ∀ {p p' x s}, Asked x → Opens p s → Opens p' s → place p x = place p' x
  /-- Away from the loops of left-recursive rules the precedence does not count. -/
  plain : site.loop = false → ∀ {p p' s}, Opens p s → Opens p' s
  opens : ∀ (evaluator : Guard.Evaluator η) (p : Int), evaluator.Compares p → ∀ w,
    Yields (Prediction.startSet (site.env evaluator) .empty false) w fun s w' => w'.hooks = w.hooks ∧
      if site.loop then Yields (Prediction.precedenceFilter (site.env evaluator) s) w' fun s' w'' =>
        w''.hooks = w.hooks ∧ s'.Rooted ∧ Opens p s'
      else s.Rooted ∧ Opens p s
  follows : ∀ {p s x}, s.Rooted → Opens p s → Asked x → ∀ (evaluator : Guard.Evaluator η) w,
    Yields (Prediction.reachSet (site.env evaluator) s x false) w fun r w' =>
      w'.hooks = w.hooks ∧ ∃ s', r = some s' ∧ s'.Rooted ∧ s'.Only (place p x)

variable {η : Type} {site : DecisionSite} {σ : Settling η site}

namespace Dfa

variable {d d' : Dfa} {t : DfaState} {n : Nat} {p x : Int}

/-- The decision begins at this state when the rule was called at the precedence. -/
def StartsAt (d : Dfa) (p : Int) (n : Nat) : Prop :=
  (if d.precedence then d.precedenceStart? p else d.start) = some n

/-- The automaton begins where the decision does, and behind every token that was asked about it has the
alternative. -/
structure Settled (σ : Settling η site) (d : Dfa) : Prop where
  networkState : d.networkState = site.start
  precedence : d.precedence = site.loop
  rooted : ∀ t ∈ d.states, t.configs.Rooted
  identity : ∀ t ∈ d.states, t.identity = t.configs.identity
  states : ∀ t ∈ d.states, (∃ p, σ.Opens p t.configs) ∨ ∃ p x, σ.Asked x ∧ t.Answers (σ.place p x)
  starts : ∀ p n, d.StartsAt p n → ∃ t, d.states[n]? = some t ∧ σ.Opens p t.configs
  edges : ∀ t ∈ d.states, ∀ p x, σ.Opens p t.configs → σ.Asked x → ∀ (i : Nat) e, (i : Int) - 1 = x →
    t.edge? i = some e → ∃ (m : Nat) (u : DfaState), e = .target m ∧ d.states[m]? = some u ∧ u.Answers (σ.place p x)

namespace Settled

/-- Of a settled automaton a state with one place answers with it. -/
theorem answers (settled : d.Settled σ) (member : t ∈ d.states) (asked : σ.Asked x)
    (only : t.configs.Only (σ.place p x)) : t.Answers (σ.place p x) := by
  rcases settled.states t member with ⟨p', opens⟩ | ⟨p', x', asked', answers⟩
  · exact absurd only (σ.apart asked opens)
  · have same : σ.place p' x' = σ.place p x := (only _).1 ((answers.only _).2 rfl)
    exact same ▸ answers

theorem find (settled : d.Settled σ) {configs : ConfigSet} (found : d.find? configs.identity = some n) :
    ∃ t, d.states[n]? = some t ∧ t.configs.Alike configs := by
  obtain ⟨inside, same, -⟩ := Array.findIdx?_eq_some_iff_getElem.1 found
  refine ⟨d.states[n], Array.getElem?_eq_getElem inside, ConfigSet.alike_of_identity ?_⟩
  rw [← settled.identity _ (Array.getElem_mem inside)]
  exact beq_iff_eq.1 same

/-- The start states may be recorded anew. -/
theorem of_states (settled : d.Settled σ) (states : d'.states = d.states)
    (networkState : d'.networkState = d.networkState)
    (precedence : d'.precedence = d.precedence)
    (starts : ∀ p n, d'.StartsAt p n → d.StartsAt p n ∨ ∃ t, d.states[n]? = some t ∧ σ.Opens p t.configs) :
    d'.Settled σ := by
  refine ⟨networkState.trans settled.networkState, precedence.trans settled.precedence, ?_, ?_, ?_,
    fun p n isStart => ?_, ?_⟩
  · rw [states]
    exact settled.rooted
  · rw [states]
    exact settled.identity
  · rw [states]
    exact settled.states
  · rw [states]
    exact (starts p n isStart).elim (settled.starts p n) id
  · rw [states]
    exact settled.edges

/-- A state without edges is registered. -/
theorem addState (settled : d.Settled σ) (rooted : t.configs.Rooted) (blank : ∀ i, t.edge? i = none)
    (fits : (∃ p, σ.Opens p t.configs) ∨ ∃ p x, σ.Asked x ∧ t.Answers (σ.place p x)) (table : Context.Table) :
    (d.addState t table).2.1.Settled σ ∧
      (∃ u, (d.addState t table).2.1.states[(d.addState t table).1]? = some u ∧ u.configs.Alike t.configs) ∧
      ∀ (k : Nat) (u : DfaState), d.states[k]? = some u → (d.addState t table).2.1.states[k]? = some u := by
  have kept := rooted.intern table
  cases found : d.find? t.configs.identity with
  | some n =>
    obtain ⟨number, same⟩ := addState_known found table
    rw [number, same]
    exact ⟨settled, settled.find found, fun _ _ => id⟩
  | none =>
    obtain ⟨number, pushed⟩ := addState_unknown found kept
    let new : DfaState := { t with number := d.states.size, identity := t.configs.identity }
    have old (k : Nat) (u : DfaState) (here : d.states[k]? = some u) : (d.states.push new)[k]? = some u := by
      obtain ⟨inside, -⟩ := Array.getElem?_eq_some_iff.1 here
      exact (Array.getElem?_push_lt inside).trans ((Array.getElem?_eq_getElem inside).symm.trans here)
    rw [number, pushed]
    refine ⟨⟨settled.networkState, settled.precedence, fun u member => ?_, fun u member => ?_, fun u member => ?_,
      fun p n isStart => ?_, fun u member p x opens asked i e place edge => ?_⟩,
      ⟨new, Array.getElem?_push_size, fun _ => .rfl⟩, old⟩
    · exact (Array.mem_push.1 member).elim (settled.rooted u) (· ▸ rooted)
    · exact (Array.mem_push.1 member).elim (settled.identity u) fun isNew => isNew ▸ rfl
    · rcases Array.mem_push.1 member with isOld | rfl
      · exact settled.states u isOld
      · exact fits.imp id fun ⟨p, x, asked, answers⟩ =>
          ⟨p, x, asked, answers.only, answers.accepts, answers.local', answers.outcome⟩
    · obtain ⟨u, here, opens⟩ := settled.starts p n isStart
      exact ⟨u, old n u here, opens⟩
    · rcases Array.mem_push.1 member with isOld | rfl
      · obtain ⟨m, v, leads, here, answers⟩ := settled.edges u isOld p x opens asked i e place edge
        exact ⟨m, v, leads, old m v here, answers⟩
      · cases (blank i).symm.trans edge

/-- The states stay when an edge is recorded. -/
theorem kept_setEdge {n i : Nat} {e : DfaEdge} {k : Nat} (found : d.states[k]? = some t) :
    ∃ t' : DfaState, (d.setEdge n i e).states[k]? = some t' ∧ t'.configs = t.configs ∧
      ∀ q, t.Answers q → t'.Answers q := by
  rw [getElem?_setEdge, found]
  split
  · exact ⟨_, rfl, rfl, fun q answers => ⟨answers.only, answers.accepts, answers.local', answers.outcome⟩⟩
  · exact ⟨t, rfl, rfl, fun _ => id⟩

/-- An edge is recorded that leads to the state behind the token. -/
theorem setEdge (settled : d.Settled σ) {i : Nat} {e : DfaEdge}
    (right : ∀ t, d.states[n]? = some t → ∀ p x, σ.Opens p t.configs → σ.Asked x → (i : Int) - 1 = x →
      ∃ (m : Nat) (u : DfaState), e = .target m ∧ d.states[m]? = some u ∧ u.Answers (σ.place p x)) :
    (d.setEdge n i e).Settled σ := by
  have leads {m : Nat} {u : DfaState} {q : Place} (found : d.states[m]? = some u) (answers : u.Answers q) :
      ∃ u' : DfaState, (d.setEdge n i e).states[m]? = some u' ∧ u'.Answers q := by
    obtain ⟨u', found', -, kept⟩ := kept_setEdge (n := n) (i := i) (e := e) found
    exact ⟨u', found', kept q answers⟩
  refine ⟨settled.networkState, settled.precedence, fun u member => ?_, fun u member => ?_, fun u member => ?_,
    fun p k isStart => ?_, fun u member p x opens asked j f place edge => ?_⟩
  · rcases mem_setEdge member with old | ⟨t, here, rfl⟩
    · exact settled.rooted u old
    · exact settled.rooted t (Array.mem_of_getElem? here)
  · rcases mem_setEdge member with old | ⟨t, here, rfl⟩
    · exact settled.identity u old
    · exact settled.identity t (Array.mem_of_getElem? here)
  · rcases mem_setEdge member with old | ⟨t, here, rfl⟩
    · exact settled.states u old
    · exact (settled.states t (Array.mem_of_getElem? here)).imp id fun ⟨p, x, asked, answers⟩ =>
        ⟨p, x, asked, answers.only, answers.accepts, answers.local', answers.outcome⟩
  · obtain ⟨u, here, opens⟩ := settled.starts p k isStart
    obtain ⟨u', here', same, -⟩ := kept_setEdge (n := n) (i := i) (e := e) here
    exact ⟨u', here', same ▸ opens⟩
  · have old (t : DfaState) (member : t ∈ d.states) (opens : σ.Opens p t.configs) (edge : t.edge? j = some f) :
        ∃ (m : Nat) (u : DfaState), f = .target m ∧ (d.setEdge n i e).states[m]? = some u ∧ u.Answers (σ.place p x) := by
      obtain ⟨m, v, leads', here, answers⟩ := settled.edges t member p x opens asked j f place edge
      obtain ⟨v', here', answers'⟩ := leads here answers
      exact ⟨m, v', leads', here', answers'⟩
    rcases mem_setEdge member with isOld | ⟨t, here, rfl⟩
    · exact old u isOld opens edge
    · have member := Array.mem_of_getElem? here
      simp only [DfaState.edge?, DfaState.setEdge, Array.getElem?_modify] at edge
      split at edge
      · rename_i same
        subst same
        cases before : t.edge? i with
        | some g =>
          have isBefore : g = f := by
            simp only [DfaState.edge?] at before
            cases entry : t.edges[i]? with
            | none => simp [entry] at before
            | some o =>
              cases o with
              | none => simp [entry] at before
              | some g' => simp_all
          exact old t member opens (isBefore ▸ before)
        | none =>
          have isNew : f = e := by
            simp only [DfaState.edge?] at before
            cases entry : t.edges[i]? with
            | none => simp [entry] at edge
            | some o =>
              cases o with
              | none => simpa [entry, eq_comm] using edge
              | some g' => simp [entry] at before
          obtain ⟨m, v, leads', here', answers⟩ := right t here p x opens asked place
          obtain ⟨v', here'', answers'⟩ := leads here' answers
          exact ⟨m, v', isNew.trans leads', here'', answers'⟩
      · exact old t member opens edge

end Settled

end Dfa

/-! ## Predictions -/

/-- Before anything was learned the automaton of a decision is settled. -/
theorem DfaCache.settled_fresh (parser : site.net.isLexer = false)
    (decides : site.net.decisions[site.decision]? = some site.start)
    (loop : (site.net.state site.start).kind.isPrecedenceLoop = site.loop) :
    site.decision < (ofNetwork site.net).dfas.size ∧ ((ofNetwork site.net).dfa site.decision).Settled σ := by
  obtain ⟨inside, here⟩ := Array.getElem?_eq_some_iff.1 decides
  have fresh : (ofNetwork site.net).dfa site.decision =
      { decision := site.decision, networkState := site.start, width := (site.net.maxTokenType + 2).toNat
        precedence := site.loop } := by
    rw [dfa, ofNetwork, parser, if_neg Bool.false_ne_true, Array.getD_eq_getD_getElem?, Array.getElem?_mapIdx,
      decides, ← loop]
    rfl
  refine ⟨?_, ?_⟩
  · rw [ofNetwork, parser, if_neg Bool.false_ne_true]
    simpa using inside
  · rw [fresh]
    have unset (p : Int) (n : Nat) (isStart : Dfa.StartsAt
        { decision := site.decision, networkState := site.start, width := (site.net.maxTokenType + 2).toNat
          precedence := site.loop } p n) : False := by
      simp only [Dfa.StartsAt, Dfa.precedenceStart?] at isStart
      split at isStart <;> simp at isStart
    exact ⟨rfl, rfl, by simp, by simp, by simp, fun p n isStart => (unset p n isStart).elim, by simp⟩

namespace Simulator

open Prediction Session

variable {s s' s'' : Simulator η} {α : Type} {n : Nat} {p x : Int} {evaluator : Guard.Evaluator η}

/-- The automaton of the decision is settled. -/
structure Settled (σ : Settling η site) (s : Simulator η) : Prop where
  inside : site.decision < s.cache.dfas.size
  dfa : (s.cache.dfa site.decision).Settled σ

/-- Nothing changes but what was learned of the decision. -/
structure Learns (σ : Settling η site) (s s' : Simulator η) : Prop where
  settled : s'.Settled σ
  mode : s'.mode = s.mode
  size : s'.cache.dfas.size = s.cache.dfas.size
  others : ∀ k ≠ site.decision, s'.cache.dfa k = s.cache.dfa k

theorem Learns.trans (first : Learns σ s s') (second : Learns σ s' s'') : Learns σ s s'' :=
  ⟨second.settled, second.mode.trans first.mode, second.size.trans first.size,
    fun k other => (second.others k other).trans (first.others k other)⟩

theorem Settled.learns (settled : s.Settled σ) (cache : s'.cache = s.cache) (mode : s'.mode = s.mode) :
    Learns σ s s' :=
  ⟨⟨cache ▸ settled.inside, cache ▸ settled.dfa⟩, mode, by rw [cache], fun k _ => by rw [cache]⟩

/-- The decision gets another automaton. -/
theorem Settled.relearn (settled : s.Settled σ) {d : Dfa} {cache : DfaCache} (isSettled : d.Settled σ)
    (size : cache.dfas.size = s.cache.dfas.size)
    (changed : ∀ k, cache.dfa k = if k = site.decision then d else s.cache.dfa k) : Learns σ s { s with cache } := by
  refine ⟨⟨size ▸ settled.inside, ?_⟩, rfl, size, fun k other => ?_⟩
  · change (cache.dfa site.decision).Settled σ
    rw [changed, if_pos rfl]
    exact isSettled
  · exact (changed k).trans (if_neg other)

theorem onConfigs_reaches {step : ScratchM η α} {Q : α → Scratch η → Prop}
    (yields : Yields step { merges := s.merges, hooks := s.stream.hooks } fun a w => w.hooks = s.stream.hooks ∧ Q a w) :
    Reaches (onConfigs step) s fun a s' => ∃ w : Scratch η, s' = { s with merges := w.merges } ∧
      w = { merges := s'.merges, hooks := s'.stream.hooks } ∧ Q a w := by
  obtain ⟨a, w, ran, hooks, holds⟩ := yields
  have kept := s.stream.setHooks_hooks
  refine .get_bind ?_
  rw [ran]
  refine .set_bind (.pure ⟨w, ?_, ?_, holds⟩)
  · rw [hooks, kept]
  · rw [hooks, kept, ← hooks]

theorem dfasSize_addState (cache : DfaCache) (i : Nat) (t : DfaState) :
    (cache.addState i t).2.dfas.size = cache.dfas.size := by
  simp [DfaCache.addState]

theorem register_reaches (settled : s.Settled σ) {t : DfaState} (rooted : t.configs.Rooted)
    (blank : ∀ i, t.edge? i = none)
    (fits : (∃ p, σ.Opens p t.configs) ∨ ∃ p x, σ.Asked x ∧ t.Answers (σ.place p x)) :
    Reaches (register site.decision t) s fun n s' => Learns σ s s' ∧ s'.stream = s.stream ∧
      (∃ u, (s'.cache.dfa site.decision).states[n]? = some u ∧ u.configs.Alike t.configs) ∧
      (∀ (k : Nat) (u : DfaState), (s.cache.dfa site.decision).states[k]? = some u →
        (s'.cache.dfa site.decision).states[k]? = some u) ∧
      ∀ q m, (s'.cache.dfa site.decision).StartsAt q m → (s.cache.dfa site.decision).StartsAt q m := by
  obtain ⟨isSettled, found, kept⟩ := settled.dfa.addState rooted blank fits s.cache.contexts
  have changed := Lexer.dfa_addState settled.inside t
  have here := (changed site.decision).trans (if_pos rfl)
  refine fun j => ⟨_, _, j, rfl, ?_⟩
  refine ⟨settled.relearn isSettled (dfasSize_addState _ _ _) changed, rfl, ?_, ?_, ?_⟩
  · change ∃ u, ((s.cache.addState site.decision t).2.dfa site.decision).states[_]? = some u ∧ _
    rw [here]
    exact found
  · change ∀ (k : Nat) (u : DfaState), _ → ((s.cache.addState site.decision t).2.dfa site.decision).states[k]? = some u
    rw [here]
    exact kept
  · obtain ⟨start, precedenceStarts⟩ := DfaCache.addState_starts s.cache site.decision t
    intro q m isStart
    change ((s.cache.addState site.decision t).2.dfa site.decision).StartsAt q m at isStart
    rw [Dfa.StartsAt, Dfa.precedenceStart?, start, precedenceStarts, here, isSettled.precedence] at isStart
    rwa [Dfa.StartsAt, Dfa.precedenceStart?, settled.dfa.precedence]

theorem modifyDfa_reaches (settled : s.Settled σ) {f : Dfa → Dfa}
    (isSettled : (f (s.cache.dfa site.decision)).Settled σ) :
    Reaches (modifyDfa site.decision f) s fun _ s' => Learns σ s s' ∧ s'.stream = s.stream ∧
      s'.cache.dfa site.decision = f (s.cache.dfa site.decision) := by
  have changed := Lexer.dfa_modifyDfa settled.inside f
  refine .of_modify ⟨settled.relearn isSettled (by simp [DfaCache.modifyDfa]) changed, rfl, ?_⟩
  exact (changed site.decision).trans (if_pos rfl)

theorem setPrecedenceStart_records {d : Dfa} (loop : site.loop = true) (n : Nat) (precedence : d.precedence = site.loop)
    (unset : ∀ m, ¬ d.StartsAt p m) : (d.setPrecedenceStart p n).1 = n ∧
      (d.setPrecedenceStart p n).2.states = d.states ∧ (d.setPrecedenceStart p n).2.networkState = d.networkState ∧
      (d.setPrecedenceStart p n).2.precedence = d.precedence ∧ ∀ q m, (d.setPrecedenceStart p n).2.StartsAt q m →
        d.StartsAt q m ∨ m = n ∧ (site.loop = true → q = p) := by
  have isLoop : d.precedence = true := precedence.trans loop
  have none' : d.precedenceStart? p = none := Option.eq_none_iff_forall_ne_some.2 fun m found =>
    unset m (by rw [Dfa.StartsAt, if_pos isLoop, found])
  rw [Dfa.setPrecedenceStart, none']
  refine ⟨rfl, rfl, rfl, rfl, fun q m isStart => ?_⟩
  simp only [Dfa.StartsAt, isLoop, if_true, Dfa.precedenceStart?, List.find?_append, Option.map_or] at isStart ⊢
  cases found : d.precedenceStarts.find? (·.1 == q) with
  | some r =>
    rw [found] at isStart
    exact .inl isStart
  | none =>
    rw [found, Option.map_none, Option.none_or] at isStart
    obtain ⟨r, last, rfl⟩ := Option.map_eq_some_iff.1 isStart
    have same := List.find?_some last
    obtain rfl := List.mem_singleton.1 (List.mem_of_find?_eq_some last)
    exact .inr ⟨rfl, fun _ => (beq_iff_eq.1 same).symm⟩

theorem setStart_records {d : Dfa} (plain : site.loop = false) (n : Nat) (precedence : d.precedence = site.loop)
    (unset : ∀ m, ¬ d.StartsAt p m) : (d.setStart n).1 = n ∧ (d.setStart n).2.states = d.states ∧
      (d.setStart n).2.networkState = d.networkState ∧ (d.setStart n).2.precedence = d.precedence ∧
      ∀ q m, (d.setStart n).2.StartsAt q m → d.StartsAt q m ∨ m = n ∧ (site.loop = true → q = p) := by
  have noLoop : d.precedence = false := precedence.trans plain
  have none' : d.start = none := Option.eq_none_iff_forall_ne_some.2 fun m found =>
    unset m (by rw [Dfa.StartsAt, noLoop, if_neg Bool.false_ne_true, found])
  rw [Dfa.setStart, none']
  refine ⟨rfl, rfl, rfl, rfl, fun q m isStart => .inr ⟨?_, fun loop =>
    absurd (plain.symm.trans loop) Bool.false_ne_true⟩⟩
  simp only [Dfa.StartsAt, noLoop] at isStart
  exact (Option.some.inj isStart).symm

/-- A set with which the decision begins is registered and recorded. -/
theorem recordStart_reaches (settled : s.Settled σ) {configs : ConfigSet} (rooted : configs.Rooted)
    (opens : σ.Opens p configs) (width : Nat) (unset : ∀ n, ¬ (s.cache.dfa site.decision).StartsAt p n)
    {f : Nat → Dfa → Nat × Dfa}
    (records : ∀ (n : Nat) (d : Dfa), d.precedence = site.loop → (∀ m, ¬ d.StartsAt p m) → (f n d).1 = n ∧
      (f n d).2.states = d.states ∧ (f n d).2.networkState = d.networkState ∧
      (f n d).2.precedence = d.precedence ∧
      ∀ q m, (f n d).2.StartsAt q m → d.StartsAt q m ∨ m = n ∧ (site.loop = true → q = p)) :
    Reaches (do
      let n ← register site.decision (.ofConfigs configs width)
      let (n, d) := f n (← Simulator.dfa site.decision)
      modifyDfa site.decision fun _ => d
      return n) s fun n s' => Learns σ s s' ∧ s'.stream = s.stream ∧
        ∃ t, (s'.cache.dfa site.decision).states[n]? = some t ∧ σ.Opens p t.configs := by
  have blank (i : Nat) : (DfaState.ofConfigs configs width).edge? i = none := by
    simp only [DfaState.edge?, DfaState.ofConfigs, Array.getElem?_replicate]
    split <;> rfl
  refine (register_reaches settled (t := .ofConfigs configs width) rooted blank (.inl ⟨p, opens⟩)).bind ?_
  rintro n s₁ ⟨learns, stream, ⟨t, found, alike⟩, -, starts⟩
  refine .get_bind ?_
  have settled₁ := learns.settled
  obtain ⟨number, states, networkState, precedence, recorded⟩ := records n (s₁.cache.dfa site.decision)
    settled₁.dfa.precedence fun m isStart => unset m (starts p m isStart)
  have opens' : σ.Opens p t.configs := σ.alike opens alike.symm
  have isSettled : (f n (s₁.cache.dfa site.decision)).2.Settled σ := by
    refine settled₁.dfa.of_states states networkState precedence fun q m isStart => ?_
    refine (recorded q m isStart).imp id ?_
    rintro ⟨rfl, same⟩
    refine ⟨t, found, ?_⟩
    cases loop : site.loop with
    | true => exact same loop ▸ opens'
    | false => exact σ.plain loop opens'
  refine (modifyDfa_reaches settled₁ (f := fun _ => (f n (s₁.cache.dfa site.decision)).2) isSettled).bind ?_
  rintro _ s₂ ⟨learns', stream', changed⟩
  refine .pure ⟨learns.trans learns', stream'.trans stream, t, ?_, opens'⟩
  rw [changed, states, number]
  exact found

/-- The decision begins in a state that is right for the precedence. -/
theorem startState_reaches (settled : s.Settled σ) (compares : evaluator.Compares p) :
    Reaches (startState (site.env evaluator) p) s fun n s' => Learns σ s s' ∧ s'.stream = s.stream ∧
      ∃ t, (s'.cache.dfa site.decision).states[n]? = some t ∧ σ.Opens p t.configs := by
  have precedence := settled.dfa.precedence
  refine .get_bind ?_
  dsimp only
  split
  · rename_i n found
    exact .pure ⟨settled.learns rfl rfl, rfl, settled.dfa.starts p n found⟩
  · rename_i unset
    have unset : ∀ n, ¬ (s.cache.dfa site.decision).StartsAt p n := fun n isStart => by
      cases unset.symm.trans isStart
    refine (onConfigs_reaches (σ.opens evaluator p compares _)).bind fun configs s₁ ⟨w, same, scratch, opens⟩ => ?_
    have learns₁ : Learns σ s s₁ := settled.learns (by rw [same]) (by rw [same])
    have stream₁ : s₁.stream = s.stream := by rw [same]
    have unset₁ : ∀ n, ¬ (s₁.cache.dfa site.decision).StartsAt p n := by rw [same]; exact unset
    change Reaches (if (s.cache.dfa site.decision).precedence then _ else _) s₁ _
    rw [precedence]
    split
    · rename_i loop
      rw [if_pos loop, scratch] at opens
      have hooks : w.hooks = s₁.stream.hooks := by rw [scratch]
      refine (onConfigs_reaches (Q := fun s' _ => s'.Rooted ∧ σ.Opens p s') (opens.imp fun _ _ ⟨hooks, holds⟩ =>
        ⟨hooks.trans (by rw [stream₁]), holds⟩)).bind
        fun configs' s₂ ⟨w₂, same₂, _, rooted, opens⟩ => ?_
      have learns₂ : Learns σ s₁ s₂ := learns₁.settled.learns (by rw [same₂]) (by rw [same₂])
      have unset₂ : ∀ n, ¬ (s₂.cache.dfa site.decision).StartsAt p n := by rw [same₂]; exact unset₁
      refine (recordStart_reaches (f := fun n d => d.setPrecedenceStart p n) learns₂.settled rooted opens _ unset₂
        fun n d precedence unset => ?_).imp fun n s₃ ⟨learns₃, stream₃, found⟩ =>
          ⟨(learns₁.trans learns₂).trans learns₃, stream₃.trans (by rw [same₂]; exact stream₁), found⟩
      exact setPrecedenceStart_records loop n precedence unset
    · rename_i plain
      rw [if_neg plain] at opens
      refine (recordStart_reaches (f := fun n d => d.setStart n) learns₁.settled opens.1 opens.2 _ unset₁
        fun n d precedence unset => ?_).imp fun n s₃ ⟨learns₃, stream₃, found⟩ =>
          ⟨learns₁.trans learns₃, stream₃.trans stream₁, found⟩
      exact setStart_records (Bool.eq_false_iff.2 plain) n precedence unset

/-- A token leads to a state that has the alternative it leaves. -/
theorem target_reaches (settled : s.Settled σ) {t : DfaState}
    (found : (s.cache.dfa site.decision).states[n]? = some t) (opens : σ.Opens p t.configs) (asked : σ.Asked x)
    (evaluator : Guard.Evaluator η) :
    Reaches (target (site.env evaluator) n x) s fun e s' => Learns σ s s' ∧ s'.stream = s.stream ∧
      ∃ (m : Nat) (u : DfaState), e = .target m ∧ (s'.cache.dfa site.decision).states[m]? = some u ∧
        u.Answers (σ.place p x) := by
  have isState : (s.cache.dfa site.decision).state n = t := by
    rw [Dfa.state, Array.getD_eq_getD_getElem?, found, Option.getD_some]
  have member := Array.mem_of_getElem? found
  have place {i : Nat} (here : edgePlace? site.net x = some i) : (i : Int) - 1 = x := by
    unfold edgePlace? at here
    split at here
    · obtain rfl := Option.some.inj here
      omega
    · cases here
  refine .get_bind ?_
  dsimp only [DecisionSite.env]
  rw [isState]
  split
  · rename_i e known
    obtain ⟨i, here, edge⟩ := Option.bind_eq_some_iff.1 known
    refine .modify_bind (.pure ⟨settled.learns rfl rfl, rfl, ?_⟩)
    exact settled.dfa.edges t member p x opens asked i e (place here) edge
  · refine .modify_bind (.get_bind ?_)
    have settled₁ :
        ({ s with stats := { s.stats with networkSteps := s.stats.networkSteps + 1 } } : Simulator η).Settled σ :=
      ⟨settled.inside, settled.dfa⟩
    refine (onConfigs_reaches (Q := fun r _ => ∃ s', r = some s' ∧ s'.Rooted ∧ s'.Only (σ.place p x)) ?_).bind ?_
    · change Yields (reachSet (site.env evaluator) ((s.cache.dfa site.decision).state n).configs x false) _ _
      rw [isState]
      exact σ.follows (settled.dfa.rooted t member) opens asked evaluator _
    rintro _ s₁ ⟨w, same, -, reach, rfl, rooted, only⟩
    have learns₁ : Learns σ s s₁ := settled.learns (by rw [same]) (by rw [same])
    have stream₁ : s₁.stream = s.stream := by rw [same]
    have found₁ : (s₁.cache.dfa site.decision).states[n]? = some t := by rw [same]; exact found
    obtain ⟨valid, known, normal⟩ := σ.valid p x asked
    have answers := stateOf_answers site.net s₁.mode (s.cache.dfa site.decision).width only valid known normal
    obtain ⟨configs, ordered, full, noEdges⟩ := stateOf_spec site.net s₁.mode (site.net.choices site.decision)
      (s.cache.dfa site.decision).width reach
    refine .get_bind ((register_reaches learns₁.settled ⟨ordered.trans rooted.unordered, full.trans rooted.local',
      configs ▸ rooted.contexts⟩ noEdges (.inr ⟨p, x, asked, answers⟩)).bind ?_)
    rintro m s₂ ⟨learns₂, stream₂, ⟨u, here, alike⟩, kept, -⟩
    have answers' : u.Answers (σ.place p x) := learns₂.settled.dfa.answers (Array.mem_of_getElem? here) asked
      (answers.only.of_alike alike.symm)
    have found₂ := kept n t found₁
    have both := learns₁.trans learns₂
    have streams := stream₂.trans stream₁
    unfold recordEdge
    cases isPlace : edgePlace? site.net x with
    | none => exact .pure ⟨both, streams, m, u, rfl, here, answers'⟩
    | some i =>
      have isSettled : ((s₂.cache.dfa site.decision).setEdge n i (.target m)).Settled σ := by
        refine both.settled.dfa.setEdge fun t' found' p' x' opens' asked' here' => ⟨m, u, rfl, here, ?_⟩
        obtain rfl := Option.some.inj (found₂.symm.trans found')
        obtain rfl : x' = x := here'.symm.trans (place isPlace)
        rw [σ.agree asked opens' opens]
        exact answers'
      refine (modifyDfa_reaches both.settled (f := (·.setEdge n i (.target m))) isSettled).bind ?_
      rintro _ s₃ ⟨learns₃, stream₃, changed⟩
      refine .pure ⟨both.trans learns₃, stream₃.trans streams, m, ?_⟩
      obtain ⟨u', here', _, kept'⟩ := Dfa.Settled.kept_setEdge (n := n) (i := i) (e := .target m) here
      exact ⟨u', rfl, by rw [changed]; exact here', kept' _ answers'⟩

variable {tape : TokenTape} {pos : Option Nat}

theorem onStream_reaches {step : TokenStream.StreamM η α} {Q : α → TokenStream η → Prop}
    (reaches : Reaches step s.stream Q) :
    Reaches (onStream step) s fun a s' => ∃ stream, s' = { s with stream } ∧ Q a stream :=
  .get_bind (.part_bind reaches fun _ stream holds => .set_bind (.pure ⟨stream, rfl, holds⟩))

/-- The state behind the token ends the prediction. -/
theorem accept_reaches {u : DfaState} {q : Place} (answers : u.Answers q)
    (holds : ∀ h, (q.guard.eval evaluator).run h = (true, h)) (views : s.stream.Views site.fuel tape pos)
    (enough : tape.body.length < site.fuel) (start : Nat) :
    Reaches (accept (site.env evaluator) start u) s fun r s' => r = .ok q.alt ∧ s'.cache = s.cache ∧
      s'.mode = s.mode ∧ ∃ pos', s'.stream.Views site.fuel tape pos' := by
  unfold accept
  rcases answers.outcome with ⟨none', prediction⟩ | guarded
  · simp only [none', prediction, Int.toNat_natCast]
    exact .pure ⟨rfl, rfl, rfl, pos, views⟩
  · simp only [guarded]
    refine (onStream_reaches (views.returnTo enough start)).bind fun _ s₁ ⟨stream, same, views₁⟩ => ?_
    have yields : Yields (enabledAlts (site.env evaluator) [⟨q.guard, q.alt⟩])
        { merges := s₁.merges, hooks := s₁.stream.hooks } fun enabled w =>
          w.hooks = s₁.stream.hooks ∧ enabled = .singleton q.alt := by
      refine ⟨.singleton q.alt, { merges := s₁.merges, hooks := s₁.stream.hooks }, ?_, rfl, rfl⟩
      have asked : (ask (site.env evaluator) q.guard).run { merges := s₁.merges, hooks := s₁.stream.hooks } =
          some (true, { merges := s₁.merges, hooks := s₁.stream.hooks }) := by
        change some (((q.guard.eval evaluator).run s₁.stream.hooks).1,
          ({ merges := s₁.merges, hooks := ((q.guard.eval evaluator).run s₁.stream.hooks).2 } : Scratch η)) = _
        rw [holds]
      rw [enabledAlts, List.foldlM_cons, StateT.run_bind, StateT.run_bind, asked]
      rfl
    refine (onConfigs_reaches yields).bind fun enabled s₂ ⟨w, same₂, _, isSingle⟩ => ?_
    subst isSingle same₂ same
    exact .pure ⟨rfl, rfl, rfl, _, views₁⟩

theorem runLocal_reaches (settled : s.Settled σ) {t : DfaState}
    (found : (s.cache.dfa site.decision).states[n]? = some t) (opens : σ.Opens p t.configs) (asked : σ.Asked x)
    (holds : ∀ h, ((σ.place p x).guard.eval evaluator).run h = (true, h)) (views : s.stream.Views site.fuel tape pos)
    (enough : tape.body.length < site.fuel) (start : Nat) (outer : Context) (rounds : Nat) :
    Reaches (runLocal (site.env evaluator) start outer (rounds + 1) n x) s fun r s' => r = .ok (σ.place p x).alt ∧
      Learns σ s s' ∧ ∃ pos', s'.stream.Views site.fuel tape pos' := by
  refine (target_reaches settled found opens asked evaluator).bind ?_
  rintro _ s₁ ⟨learns₁, stream₁, m, u, rfl, here, answers⟩
  have isState : (s₁.cache.dfa site.decision).state m = u := by
    rw [Dfa.state, Array.getD_eq_getD_getElem?, here, Option.getD_some]
  refine .get_bind (.get_bind ?_)
  change Reaches (if ((s₁.cache.dfa site.decision).state m).needsFullContext && s₁.mode != .sll then _
    else if ((s₁.cache.dfa site.decision).state m).accepts then
      accept (site.env evaluator) start ((s₁.cache.dfa site.decision).state m) else _) s₁ _
  rw [isState, answers.local', Bool.false_and, if_neg Bool.false_ne_true, if_pos answers.accepts]
  refine (accept_reaches answers holds (stream₁ ▸ views) enough start).imp ?_
  rintro r s₂ ⟨ok, cache, mode, views₂⟩
  exact ⟨ok, learns₁.trans (learns₁.settled.learns cache mode), views₂⟩

/-- A prediction ends with the alternative that the token leaves, and the stream is where it was. -/
theorem predict_settles (settled : s.Settled σ) (compares : evaluator.Compares p) {i : Nat}
    (views : s.stream.Views site.fuel tape (some i)) (enough : tape.body.length < site.fuel)
    (asked : σ.Asked (((tape.lt? (some i) 1).map (·.type)).getD invalidType))
    (holds : ∀ h, ((σ.place p (((tape.lt? (some i) 1).map (·.type)).getD invalidType)).guard.eval evaluator).run h =
      (true, h)) (callStack : List Nat) :
    Reaches (predict site.net site.fuel evaluator site.decision callStack p) s fun r s' =>
      r = .ok (σ.place p (((tape.lt? (some i) 1).map (·.type)).getD invalidType)).alt ∧ Learns σ s s' ∧
        s'.stream.Views site.fuel tape (some i) := by
  obtain ⟨rounds, isFuel⟩ : ∃ rounds, site.fuel = rounds + 1 := ⟨site.fuel - 1, by omega⟩
  have shown : tape.Shows i := views.placed i rfl
  refine .modify_bind (.get_bind ?_)
  have sameEnv : ({ net := site.net, decision := site.decision
                    startState := (s.cache.dfa site.decision).networkState
                    precedenceLoop := (s.cache.dfa site.decision).precedence
                    evaluator, fuel := site.fuel } : Env η) = site.env evaluator := by
    rw [settled.dfa.networkState, settled.dfa.precedence]
    rfl
  dsimp only
  rw [sameEnv]
  refine .get_bind (.modify_bind ?_)
  have settled₁ (stats : Stats) (merges : Context.Memo) : ({ s with stats, merges } : Simulator η).Settled σ :=
    ⟨settled.inside, settled.dfa⟩
  refine (startState_reaches (settled₁ _ _) compares).bind fun n s₁ ⟨learns₁, stream₁, t, found, opens⟩ => ?_
  have viewed : Reaches (TokenStream.la site.fuel 1) s₁.stream fun type stream =>
      stream.Views site.fuel tape (some i) ∧ type = ((tape.lt? (some i) 1).map (·.type)).getD invalidType := by
    rw [stream₁]
    exact (views.lt enough (by decide)).bind fun found stream ⟨views', same⟩ => .pure ⟨views', by rw [same]⟩
  refine (onStream_reaches viewed).bind fun symbol s₂ ⟨stream, same, views₂, isType⟩ => ?_
  subst same isType
  have learns₂ : Learns σ s₁ { s₁ with stream } := learns₁.settled.learns rfl rfl
  rw [isFuel]
  refine (runLocal_reaches learns₂.settled found opens asked holds views₂ enough _ _ rounds).bind
    fun r s₃ ⟨ok, learns₃, pos', views₃⟩ => ?_
  rw [← isFuel]
  refine (onStream_reaches (views₃.returnTo enough _)).bind fun _ s₄ ⟨stream', same, views₄⟩ => ?_
  subst same
  have start : s.stream.index = i := by rw [TokenStream.index, views.position, Option.getD_some]
  have learns₄ : Learns σ s₃ { s₃ with stream := stream' } := learns₃.settled.learns rfl rfl
  have whole := ((learns₁.trans learns₂).trans learns₃).trans learns₄
  refine .pure ⟨ok, ⟨whole.settled, whole.mode, whole.size, whole.others⟩, ?_⟩
  have back : tape.firstFrom s.stream.index = i := by rw [start, TokenTape.firstFrom_of_shows shown]
  exact back ▸ views₄

end Simulator

end AdaptiveLL
