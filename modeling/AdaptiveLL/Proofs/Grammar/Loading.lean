import AdaptiveLL.Proofs.Grammar.Linking

/-!
# Loading what was compiled

The words of a compiled grammar are accepted, since the network that was laid out refers only to what it
has (`restorable`) and the verifier finds no fault in what is derived from its words (`fault_none`).
What is read is the same network again, and it has the same words (`Grammar.compile_loads`).
-/

set_option autoImplicit false

namespace AdaptiveLL

/-- The kind without the mark of a precedence loop. -/
def StateKind.unmarked : StateKind → StateKind
  | .starLoopEntry back _ => .starLoopEntry back false
  | kind => kind

namespace Network

/-- The network is `laid` again, with what is derived from it: the marks of the precedence loops, and in
the stop states of the rules the ways back from calls. -/
structure Restored (laid net : Network) : Prop where
  kind : net.kind = laid.kind
  maxTokenType : net.maxTokenType = laid.maxTokenType
  size : net.states.size = laid.states.size
  number : ∀ n, (net.state n).number = (laid.state n).number
  rule : ∀ n, (net.state n).rule = (laid.state n).rule
  stateKind : ∀ n, (net.state n).kind.unmarked = (laid.state n).kind.unmarked
  nonGreedy : ∀ n, (net.state n).nonGreedy = (laid.state n).nonGreedy
  decision : ∀ n, (net.state n).decision = (laid.state n).decision
  out : ∀ n, (laid.state n).kind.isRuleStop = false →
    net.out n = laid.out n ∧ (net.state n).epsilonOnly = (laid.state n).epsilonOnly
  decisions : net.decisions = laid.decisions
  ruleStarts : net.ruleStarts = laid.ruleStarts
  ruleStops : net.ruleStops = laid.ruleStops
  ruleTypes : net.ruleTypes = laid.ruleTypes
  modeStarts : net.modeStarts = laid.modeStarts
  actions : net.actions = laid.actions

/-- Every state knows whether it has transitions that all consume nothing. -/
def Refreshed (net : Network) : Prop := ∀ n, (net.state n).epsilonOnly =
  (!(net.out n).isEmpty && (net.out n).all (·.label.isEpsilon))

theorem refreshed_map (net : Network) :
    Refreshed { net with states := net.states.map State.refresh } := by
  intro n
  rw [out, mapStates_state]
  split
  · rfl
  · rename_i outside
    rw [state_of_le (Nat.not_lt.1 outside)]
    rfl

/-- The marks leave everything as it is but the marks. -/
theorem mark_keeps {α : Type} (net : Network) (get : State → α) (refresh : ∀ s, get s.refresh = get s)
    (mark : ∀ net s, get (Decode.markPrecedence net s) = get s) (n : Nat) :
    get ((Decode.mark net).state n) = get (net.state n) :=
  (mapStates_keeps _ (Decode.markPrecedence _) get (mark _) n).trans
    (mapStates_keeps net State.refresh get refresh n)

theorem markPrecedence_decision (net : Network) (s : State) :
    (Decode.markPrecedence net s).decision = s.decision := by
  unfold Decode.markPrecedence
  split
  · split <;> rfl
  · rfl

theorem markPrecedence_kind (net : Network) (s : State) :
    (Decode.markPrecedence net s).kind.unmarked = s.kind.unmarked := by
  unfold Decode.markPrecedence
  split
  · rename_i kind
    split
    · rw [kind]
      rfl
    · rfl
  · rfl

theorem refreshed_mark (net : Network) : (Decode.mark net).Refreshed := by
  intro n
  rcases Nat.lt_or_ge n net.states.size with inside | outside
  · exact mark_epsilonOnly net inside
  · have size : (Decode.mark net).states.size = net.states.size := (sameBare_mark net).size
    rw [out_of_le (by rwa [size]), state_of_le (by rwa [size])]
    rfl

end Network

namespace Layout

open Network Decode

variable {g : Grammar} {net : Network}

/-! ## The network can be written and read -/

theorem length_typesFrom (next : Int) (rules : List RuleDef) :
    (Grammar.typesFrom next rules).length = rules.length := by
  induction rules generalizing next with
  | nil => rfl
  | cons r rules ih =>
    rw [Grammar.typesFrom]
    split <;> simp [ih]

theorem body_inside {i : Nat} {body : Element} {seg : Segment} {lo hi n : Nat}
    (placed : net.BodyAt g i body seg lo hi) (low : lo ≤ n) (high : n < hi) : n < net.states.size := by
  by_contra outside
  have owner := placed.owner n low high
  rw [state_of_le (Nat.not_lt.1 outside)] at owner
  cases owner

theorem ends_inside (laid : net.LaidOut g) {r : Nat} (known : r < g.rules.length) :
    2 * r + 1 < net.states.size := by
  by_contra outside
  have kind := (laid.stopState r known).1
  rw [state_of_le (Nat.not_lt.1 outside)] at kind
  cases kind

/-- Every transition leads to a state that is there, and so does what follows a call. -/
theorem target_inside (laid : net.LaidOut g) {n : Nat} {t : Transition} (member : t ∈ net.out n) :
    t.target < net.states.size ∧
      ∀ r p follow, t.label = .rule r p follow → follow < net.states.size := by
  rcases laid.out_cases member with ⟨i, r, seg, lo, hi, -, body, -, -, rfl⟩ |
    ⟨mode, -, -, -, r, among, rfl⟩ | ⟨i, r, seg, lo, hi, found, body, -, -, ⟨-, within⟩ | ⟨-, -, rfl⟩⟩
  · exact ⟨body_inside body body.left.1 body.left.2, fun _ _ _ label => absurd label (by simp [Transition.epsilon])⟩
  · have := ends_inside laid (Grammar.lt_of_mem_tokenRules among)
    exact ⟨by simp only [Transition.epsilon]; omega, fun _ _ _ label => absurd label (by simp [Transition.epsilon])⟩
  · have stays := within.stays t member
    refine ⟨?_, fun r p follow label => ?_⟩
    · by_cases calls : ∃ r p follow, t.label = .rule r p follow
      · obtain ⟨r', p, follow, label⟩ := calls
        obtain ⟨known, target, -⟩ := stays.call r' p follow label
        have := ends_inside laid known
        rw [target, laid.ruleStart_eq known]
        omega
      · obtain ⟨low, high⟩ := stays.other fun r p follow label => calls ⟨r, p, follow, label⟩
        exact body_inside body low high
    · obtain ⟨-, -, low, high⟩ := stays.call r p follow label
      exact body_inside body low high
  · obtain ⟨known, -⟩ := List.getElem?_eq_some_iff.1 found
    exact ⟨ends_inside laid known, fun _ _ _ label => absurd label (by simp [Transition.epsilon])⟩

theorem grounded (laid : net.LaidOut g) (outfitted : Outfitted g net) : net.Grounded := by
  have inside {n : Nat} {kind : StateKind} (known : (net.state n).kind = kind) (valid : kind ≠ .invalid) :
      n < net.states.size := by
    by_contra outside
    rw [state_of_le (Nat.not_lt.1 outside)] at known
    exact valid known.symm
  refine ⟨laid.number, fun n isInvalid => ?_, fun n stop link => ?_, fun n back link => ?_,
    fun r known => ?_, ?_, fun n member => ?_⟩
  · rcases Nat.lt_or_ge n net.states.size with below | outside
    · cases outfitted.fits n below <;> simp_all
    · rw [state_of_le outside]
  · cases kind : (net.state n).kind with
    | blockStart block end' =>
      cases outfitted.fits_of_valid (n := n) (by simp [kind]) with
      | blockStart isStart isEnd choice =>
        rw [isStart] at link
        cases link
        exact inside isEnd (by simp)
      | _ => simp_all
    | _ => simp [kind, blockLink?] at link
  · cases kind : (net.state n).kind with
    | loopEnd back' =>
      have below := inside kind (by simp)
      cases outfitted.fits_of_valid (n := n) (by simp [kind]) with
      | loopEnd place isEnd one =>
        rw [isEnd] at link
        cases link
        omega
      | _ => simp_all
    | _ => simp [kind, loopLink?] at link
  · rw [laid.numRules] at known
    rw [laid.ruleStart_eq known]
    exact (laid.startState r known).1
  · have sameLexer : net.isLexer = g.isLexer := by rw [Network.isLexer, laid.kind, Grammar.isLexer]
    rw [laid.ruleTypes, laid.numRules, sameLexer]
    split
    · exact length_typesFrom _ _
    · rfl
  · rw [laid.modeStarts] at member
    obtain ⟨m, known, rfl⟩ : ∃ m < (if g.isLexer then g.modes.length else 0),
        2 * g.rules.length + m = n := by simpa using member
    rw [← laid.numModes] at known
    exact (laid.modeState m known).1

theorem restorable {words : List Word} (laid : net.LaidOut g) (outfitted : Outfitted g net)
    (encoded : net.encode = .ok words) (few : g.rules.length < 65535) : net.Restorable := by
  have equipped := outfitted.equipped
  have known {n : Nat} {t : Transition} (member : t ∈ net.out n) := equipped.labels n t member
  have sameLexer : net.isLexer = g.isLexer := by rw [Network.isLexer, laid.kind, Grammar.isLexer]
  have fewActions : net.actions.size < 18446744073709551616 := by
    refine Network.fewActions encoded fun isParser => Array.eq_empty_iff_forall_not_mem.2 fun a member => ?_
    have := (equipped.actions a (Array.mem_toList_iff.2 member)).1
    rw [← sameLexer, isParser] at this
    cases this
  refine { grounded laid outfitted with readable := fun n _ t member => ?_, proper := fun s member => ?_
                                        decision := fun n => decision_known equipped }
  · obtain ⟨target, follow⟩ := target_inside laid member
    refine ⟨target, fun o label => ?_, fun r p m label => ?_, fun r p ctx label => ?_, fun r i ctx label => ?_⟩
    · have fits := known member
      rwa [label] at fits
    · obtain ⟨inside, isStart⟩ := laid.call_out member label
      rw [isStart, laid.ruleStart_eq inside, laid.numRules]
      exact ⟨(laid.startState r inside).1, inside, follow r p m label⟩
    · have fits := known member
      rw [label] at fits
      exact ⟨by have := fits.1; omega, fits.2.1⟩
    · have fits := known member
      rw [label] at fits
      obtain ⟨inside, place, rfl, below⟩ := fits
      refine ⟨by omega, fun place' same => ?_⟩
      cases same
      split at below <;> omega
  · obtain ⟨n, t, member, refers⟩ := mem_referredSets.1 member
    have fits := known member
    cases label : t.label with
    | set s' | notSet s' =>
      rw [label] at fits refers
      cases refers
      exact fits
    | _ => simp [label, Encode.SetTable.referred?] at refers

/-! ## What is read -/

theorem Derived.restored {derived : Network} (derives : Derived net derived) (refreshed : net.Refreshed)
    (actions : Array LexerAction) :
    ({ net with actions } : Network).Restored (mark { derived with actions }) := by
  let acted : Network := { derived with actions }
  have same : SameBare net (mark acted) := derives.same.trans (sameBare_mark acted)
  have out {n : Nat} (inner : (net.state n).kind.isRuleStop = false) : (mark acted).out n = net.out n :=
    (out_mark acted n).trans (derives.out n inner)
  have tables := derives.tables
  refine ⟨tables.kind, tables.maxTokenType, same.size, same.number, same.rule, fun n => ?_, same.nonGreedy,
    fun n => ?_, fun n inner => ⟨out inner, ?_⟩, derives.decisions, tables.ruleStarts, derives.ruleStops,
    tables.ruleTypes, tables.modeStarts, rfl⟩
  · refine (mark_keeps acted (·.kind.unmarked) (fun _ => rfl) markPrecedence_kind n).trans ?_
    exact congrArg StateKind.unmarked (derives.kind n)
  · exact (mark_keeps acted (·.decision) (fun _ => rfl) markPrecedence_decision n).trans (derives.decision n)
  · change ((mark acted).state n).epsilonOnly = (net.state n).epsilonOnly
    rw [refreshed n, ← out inner]
    exact refreshed_mark acted n

/-! ## No fault is found -/

theorem oneWay (laid : net.LaidOut g) (n : Nat) : OneWay (net.out n) := by
  by_cases empty : net.out n = []
  · rw [empty]
    exact .inr (by simp)
  · obtain ⟨t, member⟩ := List.exists_mem_of_ne_nil _ empty
    rcases laid.out_cases member with ⟨i, r, seg, lo, hi, -, -, -, out, -⟩ | ⟨mode, -, -, out, -⟩ |
      ⟨i, r, seg, lo, hi, -, -, -, -, ⟨-, within⟩ | ⟨-, out, -⟩⟩
    · exact .inl ⟨_, out⟩
    · rw [out]
      refine .inr fun t here => ?_
      obtain ⟨r, -, rfl⟩ := List.mem_map.1 here
      rfl
    · exact within.oneWay
    · exact .inl ⟨_, out⟩

/-- One transition leaves the start of a rule. -/
theorem start_out (laid : net.LaidOut g) {n : Nat} {stop : Option Nat} {lr : Bool}
    (kind : (net.state n).kind = .ruleStart stop lr) : (net.out n).length ≤ 1 := by
  have inside : n < net.states.size := by
    by_contra outside
    rw [state_of_le (Nat.not_lt.1 outside)] at kind
    cases kind
  rcases laid.states_cases inside with ⟨r, known, rfl | rfl⟩ | ⟨mode, known, rfl⟩ |
    ⟨i, r, seg, lo, hi, -, body, low, high⟩
  · obtain ⟨seg, lo, hi, body⟩ := laid.body r _ (List.getElem?_eq_getElem known)
    simp [body.starts]
  · rw [(laid.stopState r known).1] at kind
    cases kind
  · rw [(laid.modeState mode known).1] at kind
    cases kind
  · have inner := body.inner n low high
    simp [kind, StateKind.isInner] at inner

theorem stateFault_none {s : State} (valid : s.kind ≠ .invalid)
    (mixed : s.epsilonOnly = true ∨ s.transitions.length ≤ 1) (kind : net.kindFault? s = none)
    (choice : s.transitions.length ≤ 1 ∨ (s.kind.isDecision = true ∧ s.decision.isSome = true) ∨
      s.kind.isRuleStop = true)
    (labels : net.isLexer = true → ∀ t ∈ s.transitions, ∀ p, t.label ≠ .precedence p) :
    net.stateFault? s = none := by
  have noChoice : choiceFault? s = none := by
    unfold choiceFault?
    split
    · rfl
    · rename_i several
      rcases choice with one | ⟨owns, decided⟩ | stop
      · exact absurd one several
      · rw [if_pos owns, if_pos decided]
      · have notOwned : s.kind.isDecision = false := by
          cases known : s.kind with
          | ruleStop => rfl
          | _ => simp [known, StateKind.isRuleStop] at stop
        simp [notOwned, stop]
  have silent : (!s.epsilonOnly && Decidable.decide (s.transitions.length > 1)) = false := by
    rcases mixed with free | one
    · simp [free]
    · simp [one]
  rw [stateFault?, if_neg (by simpa using valid), silent, kind, noChoice]
  simp only [Bool.false_eq_true, if_false, Option.none_or]
  refine if_neg fun inLexer => ?_
  obtain ⟨lexer, some'⟩ := Bool.and_eq_true_iff.1 inLexer
  obtain ⟨t, member, isPrecedence⟩ := List.any_eq_true.1 some'
  split at isPrecedence
  · rename_i p label
    exact labels lexer t member p label
  · cases isPrecedence

theorem unmarked_eq {k k' : StateKind} (same : k.unmarked = k'.unmarked)
    (other : ∀ back p, k' ≠ .starLoopEntry back p) : k = k' := by
  cases k' with
  | starLoopEntry back p => exact absurd rfl (other back p)
  | _ => cases k <;> simp_all [StateKind.unmarked]

theorem unmarked_entry {k : StateKind} {back : Option Nat} {p : Bool}
    (same : k.unmarked = (StateKind.starLoopEntry back p).unmarked) : ∃ q, k = .starLoopEntry back q := by
  cases k <;> simp_all [StateKind.unmarked]

theorem fault_none (laid : net.LaidOut g) (outfitted : Outfitted g net) {derived : Network}
    (derives : Derived net derived) (refreshed : net.Refreshed) :
    (mark { derived with actions := net.actions }).fault? = none := by
  let acted : Network := { derived with actions := net.actions }
  have restored : net.Restored (mark acted) := derives.restored refreshed net.actions
  have sameLexer : (mark acted).isLexer = g.isLexer := by
    rw [Network.isLexer, restored.kind, laid.kind, Grammar.isLexer]
  change (mark acted).fault? = none
  rw [fault?, states_toList]
  refine List.findSome?_eq_none_iff.2 fun s member => ?_
  obtain ⟨n, among, rfl⟩ := List.mem_map.1 member
  have inside : n < net.states.size := by
    rw [← restored.size]
    exact List.mem_range.1 among
  have eps := refreshed_mark acted n
  have keeps {k : StateKind} (kind : (net.state n).kind = k) (other : ∀ back p, k ≠ .starLoopEntry back p) :
      ((mark acted).state n).kind = k := by
    rw [← kind]
    exact unmarked_eq (restored.stateKind n) (by rwa [kind])
  cases isStop : (net.state n).kind.isRuleStop with
  | true =>
    -- The ways back from calls ask for nothing, so there may be many of them.
    have kind : (net.state n).kind = .ruleStop := by
      cases known : (net.state n).kind <;> simp_all [StateKind.isRuleStop]
    have known := keeps kind (by simp)
    have free : ∀ t ∈ (mark acted).out n, ∃ outermost, t.label = .epsilon outermost := by
      rw [out_mark]
      exact derives.returns n isStop
    refine stateFault_none (by simp [known]) ?_ (by simp [kindFault?, known]) (.inr (.inr (by rw [known]; rfl)))
      fun _ t here p label => ?_
    · by_cases none' : (mark acted).out n = []
      · exact .inr (by rw [show ((mark acted).state n).transitions = [] from none']; exact Nat.zero_le 1)
      · refine .inl (eps.trans ?_)
        rw [Bool.and_eq_true, List.all_eq_true]
        refine ⟨by simpa using none', fun t here => ?_⟩
        obtain ⟨o, label⟩ := free t here
        rw [label]
        rfl
    · obtain ⟨o, label'⟩ := free t here
      cases label.symm.trans label'
  | false =>
    have out : ((mark acted).state n).transitions = net.out n := (restored.out n isStop).1
    have decision := restored.decision n
    have mixed : ((mark acted).state n).epsilonOnly = true ∨ ((mark acted).state n).transitions.length ≤ 1 := by
      rw [eps, Network.out, out]
      rcases oneWay laid n with ⟨t, only⟩ | free
      · exact .inr (by simp [only])
      · by_cases none' : net.out n = []
        · exact .inr (by simp [none'])
        · refine .inl ?_
          rw [Bool.and_eq_true, List.all_eq_true]
          refine ⟨by simpa using none', fun t here => ?_⟩
          rw [free t here]
          rfl
    have labels : (mark acted).isLexer = true →
        ∀ t ∈ ((mark acted).state n).transitions, ∀ p, t.label ≠ .precedence p := by
      intro lexer t here p label
      rw [out] at here
      have fits := outfitted.equipped.labels n t here
      rw [label] at fits
      cases (sameLexer.symm.trans lexer).symm.trans fits.1
    have one (few : (net.out n).length ≤ 1) : ((mark acted).state n).transitions.length ≤ 1 := by rwa [out]
    cases outfitted.fits n inside with
    | ruleStart kind stop =>
      have known := keeps kind (by simp)
      exact stateFault_none (by simp [known]) mixed (by simp [kindFault?, known])
        (.inl (one (start_out laid kind))) labels
    | ruleStop kind =>
      rw [kind] at isStop
      cases isStop
    | tokenStart kind decided =>
      have known := keeps kind (by simp)
      exact stateFault_none (by simp [known]) mixed (by simp [kindFault?, known])
        (.inr (.inl ⟨by rw [known]; rfl, by rwa [decision]⟩)) labels
    | basic kind few =>
      have known := keeps kind (by simp)
      exact stateFault_none (by simp [known]) mixed (by simp [kindFault?, known]) (.inl (one few)) labels
    | blockStart kind stop choice =>
      have known := keeps kind (by simp)
      refine stateFault_none (by simp [known]) mixed (by simp [kindFault?, known]) ?_ labels
      exact choice.imp one fun decided => .inl ⟨by rw [known]; rfl, by rwa [decision]⟩
    | blockEnd place kind begins few =>
      have known := keeps kind (by simp)
      exact stateFault_none (by simp [known]) mixed (by simp [kindFault?, known]) (.inl (one few)) labels
    | starLoopEntry kind back two decided =>
      obtain ⟨q, known⟩ := unmarked_entry (by rw [restored.stateKind n, kind])
      refine stateFault_none (by simp [known]) mixed ?_ (.inr (.inl ⟨by rw [known]; rfl, by rwa [decision]⟩))
        labels
      simp [kindFault?, known, out, two]
    | @starLoopBack entry place kind leads entered =>
      have known := keeps kind (by simp)
      obtain ⟨q, isEntry⟩ := unmarked_entry (by rw [restored.stateKind entry, entered])
      refine stateFault_none (by simp [known]) mixed ?_ (.inl (one (by simp [leads]))) labels
      simp [kindFault?, known, out, leads, Transition.epsilon, isEntry]
    | plusLoopBack kind decided =>
      have known := keeps kind (by simp)
      exact stateFault_none (by simp [known]) mixed (by simp [kindFault?, known, decision, decided])
        (.inr (.inl ⟨by rw [known]; rfl, by rwa [decision]⟩)) labels
    | loopEnd place kind few =>
      have known := keeps kind (by simp)
      exact stateFault_none (by simp [known]) mixed (by simp [kindFault?, known]) (.inl (one few)) labels

end Layout

/-! ## Writing again -/

namespace Network.Restored

open Layout

variable {laid net : Network}

theorem isLexer (restored : laid.Restored net) : net.isLexer = laid.isLexer := by
  rw [Network.isLexer, restored.kind, Network.isLexer]

theorem isRuleStop (restored : laid.Restored net) (n : Nat) :
    (net.state n).kind.isRuleStop = (laid.state n).kind.isRuleStop := by
  have unmarked (k : StateKind) : k.unmarked.isRuleStop = k.isRuleStop := by cases k <;> rfl
  rw [← unmarked, restored.stateKind, unmarked]

theorem isLeftRecursiveStart (restored : laid.Restored net) (n : Nat) :
    (net.state n).kind.isLeftRecursiveStart = (laid.state n).kind.isLeftRecursiveStart := by
  have unmarked (k : StateKind) : k.unmarked.isLeftRecursiveStart = k.isLeftRecursiveStart := by
    cases k <;> rfl
  rw [← unmarked, restored.stateKind, unmarked]

/-- The mark of a precedence loop is not written. -/
theorem state_words (restored : laid.Restored net) (n : Nat) :
    Encode.state (net.state n) = Encode.state (laid.state n) := by
  have unmarked (s : State) : Encode.state s = Encode.state { s with kind := s.kind.unmarked } := by
    obtain ⟨number, rule, kind, transitions, epsilonOnly, decision, nonGreedy⟩ := s
    cases kind <;> rfl
  have depends (s : State) : Encode.state s =
      Encode.state { number := 0, rule := s.rule, kind := s.kind } := by
    obtain ⟨number, rule, kind, transitions, epsilonOnly, decision, nonGreedy⟩ := s
    cases kind <;> rfl
  rw [unmarked, depends, unmarked (laid.state n), depends { laid.state n with kind := _ }]
  simp only [restored.rule, restored.stateKind]

theorem states_words (restored : laid.Restored net) : Encode.states net = Encode.states laid := by
  have each : (Encode.state ∘ net.state) = Encode.state ∘ laid.state := funext restored.state_words
  rw [Encode.states, Encode.states, Encode.concat, Encode.concat, states_toList, states_toList,
    List.mapM_map, List.mapM_map, each, restored.size]

theorem numbersOf_eq (restored : laid.Restored net) {p : State → Bool}
    (same : ∀ n, p (net.state n) = p (laid.state n)) : Encode.numbersOf net p = Encode.numbersOf laid p := by
  have holds : p ∘ net.state = p ∘ laid.state := funext same
  have number : State.number ∘ net.state = State.number ∘ laid.state := funext restored.number
  rw [Encode.numbersOf, Encode.numbersOf, states_toList, states_toList, List.filter_map, List.filter_map,
    List.map_map, List.map_map, holds, number, restored.size]

theorem rules_words (restored : laid.Restored net) : Encode.rules net = Encode.rules laid := by
  have each : Encode.rule net = Encode.rule laid := by
    funext r
    rw [Encode.rule, Encode.rule, Network.ruleStart, Network.ruleStart, restored.isLexer,
      restored.ruleStarts, restored.ruleTypes]
  rw [Encode.rules, Encode.rules, Network.numRules, Network.numRules, restored.ruleStarts, each]

theorem actions_words (restored : laid.Restored net) : Encode.actions net = Encode.actions laid := by
  rw [Encode.actions, Encode.actions, restored.isLexer, restored.actions]

/-- The transitions that leave stop states are not written. -/
theorem transitions_words (restored : laid.Restored net) :
    Encode.transitions net = Encode.transitions laid := by
  have inner : (fun s : State => !s.kind.isRuleStop) ∘ net.state =
      (fun s : State => !s.kind.isRuleStop) ∘ laid.state := by
    funext n
    simp only [Function.comp_apply, restored.isRuleStop]
  have written : Encode.writtenTransitions net = Encode.writtenTransitions laid := by
    rw [Encode.writtenTransitions, Encode.writtenTransitions, states_toList, states_toList,
      List.filter_map, List.filter_map, inner, restored.size, List.flatMap_map, List.flatMap_map]
    refine List.flatMap_congr fun n member => ?_
    have notStop : (laid.state n).kind.isRuleStop = false := by simpa using (List.mem_filter.1 member).2
    have out : (net.state n).transitions = (laid.state n).transitions := (restored.out n notStop).1
    rw [out, restored.number]
  funext table
  rw [Encode.transitions, Encode.transitions, written]

/-- The ways back from calls refer to no sets. -/
theorem collect_eq (restored : laid.Restored net)
    (free : ∀ n, (laid.state n).kind.isRuleStop = true → laid.out n = [] ∧
      ∀ t ∈ net.out n, ∃ outermost, t.label = .epsilon outermost) :
    Encode.SetTable.collect net = .collect laid := by
  rw [Encode.SetTable.collect, Encode.SetTable.collect, states_toList, states_toList, restored.size,
    List.flatMap_map, List.flatMap_map]
  congr 1
  refine List.flatMap_congr fun n _ => ?_
  cases isStop : (laid.state n).kind.isRuleStop with
  | false => rw [show (net.state n).transitions = _ from (restored.out n isStop).1, Network.out]
  | true =>
    obtain ⟨none', returns⟩ := free n isStop
    rw [show (laid.state n).transitions = [] from none', List.filterMap_nil]
    refine List.filterMap_eq_nil_iff.2 fun t member => ?_
    obtain ⟨o, label⟩ := returns t member
    rw [label]
    rfl

theorem encode_eq (restored : laid.Restored net)
    (free : ∀ n, (laid.state n).kind.isRuleStop = true → laid.out n = [] ∧
      ∀ t ∈ net.out n, ∃ outermost, t.label = .epsilon outermost) : net.encode = laid.encode := by
  rw [Network.encode, Network.encode, restored.maxTokenType, restored.states_words,
    restored.numbersOf_eq restored.nonGreedy, restored.numbersOf_eq restored.isLeftRecursiveStart,
    restored.rules_words, restored.modeStarts, restored.collect_eq free,
    restored.transitions_words, restored.decisions, restored.actions_words, restored.kind]

end Network.Restored

/-! ## Grammars -/

open Layout Network in
/-- A grammar that was laid out and written is small. -/
theorem Layout.smallRules {g : Grammar} {net : Network} {words : List Word} (laid : net.LaidOut g)
    (encoded : net.encode = .ok words) :
    g.rules.length < 65535 ∧ ∀ rule < g.rules.length, SmallRule g rule := by
  obtain @⟨_, _, _, _, _, _, _, _, _, _, maxTypeWord, -, -, -, ruleItems, -, -, -, -, -, -⟩ :=
    Encode.sections_of_encode encoded
  obtain ⟨n, count, -⟩ := except_bind_ok.1 ruleItems
  have few := (Encode.index_ok count).2
  rw [laid.numRules] at few
  refine ⟨few, fun rule known => ⟨known, by omega, fun parser name type isType => ?_⟩⟩
  have greatest : g.maxTokenType < 65535 := by
    rw [← laid.maxTokenType]
    exact (Encode.word_ok maxTypeWord).2
  have listed {names : List (Option String)} (found : names.findIdx? (· == some name) = some type) :
      type < names.length := (List.findIdx?_eq_some_iff_getElem.1 found).1
  have below : type < max g.vocabulary.literalNames.length g.vocabulary.symbolicNames.length := by
    rcases Option.or_eq_some_iff.1 isType with found | ⟨-, found⟩
    · exact Nat.lt_of_lt_of_le (listed found) (Nat.le_max_right _ _)
    · exact Nat.lt_of_lt_of_le (listed found) (Nat.le_max_left _ _)
  simp only [Grammar.maxTokenType, parser, Bool.false_eq_true, if_false, GrammarInfo.maxTokenType] at greatest
  omega

/-- The actions of a grammar that was laid out and written are written and read as they are. -/
theorem Layout.storable {g : Grammar} {net : Network} {words : List Word} (small : g.SmallActions)
    (laid : net.LaidOut g) (equipped : net.Equipped g) (encoded : net.encode = .ok words)
    (checked : ∀ a ∈ net.actions.toList, g.checkMode a = .ok ()) {a : LexerAction}
    (member : a ∈ net.actions.toList) : Decode.Storable a ∧ Decode.leadsAstray net a = false := by
  obtain @⟨_, _, _, _, _, _, _, _, _, _, -, -, -, -, -, modeItems, -, -, -, -, -⟩ :=
    Encode.sections_of_encode encoded
  obtain ⟨n, _, -, count, -⟩ := Encode.indices_ok modeItems
  have fewModes := n.toNat_lt
  obtain ⟨lexer, custom⟩ := equipped.actions a member
  have modes : net.modeStarts.size = g.modes.length := by rw [laid.numModes, if_pos lexer]
  rw [count, Array.length_toList, modes] at fewModes
  have known : a.mode?.any (g.modes.length ≤ ·) = false := by
    have ok := checked a member
    unfold Grammar.checkMode at ok
    split at ok
    · cases ok
    · rename_i fine
      exact Bool.eq_false_iff.2 fine
  refine ⟨?_, by rw [Decode.leadsAstray, modes, known]⟩
  cases a with
  | custom rule index => exact custom small rule index rfl
  | mode m | pushMode m =>
    have inside : m < g.modes.length := by simpa [LexerAction.mode?] using known
    exact Nat.lt_trans (Nat.lt_trans inside fewModes) (by decide)
  | _ => trivial

open Layout Network in
/-- The words of a grammar load. What is read is the network that was laid out, with what the reader
derives from it, and writing it gives the same words again. -/
theorem Grammar.compile_loads {g : Grammar} {compiled : CompiledGrammar} (assembled : g.Assembled)
    (representable : g.Representable) (small : g.SmallActions) (run : g.compile = .ok compiled) :
    ∃ laid net, g.layOut = .ok laid ∧ (∀ verify, decode compiled.words verify = .ok net) ∧
      laid.Restored net ∧ net.encode = .ok compiled.words := by
  obtain ⟨known, net, -, -, layout, checked, encoded⟩ := compile_steps run
  have laid := layOut_laidOut assembled.moded layout
  obtain ⟨few, smallRules⟩ := smallRules laid encoded
  have outfitted := layOut_outfitted assembled.moded representable smallRules layout
  have equipped := outfitted.equipped
  have refreshed : net.Refreshed := by
    obtain ⟨_, _, filled, _, _, _, -, -, -, rfl⟩ := layOut_run layout
    exact refreshed_map filled
  obtain ⟨derived, derives, isDerived⟩ := derive_run laid outfitted
  have lexers : net.isLexer = false → net.actions = #[] := by
    intro parser
    refine Array.eq_empty_iff_forall_not_mem.2 fun a member => ?_
    have lexer := (equipped.actions a (Array.mem_toList_iff.2 member)).1
    rw [Network.isLexer, laid.kind] at parser
    cases parser.symm.trans lexer
  have decoded (verify : Bool) : decode compiled.words verify =
      .ok (Decode.mark { derived with actions := net.actions }) := decode_encode_eq (restorable laid outfitted encoded few) encoded derives
    (fun a member => (storable small laid equipped encoded checked member).1)
    (fun a member => (storable small laid equipped encoded checked member).2) lexers
    fun _ => fault_none laid outfitted isDerived refreshed
  have restored := isDerived.restored refreshed net.actions
  refine ⟨net, _, layout, decoded, restored, ?_⟩
  rw [restored.encode_eq fun n isStop => ?_, encoded]
  obtain ⟨r, inside, rfl, -⟩ := stop_owner laid isStop
  refine ⟨(laid.stopState r inside).2.2, ?_⟩
  rw [out_mark]
  exact isDerived.returns _ isStop

/-- A lexer of words and of texts in quotes, for which it changes its mode. -/
def textLexer : Grammar :=
  (((((Grammar.lexer "Texts").rule "WORD" (.repeated .plus true (.rule "LETTER" 0))).fragment "LETTER"
    (.alt [.range 97 122, .symbol 0x10400])).rule "OPEN" (.seq [.literal "\"", .command (.pushMode 1)])).mode
      "TEXT").rule "CLOSE" (.seq [.repeated .star false .wildcard, .symbol 34, .command .popMode])

theorem textLexer_loads : ∃ compiled laid net, textLexer.compile = .ok compiled ∧
    textLexer.layOut = .ok laid ∧ (∀ verify, Network.decode compiled.words verify = .ok net) ∧
    laid.Restored net ∧ net.encode = .ok compiled.words := by
  have assembled : textLexer.Assembled :=
    .rule "CLOSE" _ (.mode "TEXT" (.rule "OPEN" _ (.fragment "LETTER" _ (.rule "WORD" _ (.lexer "Texts")))))
  have leaves : ∀ r ∈ textLexer.rules, ∀ e ∈ r.body.leaves, e.Representable ∧ e.SmallActions true := by
    intro r member e leaf
    simp only [textLexer, Grammar.rule, Grammar.fragment, Grammar.mode, Grammar.addRule, Grammar.lexer,
      List.nil_append, List.cons_append, List.mem_cons, List.not_mem_nil, or_false] at member
    rcases member with rfl | rfl | rfl | rfl
    all_goals
      simp only [Element.leaves, Element.leavesAll, List.append_nil, List.cons_append, List.nil_append,
        List.mem_cons, List.not_mem_nil, or_false] at leaf
    · subst leaf
      exact ⟨trivial, trivial⟩
    · rcases leaf with rfl | rfl <;> simp [Element.Representable, Element.SmallActions]
    · rcases leaf with rfl | rfl <;> simp [Element.Representable, Element.SmallActions]
    · rcases leaf with rfl | rfl | rfl <;> simp [Element.Representable, Element.SmallActions]
  have compiles : textLexer.compile.toOption.isSome = true := by decide +kernel
  cases run : textLexer.compile with
  | error e =>
    rw [run] at compiles
    cases compiles
  | ok compiled =>
    obtain ⟨laid, net, facts⟩ := Grammar.compile_loads assembled
      (fun r member e leaf => (leaves r member e leaf).1) (fun r member e leaf => (leaves r member e leaf).2) run
    exact ⟨compiled, laid, net, rfl, facts⟩

end AdaptiveLL
