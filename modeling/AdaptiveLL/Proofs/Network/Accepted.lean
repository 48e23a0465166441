import AdaptiveLL.Proofs.Network.Restoring

/-!
# Networks that were accepted

A step of reading `Ensures` a property when it can only give values that have it, whatever words it is
set before. What is ensured of the steps of the reader is put together to what is known of every network
that was read: it was derived from a skeleton and from a list of edges (`Decode.listed`) that refer
only to what is there.
-/

set_option autoImplicit false

namespace AdaptiveLL

namespace Decode

variable {α β : Type}

/-- Whatever the step gives has the property. -/
def Ensures (step : Decode α) (P : α → Prop) : Prop :=
  ∀ cursor a cursor', step.run cursor = .ok (a, cursor') → P a

/-! ## Steps -/

theorem Ensures.bind {x : Decode α} {f : α → Decode β} {P : α → Prop} {Q : β → Prop}
    (first : x.Ensures P) (second : ∀ a, P a → (f a).Ensures Q) : (x >>= f).Ensures Q := by
  intro cursor b cursor' run
  obtain ⟨a, mid, ran, rest⟩ := bind_ok.1 run
  exact second a (first _ _ _ ran) _ _ _ rest

theorem ensures_pure {a : α} {P : α → Prop} (holds : P a) : (pure a : Decode α).Ensures P := by
  intro cursor b cursor' run
  cases run
  exact holds

theorem ensures_check (holds : Bool) (cause : Malformation) :
    (check holds cause).Ensures fun _ => holds = true := by
  intro cursor b cursor' run
  cases holds with
  | false => cases run
  | true => rfl

theorem ensures_refuse (cause : Malformation) (P : α → Prop) : (refuse cause : Decode α).Ensures P := by
  intro cursor b cursor' run
  cases run

theorem ensures_lift (x : Except LoadError α) : (liftM x : Decode α).Ensures fun a => x = .ok a := by
  intro cursor a cursor' run
  cases x with
  | error e => cases run
  | ok b => cases run; rfl

theorem ensures_any (x : Decode α) : x.Ensures fun _ => True := fun _ _ _ _ => trivial

theorem ensures_times {step : Decode α} {P : α → Prop} (each : step.Ensures P) (n : Nat) :
    (times n step).Ensures fun as => ∀ a ∈ as, P a := by
  induction n with
  | zero => exact ensures_pure (by simp)
  | succ n ih =>
    refine each.bind fun a holds => ih.bind fun as all => ensures_pure fun b member => ?_
    rcases List.mem_cons.1 member with rfl | later
    · exact holds
    · exact all b later

theorem ensures_list {step : Decode α} {P : α → Prop} (each : step.Ensures P) :
    (list step).Ensures fun as => ∀ a ∈ as, P a :=
  (ensures_any index).bind fun n _ => ensures_times each n

theorem ensures_checks {γ : Type} (xs : List γ) (holds : γ → Bool) (cause : γ → Malformation) :
    (xs.forM fun x => check (holds x) (cause x)).Ensures fun _ => ∀ x ∈ xs, holds x = true := by
  induction xs with
  | nil => exact ensures_pure (by simp)
  | cons x xs ih =>
    refine (ensures_check _ _).bind fun _ here => ?_
    intro cursor u cursor' run y member
    rcases List.mem_cons.1 member with rfl | later
    · exact here
    · exact ih _ _ _ run y later

/-- Checked indices pass their check. -/
theorem ensures_indices (holds : Nat → Bool) (cause : Nat → Malformation) :
    (list do
      let n ← index
      check (holds n) (cause n)
      return n).Ensures fun ns => ∀ n ∈ ns, holds n = true :=
  ensures_list ((ensures_any index).bind fun n _ =>
    (ensures_check (holds n) (cause n)).bind fun _ passed => ensures_pure passed)

theorem ensures_foldlM {γ : Type} (f : β → γ → Except LoadError β) (b : β) (xs : List γ) :
    (xs.foldlM (fun b x => (liftM (f b x) : Decode β)) b).Ensures fun b' => xs.foldlM f b = .ok b' := by
  induction xs generalizing b with
  | nil => exact ensures_pure rfl
  | cons x xs ih =>
    rw [List.foldlM_cons]
    refine (ensures_lift _).bind fun mid first => ?_
    intro cursor b' cursor' run
    exact except_bind_ok.2 ⟨mid, first, ih mid _ _ _ run⟩

/-! ## States -/

theorem ensures_stateKind (code : Word) :
    (stateKind code).Ensures fun k => k.bare = k ∧ k ≠ .invalid := by
  unfold stateKind
  split
  all_goals first
    | exact ensures_pure ⟨rfl, by simp⟩
    | exact (ensures_any index).bind fun n _ => ensures_pure ⟨rfl, by simp⟩
    | exact ensures_refuse _ _

theorem ensures_state : state.Ensures fun s => s.bare = s ∧ (s.kind = .invalid → s.rule = none) := by
  refine (ensures_any word).bind fun code _ => ?_
  split
  · exact ensures_pure ⟨rfl, fun _ => rfl⟩
  · refine (ensures_any optional).bind fun rule _ => ?_
    refine (ensures_stateKind code).bind fun kind known => ?_
    exact ensures_pure ⟨by simp [State.bare, known.1], fun invalid => absurd invalid known.2⟩

/-- A bare state at its place among `size` others. -/
structure Plain (size : Nat) (i : Nat) (s : State) : Prop where
  kind : s.kind.bare = s.kind
  transitions : s.transitions = []
  epsilonOnly : s.epsilonOnly = false
  decision : s.decision = none
  number : s.number = i
  invalid : s.kind = .invalid → s.rule = none
  blockLink : ∀ stop, blockLink? s.kind = some stop → stop < size
  loopLink : ∀ back, loopLink? s.kind = some back → back < size

theorem plain_marked {size : Nat} {f : State → State} (keeps : ∀ i s, Plain size i s → Plain size i (f s))
    (ns : List Nat) (states : Array State) (plain : ∀ i s, states[i]? = some s → Plain size i s) :
    (ns.foldl (fun states n => states.modify n f) states).size = states.size ∧
      ∀ i s, (ns.foldl (fun states n => states.modify n f) states)[i]? = some s → Plain size i s := by
  induction ns generalizing states with
  | nil => exact ⟨rfl, plain⟩
  | cons n ns ih =>
    have after := ih (states.modify n f) fun i s found => by
      rw [Array.getElem?_modify] at found
      split at found
      · obtain ⟨s', old, rfl⟩ := Option.map_eq_some_iff.1 found
        exact keeps i s' (plain i s' old)
      · exact plain i s found
    rw [Array.size_modify] at after
    exact after

theorem Plain.bare {size i : Nat} {s : State} (plain : Plain size i s) : s.bare = s := by
  obtain ⟨number, rule, kind, transitions, epsilonOnly, decision, nonGreedy⟩ := s
  simp only [State.bare, plain.kind, State.mk.injEq, true_and]
  exact ⟨plain.transitions.symm, plain.epsilonOnly.symm, plain.decision.symm, trivial⟩

theorem Plain.markNonGreedy {size i : Nat} {s : State} (plain : Plain size i s) :
    Plain size i { s with nonGreedy := true } :=
  ⟨plain.kind, plain.transitions, plain.epsilonOnly, plain.decision, plain.number, plain.invalid,
    plain.blockLink, plain.loopLink⟩

theorem Plain.markLeftRecursive {size i : Nat} {s : State} (plain : Plain size i s) :
    Plain size i (markLeftRecursive s) := by
  unfold Decode.markLeftRecursive
  split
  · rename_i stop leftRecursive isStart
    have unlinked := plain.kind
    rw [isStart, StateKind.bare] at unlinked
    cases unlinked
    exact ⟨rfl, plain.transitions, plain.epsilonOnly, plain.decision, plain.number,
      fun invalid => absurd invalid (by simp), fun _ link => absurd link (by simp [blockLink?]),
      fun _ link => absurd link (by simp [loopLink?])⟩
  · exact plain

theorem ensures_states (f : Format) (net : Network) : (states f net).Ensures fun net' =>
    net' = { net with states := net'.states } ∧
      ∀ i s, net'.states[i]? = some s → Plain net'.states.size i s := by
  refine (ensures_list ensures_state).bind fun read known => ?_
  refine (ensures_checks _ _ _).bind fun _ blockLinks => ?_
  refine (ensures_checks _ _ _).bind fun _ loopLinks => ?_
  let numbered : Array State := (read.zipIdx.map fun p => ({ p.1 with number := p.2 } : State)).toArray
  have size : numbered.size = read.length := by simp [numbered]
  simp only [List.size_toArray, List.length_map, List.length_zipIdx] at blockLinks loopLinks
  have plain : ∀ i s, numbered[i]? = some s → Plain read.length i s := by
    intro i s found
    simp only [numbered, List.getElem?_toArray, List.getElem?_map, List.getElem?_zipIdx, Option.map_map,
      Option.map_eq_some_iff] at found
    obtain ⟨r, at', rfl⟩ := found
    have member : r ∈ read := List.mem_of_getElem? at'
    obtain ⟨bare, invalid⟩ := known r member
    refine ⟨congrArg State.kind bare, (congrArg State.transitions bare).symm,
      (congrArg State.epsilonOnly bare).symm, (congrArg State.decision bare).symm, by simp, invalid,
      fun stop link => ?_, fun back link => ?_⟩
    · exact of_decide_eq_true (blockLinks stop (List.mem_filterMap.2 ⟨r, member, link⟩))
    · exact of_decide_eq_true (loopLinks back (List.mem_filterMap.2 ⟨r, member, link⟩))
  refine (ensures_any _).bind fun nonGreedy _ => ?_
  obtain ⟨size₁, plain₁⟩ := plain_marked (f := fun s => { s with nonGreedy := true })
    (fun i s => Plain.markNonGreedy) nonGreedy numbered plain
  have finish (leftRecursive : List Nat) :=
    plain_marked (f := markLeftRecursive) (fun i s => Plain.markLeftRecursive) leftRecursive _ plain₁
  have whole (leftRecursive : List Nat) := (finish leftRecursive).1.trans (size₁.trans size)
  cases f.hasPrecedence with
  | true =>
    refine (ensures_any _).bind fun leftRecursive _ => ensures_pure ⟨rfl, ?_⟩
    rw [whole leftRecursive]
    exact (finish leftRecursive).2
  | false =>
    refine (ensures_any _).bind fun leftRecursive _ => ensures_pure ⟨rfl, ?_⟩
    rw [whole leftRecursive]
    exact (finish leftRecursive).2

/-! ## Rules, modes and sets -/

theorem ensures_rule (f : Format) (net : Network) :
    (rule f net).Ensures fun p => (net.state p.1).kind.isRuleStart = true := by
  refine (ensures_any index).bind fun start _ => ?_
  refine (ensures_check _ _).bind fun _ isStart => ?_
  split
  · refine (ensures_any signedWord).bind fun type _ => ?_
    split
    · exact (ensures_any word).bind fun _ _ => ensures_pure isStart
    · exact ensures_pure isStart
  · exact ensures_pure isStart

theorem ensures_rules (f : Format) (net : Network) : (rules f net).Ensures fun stopped =>
    ∃ (starts : List Nat) (types : Array Int), (∀ start ∈ starts, (net.state start).kind.isRuleStart = true) ∧
      types.size = (if net.isLexer then starts.length else 0) ∧
      (List.range net.states.size).foldlM enterStop { net with
        ruleStarts := starts.toArray
        ruleStops := Array.replicate starts.length none
        ruleTypes := types } = .ok stopped := by
  refine (ensures_list (ensures_rule f net)).bind fun read known => ?_
  intro cursor stopped cursor' run
  refine ⟨read.map (·.1), if net.isLexer then (read.map (·.2)).toArray else #[], ?_, ?_, ?_⟩
  · intro start member
    obtain ⟨p, among, rfl⟩ := List.mem_map.1 member
    exact known p among
  · split <;> simp
  · rw [List.length_map]
    exact ensures_foldlM _ _ _ _ _ _ run

theorem ensures_modes (net : Network) : (modes net).Ensures fun net' => ∃ starts,
    net' = { net with modeStarts := starts } ∧ ∀ n ∈ starts.toList, (net.state n).kind = .tokenStart :=
  (ensures_indices _ _).bind fun read known => ensures_pure ⟨read.toArray, rfl, fun n member =>
    beq_iff_eq.1 (known n member)⟩

theorem proper_addRanges {s : SymbolSet} (proper : s.Proper) (rs : List (Int × Int))
    (bounds : ∀ r ∈ rs, -2147483648 ≤ r.1 ∧ r.2 < 2147483648) : (s.addRanges rs).Proper := by
  have covered : ∀ v, SymbolSet.Covers rs v → -2147483648 ≤ v ∧ v < 2147483648 := by
    rintro v ⟨r, member, above, below⟩
    obtain ⟨low, high⟩ := bounds r member
    omega
  refine ⟨proper.canonical.addRanges rs, fun v found => ?_, fun v found => ?_⟩
  · rcases (SymbolSet.contains_addRanges s rs v).1 found with old | new
    · exact proper.low v old
    · exact (covered v new).1
  · rcases (SymbolSet.contains_addRanges s rs v).1 found with old | new
    · exact proper.high v old
    · exact (covered v new).2

theorem ensures_set {symbol : Decode Int}
    (small : symbol.Ensures fun v => -2147483648 ≤ v ∧ v < 2147483648) :
    (set symbol).Ensures SymbolSet.Proper := by
  refine (ensures_any index).bind fun n _ => (ensures_any word).bind fun eof _ => ?_
  refine (ensures_times (P := fun r => -2147483648 ≤ r.1 ∧ r.2 < 2147483648)
    (small.bind fun lo low => small.bind fun hi high => ensures_pure ⟨low.1, high.2⟩) n).bind
    fun intervals bounds => ensures_pure (proper_addRanges ?_ intervals bounds)
  have nothing : SymbolSet.empty.Proper :=
    ⟨SymbolSet.canonical_empty, fun v found => absurd found (by simp [SymbolSet.contains, SymbolSet.empty]),
      fun v found => absurd found (by simp [SymbolSet.contains, SymbolSet.empty])⟩
  split
  · exact proper_addRanges nothing [(endOfInput, endOfInput)] (by simp [endOfInput])
  · exact nothing

theorem ensures_narrowSymbol : narrowSymbol.Ensures fun v => -2147483648 ≤ v ∧ v < 2147483648 :=
  (ensures_any word).bind fun w _ => ensures_pure (by
    have := w.toNat_lt
    omega)

theorem ensures_wideSymbol : wideSymbol.Ensures fun v => -2147483648 ≤ v ∧ v < 2147483648 :=
  (ensures_any word).bind fun low _ => (ensures_any word).bind fun high _ => ensures_pure (by
    unfold signed32
    have above := Int.le_bmod (x := (low.toNat + high.toNat * 65536 : Nat)) (m := 4294967296) (by omega)
    have below := Int.bmod_lt (x := (low.toNat + high.toNat * 65536 : Nat)) (m := 4294967296) (by omega)
    omega)

theorem ensures_sets (f : Format) (net : Network) : (sets f net).Ensures fun net' => ∃ table,
    net' = { net with sets := table } ∧ ∀ s ∈ table.toList, s.Proper := by
  refine (ensures_list (ensures_set ensures_narrowSymbol)).bind fun narrow narrowProper => ?_
  have finish (wide : List SymbolSet) (wideProper : ∀ s ∈ wide, s.Proper) :
      ∀ s ∈ (narrow ++ wide).toArray.toList, s.Proper := by
    intro s member
    rcases List.mem_append.1 member with early | late
    · exact narrowProper s early
    · exact wideProper s late
  split
  · exact (ensures_list (ensures_set ensures_wideSymbol)).bind fun wide wideProper =>
      ensures_pure ⟨_, rfl, finish wide wideProper⟩
  · exact ensures_pure ⟨_, rfl, finish [] (by simp)⟩

/-! ## Edges -/

/-- An edge that refers only to what the network has. -/
structure Joins (net : Network) (e : Nat × Transition) : Prop where
  source : e.1 < net.states.size
  readable : net.Readable e.2
  set : ∀ s, Encode.SetTable.referred? e.2.label = some s → s ∈ net.sets.toList
  action : ∀ r i ctx, e.2.label = .action r i ctx → r < 65536 ∧ i.getD 0 < 65536

theorem ensures_label {net : Network} {target : Nat} (inside : target < net.states.size)
    (code a b c : Word) : (label net target code a b c).Ensures fun t =>
      ∀ source < net.states.size, Joins net (source, t) := by
  have small := a.toNat_lt
  have small' := b.toNat_lt
  unfold label
  extract_lets symbol index?
  split
  case h_3 =>
    refine (ensures_check _ _).bind fun _ isStart => (ensures_check _ _).bind fun _ known => ?_
    refine ensures_pure fun source bound => ⟨bound, ⟨?_, nofun, ?_, nofun, nofun⟩, nofun, nofun⟩
    · by_contra outside
      rw [Network.state_of_le (Nat.not_lt.1 outside)] at isStart
      cases isStart
    · rintro r p follow ⟨⟩
      exact ⟨isStart, of_decide_eq_true known, inside⟩
  case h_4 =>
    refine ensures_pure fun source bound => ⟨bound, ⟨inside, nofun, nofun, ?_, nofun⟩, nofun, nofun⟩
    rintro r p ctx ⟨⟩
    omega
  case h_6 =>
    have place : index?.getD 0 < 65536 ∧ ∀ place, index? = some place → place < 18446744073709551616 := by
      by_cases absent : b = noneWord
      · simp [index?, absent]
      · simp only [index?, if_neg absent, Option.getD_some, Option.some.injEq, forall_eq']
        omega
    refine ensures_pure fun source bound => ⟨bound, ⟨inside, nofun, nofun, nofun, ?_⟩, nofun, ?_⟩
    · rintro r i ctx ⟨⟩
      exact ⟨by omega, place.2⟩
    · rintro r i ctx ⟨⟩
      exact ⟨by omega, place.1⟩
  case h_7 =>
    split
    · rename_i s found
      refine ensures_pure fun source bound => ⟨bound, ⟨inside, nofun, nofun, nofun, nofun⟩, ?_, nofun⟩
      rintro s ⟨⟩
      exact Array.mem_toList_iff.2 (Array.mem_of_getElem? found)
    · exact ensures_refuse _ _
  case h_8 =>
    split
    · rename_i s found
      refine ensures_pure fun source bound => ⟨bound, ⟨inside, nofun, nofun, nofun, nofun⟩, ?_, nofun⟩
      rintro s ⟨⟩
      exact Array.mem_toList_iff.2 (Array.mem_of_getElem? found)
    · exact ensures_refuse _ _
  case h_11 => exact ensures_refuse _ _
  case h_1 =>
    exact ensures_pure fun source bound => ⟨bound, ⟨inside, by simp [Transition.epsilon], nofun, nofun,
      nofun⟩, nofun, nofun⟩
  all_goals
    exact ensures_pure fun source bound => ⟨bound, ⟨inside, nofun, nofun, nofun, nofun⟩, nofun, nofun⟩

theorem ensures_transition (net : Network) : (transition net).Ensures (Joins net) := by
  refine (ensures_any index).bind fun source _ => (ensures_any index).bind fun target _ => ?_
  refine (ensures_any word).bind fun code _ => (ensures_any word).bind fun a _ => ?_
  refine (ensures_any word).bind fun b _ => (ensures_any word).bind fun c _ => ?_
  refine (ensures_check _ _).bind fun _ inside => ?_
  rw [Bool.and_eq_true, decide_eq_true_iff, decide_eq_true_iff] at inside
  exact (ensures_label inside.2 code a b c).bind fun t joins => ensures_pure (joins source inside.1)

/-! ## Actions -/

theorem ensures_signedWord : signedWord.Ensures fun v => v < 65536 :=
  (ensures_any word).bind fun w _ => ensures_pure (by
    have := w.toNat_lt
    unfold wordValue
    split <;> omega)

theorem indexOperand_lt {code : Word} {v : Int} {n : Nat} (small : v < 65536)
    (read : LexerAction.indexOperand code v = .ok n) : n < 65536 := by
  unfold LexerAction.indexOperand at read
  split at read
  · cases read
  · cases read
    omega

theorem storable_of_decode {code : Word} {x y : Int} {a : LexerAction} (small : x < 65536)
    (small' : y < 65536) (read : LexerAction.decode code x y = .ok a) : Storable a := by
  unfold LexerAction.decode at read
  split at read
  case h_2 =>
    obtain ⟨rule, first, rest⟩ := except_bind_ok.1 read
    obtain ⟨index, second, returned⟩ := except_bind_ok.1 rest
    cases returned
    have := indexOperand_lt small first
    have := indexOperand_lt small' second
    exact ⟨by omega, by omega⟩
  case h_3 =>
    obtain ⟨mode, first, returned⟩ := except_bind_ok.1 read
    cases returned
    have := indexOperand_lt small first
    exact show mode < 2147483648 by omega
  case h_6 =>
    obtain ⟨mode, first, returned⟩ := except_bind_ok.1 read
    cases returned
    have := indexOperand_lt small first
    exact show mode < 2147483648 by omega
  all_goals
    cases read
  all_goals trivial

theorem ensures_action : action.Ensures Storable := by
  refine (ensures_any word).bind fun code _ => ?_
  refine ensures_signedWord.bind fun x small => ensures_signedWord.bind fun y small' => ?_
  split
  · rename_i a read
    exact ensures_pure (storable_of_decode small small' read)
  · exact ensures_refuse _ _

/-- How the actions are added to a network: a parser has none, and those of a lexer are read or stand on
its transitions. -/
inductive Acts (net : Network) : Network → Prop
  | parser (isParser : net.isLexer = false) : Acts net net
  | table (isLexer : net.isLexer = true) {actions : List LexerAction}
      (storable : ∀ a ∈ actions, Storable a)
      (modes : ∀ a ∈ actions, leadsAstray net a = false) :
      Acts net { net with actions := actions.toArray }
  | custom (isLexer : net.isLexer = true)
      (modes : ∀ a ∈ (customActions net).actions.toList, leadsAstray net a = false) :
      Acts net (customActions net)

theorem ensures_actions (f : Format) (net : Network) : (actions f net).Ensures (Acts net) := by
  unfold actions
  split
  · rename_i isParser
    exact ensures_pure (.parser (by simpa using isParser))
  · rename_i isLexer
    replace isLexer : net.isLexer = true := by simpa using isLexer
    split
    · refine (ensures_list ensures_action).bind fun read storable => ?_
      refine (ensures_pure (P := (· = { net with actions := read.toArray })) rfl).bind
        fun changed changedIs => (ensures_checks _ _ _).bind fun _ known => ensures_pure ?_
      subst changedIs
      exact .table isLexer storable fun a member => by
        have passed := known a member
        rwa [Bool.not_eq_true'] at passed
    · refine (ensures_pure (P := (· = customActions net)) rfl).bind
        fun changed changedIs => (ensures_checks _ _ _).bind fun _ known => ensures_pure ?_
      subst changedIs
      exact .custom isLexer fun a member => by
        have passed := known a member
        rwa [Bool.not_eq_true'] at passed

/-! ## The whole network -/

/-- The edges that the words list, with the format and the network that is read before them. -/
def listed : Decode (Format × Network × List (Nat × Transition)) := do
  let f ← format
  let net ← grammar
  let net ← states f net
  let net ← rules f net
  let net ← modes net
  let net ← sets f net
  let edges ← list (transition net)
  return (f, net, edges)

/-- What is read and derived behind the edges. -/
def completed (f : Format) (net : Network) : Decode Network := do
  let net ← linkBlocks (addReturns net)
  let net ← decisions net
  let net ← actions f net
  return mark net

theorem network_eq :
    network = listed >>= fun r => completed r.1 (r.2.1.addEdges r.2.2) := by
  simp only [network, listed, completed, transitions, bind_assoc, pure_bind]
  rfl

/-- What is known of a network before its edges, and of the edges. -/
structure Listed (base : Network) (edges : List (Nat × Transition)) : Prop where
  grounded : base.Grounded
  stops : ∃ stopped, (List.range base.states.size).foldlM enterStop base.skeleton = .ok stopped ∧
    base = { stopped with modeStarts := base.modeStarts, sets := base.sets }
  proper : ∀ s ∈ base.sets.toList, s.Proper
  joins : ∀ e ∈ edges, Joins base e

theorem ensures_grammar : grammar.Ensures fun net => ∃ kind maxTokenType,
    net = { kind, maxTokenType } := by
  refine (ensures_any word).bind fun code _ => ?_
  split
  · exact ensures_refuse _ _
  · exact (ensures_any word).bind fun w _ => ensures_pure ⟨_, _, rfl⟩

theorem listed_of_read {start stated stopped : Network} {starts : List Nat} {types : Array Int}
    {modeStarts : Array Nat} {table : Array SymbolSet} {edges : List (Nat × Transition)}
    (startIs : ∃ kind maxTokenType, start = { kind, maxTokenType })
    (statedIs : stated = { start with states := stated.states })
    (plain : ∀ i s, stated.states[i]? = some s → Plain stated.states.size i s)
    (isStart : ∀ n ∈ starts, (stated.state n).kind.isRuleStart = true)
    (typed : types.size = if stated.isLexer then starts.length else 0)
    (stops : (List.range stated.states.size).foldlM enterStop { stated with
        ruleStarts := starts.toArray
        ruleStops := Array.replicate starts.length none
        ruleTypes := types } = .ok stopped)
    (isMode : ∀ n ∈ modeStarts.toList, (stopped.state n).kind = .tokenStart)
    (proper : ∀ s ∈ table.toList, s.Proper)
    (joins : ∀ e ∈ edges, Joins { stopped with modeStarts, sets := table } e) :
    Listed { stopped with modeStarts, sets := table } edges := by
  obtain ⟨kind, maxTokenType, rfl⟩ := startIs
  let ruled : Network := { stated with
    ruleStarts := starts.toArray
    ruleStops := Array.replicate starts.length none
    ruleTypes := types }
  have same : ruled.SameBare stopped := Network.sameBare_enterStops stops
  have tables : ruled.SameTables stopped := Network.sameTables_enterStops stops
  have bare : stated.states.map State.bare = stated.states := by
    refine Array.ext_getElem? fun i => ?_
    rw [Array.getElem?_map]
    cases found : stated.states[i]? with
    | none => rfl
    | some s => exact congrArg some (plain i s found).bare
  have plainAt (n : Nat) (inside : n < stated.states.size) :
      Plain stated.states.size n (stated.state n) := by
    refine plain n _ ?_
    rw [Network.state_of_lt inside, Array.getElem?_eq_getElem inside]
  have grounded : ({ ruled with modeStarts } : Network).Grounded := by
    refine ⟨fun n inside => (plainAt n inside).number, fun n isInvalid => ?_,
      fun n stop (link : blockLink? (stated.state n).kind = some stop) => ?_,
      fun n back (link : loopLink? (stated.state n).kind = some back) => ?_, fun r inside => ?_, ?_,
      fun n member => ?_⟩
    · rcases Nat.lt_or_ge n stated.states.size with inside | outside
      · exact (plainAt n inside).invalid isInvalid
      · exact congrArg State.rule (Network.state_of_le outside)
    · rcases Nat.lt_or_ge n stated.states.size with inside | outside
      · exact (plainAt n inside).blockLink stop link
      · have none' : (stated.state n).kind = .invalid := by rw [Network.state_of_le outside]
        rw [none'] at link
        cases link
    · rcases Nat.lt_or_ge n stated.states.size with inside | outside
      · exact (plainAt n inside).loopLink back link
      · have none' : (stated.state n).kind = .invalid := by rw [Network.state_of_le outside]
        rw [none'] at link
        cases link
    · have bound : r < starts.length := by simpa [ruled, Network.numRules] using inside
      have startIs : ruled.ruleStart r = starts[r] := by simp [ruled, Network.ruleStart, bound]
      exact startIs ▸ isStart _ (List.getElem_mem bound)
    · simpa [ruled, Network.numRules, Network.isLexer] using typed
    · have known := isMode n member
      rwa [← StateKind.bare_eq_tokenStart, same.kind, StateKind.bare_eq_tokenStart] at known
  refine ⟨grounded.of_same same tables.kind tables.ruleStarts tables.ruleTypes rfl, ⟨stopped, ?_, rfl⟩,
    proper, joins⟩
  have skeleton : Network.skeleton { stopped with modeStarts, sets := table } = ruled := by
    have states : stopped.states.map State.bare = stated.states := Eq.trans same bare
    simp only [Network.skeleton, Network.numRules, states, tables.kind, tables.maxTokenType,
      tables.ruleStarts, tables.ruleTypes, ruled]
    rw [statedIs]
    simp
  rw [skeleton]
  rw [show ({ stopped with modeStarts, sets := table } : Network).states.size = stated.states.size from
    same.size]
  exact stops

theorem ensures_listed : listed.Ensures fun r => Listed r.2.1 r.2.2 := by
  refine (ensures_any format).bind fun f _ => ensures_grammar.bind fun start startIs => ?_
  refine (ensures_states f start).bind fun stated ⟨statedIs, plain⟩ => ?_
  refine (ensures_rules f stated).bind fun stopped ⟨starts, types, isStart, typed, stops⟩ => ?_
  refine (ensures_modes stopped).bind fun moded ⟨modeStarts, modedIs, isMode⟩ => ?_
  subst modedIs
  refine (ensures_sets f _).bind fun tabled ⟨table, tabledIs, proper⟩ => ?_
  subst tabledIs
  refine (ensures_list (ensures_transition _)).bind fun edges joins => ?_
  have known := listed_of_read startIs statedIs plain isStart typed stops isMode proper joins
  exact ensures_pure known

/-- What is derived from a network with its edges. -/
structure Completed (net result : Network) : Prop where
  steps : ∃ (linked : Network) (ds : List Nat) (acted : Network),
    linkBlocks (addReturns net) = .ok linked ∧
    (∀ d ∈ ds, d < linked.states.size ∧ (linked.state d).kind.isDecision = true) ∧
    Acts (ds.foldl (fun net n => (net.defineDecision n).2) linked) acted ∧ result = mark acted

theorem ensures_completed (f : Format) (net : Network) : (completed f net).Ensures (Completed net) := by
  refine (ensures_lift _).bind fun linked links => ?_
  refine Ensures.bind (P := fun decided => ∃ ds : List Nat,
    (∀ d ∈ ds, d < linked.states.size ∧ (linked.state d).kind.isDecision = true) ∧
    decided = ds.foldl (fun net n => (net.defineDecision n).2) linked) ?_ ?_
  · refine (ensures_indices _ _).bind fun ds known => ensures_pure ⟨ds, fun d member => ?_, rfl⟩
    simpa using known d member
  · rintro decided ⟨ds, known, rfl⟩
    exact (ensures_actions f _).bind fun acted acts =>
      ensures_pure ⟨linked, ds, acted, links, known, acts, rfl⟩

end Decode

/-- A network that was accepted is completed from what its words list. -/
theorem Network.decode_runs {net : Network} {words : List Word} {verify : Bool}
    (decoded : decode words verify = .ok net) : ∃ f base edges cursor cursor',
      Decode.listed.run ⟨words, 0⟩ = .ok ((f, base, edges), cursor) ∧
      (Decode.completed f (base.addEdges edges)).run cursor = .ok (net, cursor') ∧
      (verify = true → net.fault? = none) := by
  obtain ⟨⟨result, cursor⟩, run, rest⟩ := except_bind_ok.1 decoded
  rw [Decode.network_eq] at run
  obtain ⟨⟨f, base, edges⟩, mid, front, back⟩ := Decode.bind_ok.1 run
  have isResult : result = net ∧ (verify = true → net.fault? = none) := by
    simp only at rest
    split at rest
    · cases rest
    · split at rest
      · split at rest
        · cases rest
        · rename_i none'
          cases rest
          exact ⟨rfl, fun _ => none'⟩
      · rename_i unverified
        cases rest
        exact ⟨rfl, fun verified => absurd verified unverified⟩
  rw [isResult.1] at back
  exact ⟨f, base, edges, mid, cursor, front, back, isResult.2⟩

/-- A network that was accepted is derived from what its words list. -/
theorem Network.decode_steps {net : Network} {words : List Word} {verify : Bool}
    (decoded : decode words verify = .ok net) : ∃ f base edges cursor,
      Decode.listed.run ⟨words, 0⟩ = .ok ((f, base, edges), cursor) ∧ Decode.Listed base edges ∧
      Decode.Completed (base.addEdges edges) net ∧ (verify = true → net.fault? = none) := by
  obtain ⟨f, base, edges, cursor, cursor', front, back, sound⟩ := decode_runs decoded
  exact ⟨f, base, edges, cursor, front, Decode.ensures_listed _ _ _ front,
    Decode.ensures_completed f _ _ _ _ back, sound⟩

end AdaptiveLL
