import AdaptiveLL.Proofs.Network.Edges
import AdaptiveLL.Proofs.Network.Operands

/-!
# Networks written and read back

What is read from the words of a network is that network again as far as its states and their moves go:
a move is a transition without what its label asks for. The stop states of the rules are the exception,
since the transitions that leave them are not written but derived from the calls.
-/

set_option autoImplicit false

namespace AdaptiveLL

/-! ## Moves -/

/-- Where a transition leads, and whether it consumes a symbol, calls a rule or does neither. -/
inductive Move where
  | free (target : Nat)
  | consume (target : Nat)
  | call (rule target follow : Nat)
  deriving DecidableEq

/-- The move of a transition. -/
def Transition.move (t : Transition) : Move :=
  match t.label with
  | .rule r _ follow => .call r t.target follow
  | l => if l.isEpsilon then .free t.target else .consume t.target

@[simp]
theorem Transition.move_epsilon (n : Nat) : (Transition.epsilon n).move = .free n := rfl

/-- What accepts a symbol consumes it. -/
theorem Transition.move_of_accepts {t : Transition} {symbol lo hi : Int}
    (accepts : t.label.accepts symbol lo hi = true) : t.move = .consume t.target := by
  unfold Transition.move
  cases label : t.label with
  | epsilon _ => simp [label, Label.accepts] at accepts
  | rule _ _ _ => simp [label, Label.accepts] at accepts
  | predicate _ _ _ => simp [label, Label.accepts] at accepts
  | action _ _ _ => simp [label, Label.accepts] at accepts
  | precedence _ => simp [label, Label.accepts] at accepts
  | _ => rfl

theorem Transition.of_move_call {t : Transition} {r start follow : Nat}
    (move : t.move = .call r start follow) : ∃ p, t.label = .rule r p follow ∧ t.target = start := by
  unfold Transition.move at move
  split at move
  · rename_i label
    cases move
    exact ⟨_, label, rfl⟩
  · split at move <;> cases move

/-- The moves that leave a state. -/
def Network.moves (net : Network) (n : Nat) : List Move := (net.out n).map Transition.move

/-! ## Transitions -/

namespace Decode

theorem reads_label {net : Network} {table : Encode.SetTable} {tr : Transition} {target : Nat}
    {a b c : Int} {a' b' c' : Word} (operands : Encode.operands table tr = .ok (target, a, b, c))
    (small : ∀ r p follow, tr.label = .rule r p follow →
      tr.target < 9223372036854775808 ∧ r < 9223372036854775808)
    (first : Encode.word a = .ok a') (second : Encode.word b = .ok b') :
    (label net target tr.label.code a' b' c').Reads [] fun t => t.move = tr.move := by
  obtain ⟨goal, l⟩ := tr
  cases l with
  | epsilon outermost =>
    cases operands
    simp only [label, Label.code, UInt16.reduceToNat]
    exact .pure rfl
  | range lo hi =>
    have same : target = goal := by
      simp only [Encode.operands] at operands
      split at operands <;> (cases operands; rfl)
    subst same
    simp only [label, Label.code, UInt16.reduceToNat]
    exact .pure rfl
  | rule r p follow =>
    simp only [Encode.operands, Except.ok.injEq, Prod.mk.injEq] at operands
    obtain ⟨rfl, rfl, rfl, -⟩ := operands
    obtain ⟨smallTarget, smallRule⟩ := small r p follow rfl
    have readTarget : a'.toNat = goal :=
      Int.ofNat.inj ((Encode.word_ok first).1.trans (Encode.signed64_of_lt smallTarget))
    have readRule : b'.toNat = r :=
      Int.ofNat.inj ((Encode.word_ok second).1.trans (Encode.signed64_of_lt smallRule))
    simp only [label, Label.code, UInt16.reduceToNat]
    refine (reads_check _ _).bind (v := []) fun _ _ => ?_
    refine (reads_check _ _).bind (v := []) fun _ _ => .pure ?_
    simp [Transition.move, readTarget, readRule]
  | predicate r p ctx =>
    simp only [Encode.operands, Except.ok.injEq, Prod.mk.injEq] at operands
    obtain ⟨rfl, rfl, rfl, -⟩ := operands
    simp only [label, Label.code, UInt16.reduceToNat]
    exact .pure rfl
  | atom v =>
    have same : target = goal := by
      simp only [Encode.operands] at operands
      split at operands <;> (cases operands; rfl)
    subst same
    simp only [label, Label.code, UInt16.reduceToNat]
    exact .pure rfl
  | action r i ctx =>
    simp only [Encode.operands, Except.ok.injEq, Prod.mk.injEq] at operands
    obtain ⟨rfl, rfl, rfl, -⟩ := operands
    simp only [label, Label.code, UInt16.reduceToNat]
    exact .pure rfl
  | set s =>
    obtain ⟨i, -, returned⟩ := except_bind_ok.1 operands
    cases returned
    simp only [label, Label.code, UInt16.reduceToNat]
    cases net.sets[a'.toNat]? with
    | none => exact reads_refuse _
    | some s' => exact .pure rfl
  | notSet s =>
    obtain ⟨i, -, returned⟩ := except_bind_ok.1 operands
    cases returned
    simp only [label, Label.code, UInt16.reduceToNat]
    cases net.sets[a'.toNat]? with
    | none => exact reads_refuse _
    | some s' => exact .pure rfl
  | wildcard =>
    cases operands
    simp only [label, Label.code, UInt16.reduceToNat]
    exact .pure rfl
  | precedence p =>
    cases operands
    simp only [label, Label.code, UInt16.reduceToNat]
    exact .pure rfl

theorem reads_transition {net : Network} {table : Encode.SetTable} {source : Nat} {tr : Transition}
    {ws : List Word} (written : Encode.transition table source tr = .ok ws)
    (small : ∀ r p follow, tr.label = .rule r p follow →
      tr.target < 9223372036854775808 ∧ r < 9223372036854775808) :
    (transition net).Reads ws fun e => e.1 = source ∧ e.2.move = tr.move := by
  obtain ⟨⟨target, a, b, c⟩, operands, written⟩ := except_bind_ok.1 written
  obtain ⟨source', sourceWord, written⟩ := except_bind_ok.1 written
  obtain ⟨target', targetWord, written⟩ := except_bind_ok.1 written
  obtain ⟨a', first, written⟩ := except_bind_ok.1 written
  obtain ⟨b', second, written⟩ := except_bind_ok.1 written
  obtain ⟨c', third, written⟩ := except_bind_ok.1 written
  cases written
  refine (reads_index source').bind (v := [target', tr.label.code, a', b', c']) fun s sIs => ?_
  refine (reads_index target').bind (v := [tr.label.code, a', b', c']) fun t tIs => ?_
  refine (reads_word _).bind (v := [a', b', c']) fun code codeIs => ?_
  refine (reads_word a').bind (v := [b', c']) fun x xIs => ?_
  refine (reads_word b').bind (v := [c']) fun y yIs => ?_
  refine (reads_word c').bind (v := []) fun z zIs => ?_
  refine (reads_check _ _).bind (v := []) fun _ _ => ?_
  rw [codeIs, xIs, yIs, zIs, tIs, (Encode.index_ok targetWord).1]
  exact (reads_label operands small first second).map
    fun t' same => ⟨sIs.trans (Encode.index_ok sourceWord).1, same⟩

/-! ## The head -/

theorem reads_times_words (ws : List Word) : (times ws.length word).Reads ws (· = ws) := by
  induction ws with
  | nil => exact .pure rfl
  | cons w ws ih =>
    refine (reads_word w).bind (v := ws) fun a same => ?_
    exact ih.map fun as rest => by rw [same, rest]

theorem reads_format :
    format.Reads (formatVersion :: identifierWords Format.current.identifier) (· = .current) := by
  refine (reads_word formatVersion).bind fun version same => ?_
  subst same
  simp only [ne_eq, not_true_eq_false, if_false]
  have eight : (identifierWords Format.current.identifier).length = 8 := by
    simp [identifierWords]
  have words := reads_times_words (identifierWords Format.current.identifier)
  rw [eight] at words
  have found : Format.ofIdentifier? (identifierOfWords (identifierWords Format.current.identifier)) =
      some .current := by decide +kernel
  refine words.last fun ws same => ?_
  rw [same, found]
  exact .pure rfl

theorem reads_grammar (kind : GrammarKind) (maxType : Word) :
    grammar.Reads [kind.code, maxType] fun net => net.kind = kind ∧ net.states = #[] := by
  refine (reads_word kind.code).bind (v := [maxType]) fun code same => ?_
  have known : GrammarKind.ofCode? code = some kind := by
    rw [same]
    cases kind <;> rfl
  rw [known]
  exact (reads_word maxType).map fun w _ => ⟨rfl, rfl⟩

/-! ## States -/

theorem reads_stateKind {kind : StateKind} {link : Option Nat} {w : Word}
    (links : kind = .loopEnd link ∨ ∃ block, kind = .blockStart block link) :
    (stateKind kind.code).Reads [w] fun k => k.code = kind.code := by
  rcases links with rfl | ⟨block, rfl⟩
  · simp only [stateKind, StateKind.code, UInt16.reduceToNat]
    exact (reads_index w).map fun _ _ => rfl
  · cases block
    all_goals
      simp only [stateKind, StateKind.code, UInt16.reduceToNat]
      exact (reads_index w).map fun _ _ => rfl

/-- The words of a state with a link, and of one without. -/
theorem state_words {s : State} {ws : List Word} (written : Encode.state s = .ok ws)
    (valid : s.kind ≠ .invalid) : ∃ rule, Encode.optional s.rule = .ok rule ∧
      ((∃ link w, (s.kind = .loopEnd link ∨ ∃ block, s.kind = .blockStart block link) ∧
        ws = [s.kind.code, rule, w]) ∨
      (ws = [s.kind.code, rule] ∧ (stateKind s.kind.code).Reads [] fun k => k.code = s.kind.code)) := by
  obtain ⟨number, owner, kind, ts, eps, d, ng⟩ := s
  cases kind with
  | invalid => exact absurd rfl valid
  | loopEnd link =>
    obtain ⟨rule, ruleWord, written⟩ := except_bind_ok.1 written
    obtain ⟨w, -, written⟩ := except_bind_ok.1 written
    cases written
    exact ⟨rule, ruleWord, .inl ⟨link, w, .inl rfl, rfl⟩⟩
  | blockStart block link =>
    obtain ⟨rule, ruleWord, written⟩ := except_bind_ok.1 written
    obtain ⟨w, -, written⟩ := except_bind_ok.1 written
    cases written
    exact ⟨rule, ruleWord, .inl ⟨link, w, .inr ⟨block, rfl⟩, rfl⟩⟩
  | _ =>
    obtain ⟨rule, ruleWord, written⟩ := except_bind_ok.1 written
    cases written
    refine ⟨rule, ruleWord, .inr ⟨rfl, ?_⟩⟩
    simp only [stateKind, StateKind.code, UInt16.reduceToNat]
    exact .pure rfl

theorem reads_state {s : State} {ws : List Word} (written : Encode.state s = .ok ws)
    (valid : s.kind ≠ .invalid) :
    state.Reads ws fun s' => s'.kind.code = s.kind.code ∧ s'.rule = s.rule ∧ s'.transitions = [] := by
  have nonzero : s.kind.code ≠ 0 := by
    revert valid
    cases s.kind with
    | blockStart block link => cases block <;> simp [StateKind.code]
    | _ => simp [StateKind.code]
  obtain ⟨rule, ruleWord, ⟨link, w, links, rfl⟩ | ⟨rfl, plain⟩⟩ := state_words written valid
  · refine (reads_word _).bind (v := [rule, w]) fun code same => ?_
    subst same
    simp only [nonzero, if_false]
    refine (reads_optional rule).bind (v := [w]) fun owner ownerIs => ?_
    exact (reads_stateKind links).map fun k kIs =>
      ⟨kIs, ownerIs.trans (Encode.optional_ok ruleWord), rfl⟩
  · refine (reads_word _).bind (v := [rule]) fun code same => ?_
    subst same
    simp only [nonzero, if_false]
    refine (reads_optional rule).bind (v := []) fun owner ownerIs => ?_
    exact plain.map fun k kIs => ⟨kIs, ownerIs.trans (Encode.optional_ok ruleWord), rfl⟩

end Decode

/-! ## Networks with the same states -/

namespace Network

/-- The networks have the same states, by number, kind and rule. -/
structure SameStates (net net' : Network) : Prop where
  size : net'.states.size = net.states.size
  number : ∀ n < net.states.size, (net'.state n).number = n
  code : ∀ n, (net'.state n).kind.code = (net.state n).kind.code
  rule : ∀ n, (net'.state n).rule = (net.state n).rule

variable {net net' net'' : Network}

/-- Only the states matter. -/
theorem SameStates.of_states (same : SameStates net net') (states : net''.states = net'.states) :
    SameStates net net'' := by
  have stateIs (n : Nat) : net''.state n = net'.state n := by rw [state, state, states]
  refine ⟨by rw [states, same.size], ?_, ?_, ?_⟩
  · intro n inside
    rw [stateIs, same.number n inside]
  · intro n
    rw [stateIs, same.code n]
  · intro n
    rw [stateIs, same.rule n]

/-- A change of one state that leaves its number, the code of its kind and its rule. -/
theorem SameStates.modifyAt (same : SameStates net net') (m : Nat) (f : State → State)
    (number : (f (net'.state m)).number = (net'.state m).number)
    (code : (f (net'.state m)).kind.code = (net'.state m).kind.code)
    (rule : (f (net'.state m)).rule = (net'.state m).rule) :
    SameStates net (net'.modifyState m f) := by
  refine ⟨by rw [modifyState_size, same.size], ?_, ?_, ?_⟩
  · intro n inside
    rw [net'.modifyState_keeps_at m f (·.number) number, same.number n inside]
  · intro n
    rw [net'.modifyState_keeps_at m f (·.kind.code) code, same.code n]
  · intro n
    rw [net'.modifyState_keeps_at m f (·.rule) rule, same.rule n]

theorem SameStates.modify (same : SameStates net net') (m : Nat) (f : State → State)
    (number : ∀ s, (f s).number = s.number) (code : ∀ s, (f s).kind.code = s.kind.code)
    (rule : ∀ s, (f s).rule = s.rule) : SameStates net (net'.modifyState m f) :=
  same.modifyAt m f (number _) (code _) (rule _)

/-- A change of all states that leaves their numbers, the codes of their kinds and their rules. -/
theorem SameStates.mapStates (same : SameStates net net') (f : State → State)
    (number : ∀ s, (f s).number = s.number) (code : ∀ s, (f s).kind.code = s.kind.code)
    (rule : ∀ s, (f s).rule = s.rule) :
    SameStates net { net' with states := net'.states.map f } := by
  refine ⟨by rw [← same.size]; exact Array.size_map, ?_, ?_, ?_⟩
  · intro n inside
    rw [net'.mapStates_keeps f (·.number) number, same.number n inside]
  · intro n
    rw [net'.mapStates_keeps f (·.kind.code) code, same.code n]
  · intro n
    rw [net'.mapStates_keeps f (·.rule) rule, same.rule n]

theorem SameStates.addEdges (same : SameStates net net') (edges : List (Nat × Transition)) :
    SameStates net (net'.addEdges edges) := by
  induction edges generalizing net' with
  | nil => exact same
  | cons e edges ih =>
    exact ih (same.modify e.1 _ (fun _ => rfl) (fun _ => rfl) fun _ => rfl)

/-- The states as they were read, numbered by their places. -/
theorem sameStates_of_read {base : Network} {read : List State}
    (all : List.Forall₂ (fun s s' : State => s'.kind.code = s.kind.code ∧ s'.rule = s.rule ∧
      s'.transitions = []) net.states.toList read) :
    SameStates net { base with states := (read.zipIdx.map fun (s, i) => { s with number := i }).toArray } ∧
      ∀ n, Network.out { base with
        states := (read.zipIdx.map fun (s, i) => { s with number := i }).toArray } n = [] := by
  have length : read.length = net.states.size := by
    rw [← all.length_eq, Array.length_toList]
  let result : Network :=
    { base with states := (read.zipIdx.map fun (s, i) => { s with number := i }).toArray }
  have size : result.states.size = net.states.size := by simp [result, length]
  have stateIs (n : Nat) (inside : n < read.length) :
      result.state n = { read[n] with number := n } := by
    rw [state_of_lt (by rw [size, ← length]; exact inside)]
    simp [result]
  have related (n : Nat) (inside : n < read.length) : (read[n]).kind.code = (net.state n).kind.code ∧
      (read[n]).rule = (net.state n).rule ∧ (read[n]).transitions = [] := by
    have bound : n < net.states.size := by rwa [← length]
    have pair := all.get (i := n) (by rwa [Array.length_toList]) inside
    simpa [state_of_lt bound] using pair
  refine ⟨⟨size, ?_, ?_, ?_⟩, ?_⟩
  · intro n inside
    change (result.state n).number = n
    rw [stateIs n (by rwa [length])]
  · intro n
    change (result.state n).kind.code = _
    rcases Nat.lt_or_ge n net.states.size with inside | outside
    · rw [stateIs n (by rwa [length])]
      exact (related n _).1
    · rw [state_of_le (by rw [size]; exact outside), state_of_le outside]
  · intro n
    change (result.state n).rule = _
    rcases Nat.lt_or_ge n net.states.size with inside | outside
    · rw [stateIs n (by rwa [length])]
      exact (related n _).2.1
    · rw [state_of_le (by rw [size]; exact outside), state_of_le outside]
  · intro n
    change result.out n = []
    rcases Nat.lt_or_ge n net.states.size with inside | outside
    · rw [out, stateIs n (by rwa [length])]
      exact (related n _).2.2
    · exact out_of_le (by rw [size]; exact outside)

/-- Marks on states change neither the states nor their transitions. -/
theorem SameStates.marks (same : SameStates net net') (empty : ∀ n, net'.out n = [])
    (f : State → State) (number : ∀ s, (f s).number = s.number)
    (code : ∀ s, (f s).kind.code = s.kind.code) (rule : ∀ s, (f s).rule = s.rule)
    (transitions : ∀ s, (f s).transitions = s.transitions) (ns : List Nat) :
    SameStates net { net' with states := ns.foldl (fun states n => states.modify n f) net'.states } ∧
      ∀ n, Network.out { net' with
        states := ns.foldl (fun states n => states.modify n f) net'.states } n = [] := by
  induction ns generalizing net' with
  | nil => exact ⟨same, empty⟩
  | cons n ns ih =>
    refine @ih (net'.modifyState n f) (same.modify n f number code rule) fun m => ?_
    rw [modifyState_out_of_keeps _ _ _ transitions, empty]

end Network

namespace Decode

open Network

variable {net : Network}

theorem reads_states {base : Network} {stateWords nonGreedyWords leftRecursiveWords : List Word}
    {nonGreedy leftRecursive : List Nat}
    (valid : ∀ n < net.states.size, (net.state n).kind ≠ .invalid)
    (stateItems : Encode.states net = .ok stateWords)
    (nonGreedyItems : Encode.indices nonGreedy = .ok nonGreedyWords)
    (leftRecursiveItems : Encode.indices leftRecursive = .ok leftRecursiveWords) :
    (states .current base).Reads (stateWords ++ (nonGreedyWords ++ leftRecursiveWords)) fun net' =>
      SameStates net net' ∧ (∀ n, net'.out n = []) ∧ net'.kind = base.kind := by
  obtain ⟨n, count, rest⟩ := except_bind_ok.1 stateItems
  obtain ⟨ws, items, returned⟩ := except_bind_ok.1 rest
  cases returned
  have readStates := reads_list (d := state) (Encode.index_ok count).1 items
    (R := fun s s' => s'.kind.code = s.kind.code ∧ s'.rule = s.rule ∧ s'.transitions = [])
    fun s member part here => by
      obtain ⟨i, bound, rfl⟩ := List.mem_iff_getElem.1 member
      rw [Array.length_toList] at bound
      refine reads_state here ?_
      rw [Array.getElem_toList, ← state_of_lt bound]
      exact valid i bound
  refine readStates.bind fun read all => ?_
  refine (reads_checks _ _ _).bind (w := []) fun _ _ => ?_
  refine (reads_checks _ _ _).bind (w := []) fun _ _ => ?_
  refine (reads_indices nonGreedyItems).bind fun ns _ => ?_
  refine (reads_indices leftRecursiveItems).map fun ms _ => ?_
  obtain ⟨same, empty⟩ := @sameStates_of_read net base _ all
  obtain ⟨same, empty⟩ := same.marks empty ({ · with nonGreedy := true }) (fun _ => rfl)
    (fun _ => rfl) (fun _ => rfl) (fun _ => rfl) ns
  obtain ⟨same, empty⟩ := same.marks empty markLeftRecursive
    (by intro s; unfold markLeftRecursive; split <;> rfl)
    (by intro s; unfold markLeftRecursive; split <;> simp_all [StateKind.code])
    (by intro s; unfold markLeftRecursive; split <;> rfl)
    (by intro s; unfold markLeftRecursive; split <;> rfl) ms
  exact ⟨same, empty, rfl⟩

/-! ## Rules and modes -/

theorem code_ruleStop {k : StateKind} : k.isRuleStop = true ↔ k.code = 7 := by
  cases k with
  | blockStart block link => cases block <;> simp [StateKind.isRuleStop, StateKind.code]
  | _ => simp [StateKind.isRuleStop, StateKind.code]

/-- The states and the tables of rules are those of `net`; the stop states are entered for their
rules. -/
structure SameRules (net net' : Network) : Prop where
  states : SameStates net net'
  kind : net'.kind = net.kind
  ruleStarts : net'.ruleStarts = net.ruleStarts
  ruleTypes : net.isLexer = true → ∀ r < net.numRules, net'.ruleTypes.getD r 0 = net.ruleTypes.getD r 0
  stops : ∀ r stop, net'.ruleStop? r = some stop → (net.state stop).kind.isRuleStop = true

theorem reads_rule {base : Network} {r : Nat} {ws : List Word} (sameKind : base.kind = net.kind)
    (written : Encode.rule net r = .ok ws) :
    (rule .current base).Reads ws fun p => p.1 = net.ruleStart r ∧
      (net.isLexer = true → p.2 = net.ruleTypes.getD r 0) := by
  obtain ⟨start, startWord, rest⟩ := except_bind_ok.1 written
  have sameLexer : base.isLexer = net.isLexer := by rw [isLexer, isLexer, sameKind]
  cases lexer : net.isLexer with
  | true =>
    simp only [lexer, if_true] at rest
    obtain ⟨type, typeWord, returned⟩ := except_bind_ok.1 rest
    cases returned
    refine (reads_index start).bind (v := [type]) fun s sIs => ?_
    refine (reads_check _ _).bind (v := [type]) fun _ _ => ?_
    simp only [sameLexer, lexer, if_true]
    refine (reads_signedWord type).bind (v := []) fun t tIs => ?_
    refine .pure ⟨sIs.trans (Encode.index_ok startWord).1, fun _ => ?_⟩
    rw [tIs, Encode.signedWord_ok typeWord]
  | false =>
    simp only [lexer, Bool.false_eq_true, if_false] at rest
    cases rest
    refine (reads_index start).bind (v := []) fun s sIs => ?_
    refine (reads_check _ _).bind (v := []) fun _ _ => ?_
    simp only [sameLexer, lexer, Bool.false_eq_true, if_false]
    exact .pure ⟨sIs.trans (Encode.index_ok startWord).1, nofun⟩

/-- Entering a stop state into the table keeps the states and their transitions. -/
theorem enterStop_sameRules {n : Nat} {before after : Network}
    (inv : SameRules net before ∧ ∀ n, before.out n = [])
    (run : enterStop before n = .ok after) : SameRules net after ∧ ∀ n, after.out n = [] := by
  obtain ⟨rules, empty⟩ := inv
  unfold enterStop at run
  split at run
  · rename_i isStop
    split at run
    · cases run
    · rename_i r _
      split at run
      · cases run
        have keepsCode (s : State) : (linkStop n s).kind.code = s.kind.code := by
          unfold linkStop
          split <;> simp_all [StateKind.code]
        have keepsNumber (s : State) : (linkStop n s).number = s.number := by
          unfold linkStop
          split <;> rfl
        have keepsRule (s : State) : (linkStop n s).rule = s.rule := by
          unfold linkStop
          split <;> rfl
        have keepsOut (s : State) : (linkStop n s).transitions = s.transitions := by
          unfold linkStop
          split <;> rfl
        have sameStates := rules.states.modify (before.ruleStart r) (linkStop n) keepsNumber keepsCode
          keepsRule
        refine ⟨⟨sameStates.of_states rfl, rules.kind, rules.ruleStarts, rules.ruleTypes, ?_⟩, ?_⟩
        · intro r' stop found
          by_cases here : r' = r ∧ r' < before.ruleStops.size
          · obtain ⟨rfl, bound⟩ := here
            have : stop = n := by
              simp [Network.ruleStop?, bound] at found
              exact found.symm
            rw [this, code_ruleStop, ← rules.states.code, ← code_ruleStop]
            exact isStop
          · refine rules.stops r' stop ?_
            rw [← found, Network.ruleStop?, Network.ruleStop?]
            congr 1
            rw [Array.getElem?_setIfInBounds]
            split
            · rename_i same
              subst same
              simp only [true_and] at here
              rw [if_neg here, Array.getElem?_eq_none (by omega)]
            · rfl
        · intro m
          have kept := modifyState_out_of_keeps before (before.ruleStart r) (linkStop n) keepsOut m
          exact kept.trans (empty m)
      · cases run
  · cases run
    exact ⟨rules, empty⟩

theorem reads_rules {base : Network} {ws : List Word} (sameStates : SameStates net base)
    (empty : ∀ n, base.out n = []) (sameKind : base.kind = net.kind)
    (written : Encode.rules net = .ok ws) :
    (rules .current base).Reads ws fun net' => SameRules net net' ∧ ∀ n, net'.out n = [] := by
  obtain ⟨n, count, rest⟩ := except_bind_ok.1 written
  obtain ⟨items, itemWords, returned⟩ := except_bind_ok.1 rest
  cases returned
  have read := reads_list (d := rule .current base)
    (R := fun r p => p.1 = net.ruleStart r ∧ (net.isLexer = true → p.2 = net.ruleTypes.getD r 0))
    (by rw [(Encode.index_ok count).1, List.length_range]) itemWords
    fun r _ part here => reads_rule sameKind here
  have whole := read.bind (v := []) (Q := fun net' => SameRules net net' ∧ ∀ n, net'.out n = [])
    (f := fun read => do
      let net := { base with
        ruleStarts := (read.map (·.1)).toArray
        ruleStops := Array.replicate read.length none
        ruleTypes := if base.isLexer then (read.map (·.2)).toArray else #[] }
      (List.range net.states.size).foldlM (fun net n => enterStop net n) net) fun read all => by
    refine reads_foldlM _ ?_ fun b x b' inv ran => enterStop_sameRules inv ran
    have length : read.length = net.numRules := by
      rw [← all.length_eq, List.length_range]
    have related (r : Nat) (inside : r < read.length) : (read[r]).1 = net.ruleStart r ∧
        (net.isLexer = true → (read[r]).2 = net.ruleTypes.getD r 0) := by
      have pair := all.get (i := r) (by rwa [List.length_range, ← length]) inside
      simpa using pair
    refine ⟨⟨sameStates.of_states rfl, sameKind, ?_, ?_, ?_⟩, empty⟩
    · refine Array.ext (by simp [length, numRules]) fun r inside bound => ?_
      simp only [List.size_toArray, List.length_map] at inside
      simp [(related r inside).1, ruleStart, Array.getD, bound]
    · intro lexer r inside
      have bound : r < read.length := by rwa [length]
      have sameLexer : base.isLexer = true := by rw [isLexer, sameKind]; exact lexer
      have here := (related r bound).2 lexer
      simp [sameLexer, bound, here]
    · intro r stop found
      exfalso
      revert found
      simp only [Network.ruleStop?, Array.getElem?_replicate]
      split <;> simp
  rw [List.append_nil] at whole
  exact whole

theorem reads_modes {base : Network} {ws : List Word}
    (written : Encode.indices net.modeStarts.toList = .ok ws) :
    (modes base).Reads ws fun net' => net' = { base with modeStarts := net.modeStarts } :=
  (reads_indices written).map fun ns same => by rw [same]

/-! ## Sets -/

theorem reads_symbol {wide : Bool} {v : Int} {ws : List Word}
    (written : Encode.symbol wide v = .ok ws) :
    (if wide then wideSymbol else narrowSymbol).Reads ws fun _ => True := by
  cases wide with
  | true =>
    cases written
    refine (reads_word _).bind (v := [_]) fun low _ => ?_
    exact (reads_word _).map fun high _ => trivial
  | false =>
    obtain ⟨w, -, returned⟩ := except_bind_ok.1 written
    cases returned
    exact (reads_word w).map fun _ _ => trivial

theorem reads_set {wide : Bool} {s : SymbolSet} {ws : List Word}
    (written : Encode.set wide s = .ok ws) :
    (set (if wide then wideSymbol else narrowSymbol)).Reads ws fun _ => True := by
  obtain ⟨count, countWord, rest⟩ := except_bind_ok.1 written
  obtain ⟨ends, endWords, returned⟩ := except_bind_ok.1 rest
  cases returned
  refine (reads_index count).bind (v := _ :: ends) fun n nIs => ?_
  refine (reads_word _).bind (v := ends) fun eof _ => ?_
  rw [nIs, (Encode.index_ok countWord).1]
  refine (reads_times (R := fun _ _ => True) endWords fun r _ part here => ?_).map fun _ _ => trivial
  obtain ⟨low, lowWords, rest⟩ := except_bind_ok.1 here
  obtain ⟨high, highWords, returned⟩ := except_bind_ok.1 rest
  cases returned
  exact (reads_symbol lowWords).bind fun _ _ => (reads_symbol highWords).map fun _ _ => trivial

theorem reads_sets {base : Network} {table : Encode.SetTable} {ws : List Word}
    (written : Encode.sets table = .ok ws) :
    (sets .current base).Reads ws fun net' => ∃ table, net' = { base with sets := table } := by
  obtain ⟨narrowCount, narrowWord, rest⟩ := except_bind_ok.1 written
  obtain ⟨narrow, narrowWords, rest⟩ := except_bind_ok.1 rest
  obtain ⟨wideCount, wideWord, rest⟩ := except_bind_ok.1 rest
  obtain ⟨wide, wideWords, returned⟩ := except_bind_ok.1 rest
  cases returned
  refine (reads_list (R := fun _ _ => True) (Encode.index_ok narrowWord).1 narrowWords
    fun s _ part here => reads_set here).bind fun _ _ => ?_
  exact (reads_list (R := fun _ _ => True) (Encode.index_ok wideWord).1 wideWords
    fun s _ part here => reads_set here).map fun _ _ => ⟨_, rfl⟩

/-! ## Transitions -/

theorem reads_transitions {base : Network} {table : Encode.SetTable} {ws : List Word}
    (written : Encode.transitions net table = .ok ws)
    (small : ∀ e ∈ Encode.writtenTransitions net, ∀ r p follow, e.2.label = .rule r p follow →
      e.2.target < 9223372036854775808 ∧ r < 9223372036854775808) :
    (transitions base).Reads ws fun net' => ∃ edges, net' = base.addEdges edges ∧
      List.Forall₂ (fun e e' : Nat × Transition => e'.1 = e.1 ∧ e'.2.move = e.2.move)
        (Encode.writtenTransitions net) edges := by
  obtain ⟨n, count, rest⟩ := except_bind_ok.1 written
  obtain ⟨items, itemWords, returned⟩ := except_bind_ok.1 rest
  cases returned
  exact (reads_list (Encode.index_ok count).1 itemWords fun e member part here =>
    reads_transition here (small e member)).map fun edges all => ⟨edges, rfl, all⟩

/-- Edges that agree in their sources and moves leave a state by the same moves. -/
theorem edgesFrom_moves {written read : List (Nat × Transition)} (n : Nat)
    (all : List.Forall₂ (fun e e' : Nat × Transition => e'.1 = e.1 ∧ e'.2.move = e.2.move)
      written read) :
    (edgesFrom n read).map Transition.move = (edgesFrom n written).map Transition.move := by
  induction all with
  | nil => rfl
  | cons first rest ih =>
    rename_i e e' written read
    obtain ⟨source, move⟩ := first
    simp only [edgesFrom] at ih ⊢
    by_cases here : e.1 = n
    · simp [here, source, move, ih]
    · simp [here, source, ih]

theorem flatMap_range_single (k n : Nat) (f : Nat → List Transition) :
    (List.range k).flatMap (fun i => if i = n then f i else []) = if n < k then f n else [] := by
  induction k with
  | zero => rfl
  | succ k ih =>
    rw [List.range_succ, List.flatMap_append, ih]
    rcases Nat.lt_trichotomy n k with below | rfl | above
    · simp [below, show k ≠ n by omega, show n < k + 1 by omega]
    · simp
    · simp [show ¬ n < k by omega, show k ≠ n by omega, show ¬ n < k + 1 by omega]

/-- The written transitions of a state that is not the end of a rule are those that leave it. -/
theorem edgesFrom_written (numbered : ∀ n < net.states.size, (net.state n).number = n) (n : Nat) :
    edgesFrom n (Encode.writtenTransitions net) =
      if (net.state n).kind.isRuleStop then [] else net.out n := by
  have states : net.states.toList = (List.range net.states.size).map net.state := by
    refine List.ext_getElem (by simp) fun i bound _ => ?_
    rw [Array.length_toList] at bound
    simp [state_of_lt bound]
  have each : ∀ ks : List Nat, (∀ k ∈ ks, k < net.states.size) →
      edgesFrom n (((ks.map net.state).filter (!·.kind.isRuleStop)).flatMap fun s =>
        s.transitions.map fun t => (s.number, t)) =
      ks.flatMap fun k => if k = n then
        (if (net.state k).kind.isRuleStop then [] else net.out k) else [] := by
    intro ks inside
    induction ks with
    | nil => rfl
    | cons k ks ih =>
      have later := ih fun k' member => inside k' (by simp [member])
      have number := numbered k (inside k (by simp))
      simp only [edgesFrom] at later ⊢
      cases stop : (net.state k).kind.isRuleStop with
      | true => simp [stop, later]
      | false =>
        simp only [List.map_cons, stop, Bool.not_false, List.filter_cons_of_pos, List.flatMap_cons,
          List.filterMap_append, later, number]
        by_cases here : k = n
        · simp [here, out, List.filterMap_map]
        · simp [here, List.filterMap_map]
  rw [Encode.writtenTransitions, states, each _ (by simp), flatMap_range_single]
  split
  · rfl
  · rename_i outside
    rw [out_of_le (Nat.not_lt.1 outside)]
    split <;> rfl

end Decode

/-! ## The whole network -/

namespace Network

/-- What is read back from the words of a network. -/
structure Reread (net net' : Network) : Prop where
  rules : Decode.SameRules net net'
  modeStarts : net'.modeStarts = net.modeStarts
  moves : ∀ n, (net.state n).kind.isRuleStop = false → net'.moves n = net.moves n
  /-- The transitions back from calls, which alone leave the end of a rule, are free. -/
  returns : ∀ n, (net.state n).kind.isRuleStop = true → ∀ move ∈ net'.moves n, ∃ m, move = .free m

namespace Reread

variable {net net' net'' : Network}

/-- Decisions, actions and sets do not matter. -/
theorem of_tables (reread : Reread net net') (states : net''.states = net'.states)
    (kind : net''.kind = net'.kind) (ruleStarts : net''.ruleStarts = net'.ruleStarts)
    (ruleTypes : net''.ruleTypes = net'.ruleTypes) (ruleStops : net''.ruleStops = net'.ruleStops)
    (modeStarts : net''.modeStarts = net'.modeStarts) : Reread net net'' := by
  have rules := reread.rules
  have stateIs (n : Nat) : net''.state n = net'.state n := by rw [state, state, states]
  refine ⟨⟨rules.states.of_states states, kind.trans rules.kind,
    ruleStarts.trans rules.ruleStarts, ?_, ?_⟩, modeStarts.trans reread.modeStarts, ?_, ?_⟩
  · rw [ruleTypes]
    exact rules.ruleTypes
  · intro r stop found
    rw [ruleStop?, ruleStops] at found
    exact rules.stops r stop found
  · intro n inner
    rw [← reread.moves n inner, Network.moves, Network.moves, out, out, stateIs]
  · intro n isStop
    rw [Network.moves, out, stateIs]
    exact reread.returns n isStop

/-- A change of one state that leaves its number, the code of its kind, its rule and its
transitions. -/
theorem modifyAt (reread : Reread net net') (m : Nat) (f : State → State)
    (number : (f (net'.state m)).number = (net'.state m).number)
    (code : (f (net'.state m)).kind.code = (net'.state m).kind.code)
    (rule : (f (net'.state m)).rule = (net'.state m).rule)
    (transitions : (f (net'.state m)).transitions = (net'.state m).transitions) :
    Reread net (net'.modifyState m f) := by
  have rules := reread.rules
  refine ⟨⟨rules.states.modifyAt m f number code rule, rules.kind, rules.ruleStarts,
    rules.ruleTypes, rules.stops⟩, reread.modeStarts, fun n inner => ?_, fun n isStop => ?_⟩
  · rw [← reread.moves n inner, Network.moves, Network.moves, out, out,
      net'.modifyState_keeps_at m f (·.transitions) transitions]
  · rw [Network.moves, out, net'.modifyState_keeps_at m f (·.transitions) transitions]
    exact reread.returns n isStop

theorem mapStates (reread : Reread net net') (f : State → State)
    (number : ∀ s, (f s).number = s.number) (code : ∀ s, (f s).kind.code = s.kind.code)
    (rule : ∀ s, (f s).rule = s.rule) (transitions : ∀ s, (f s).transitions = s.transitions) :
    Reread net { net' with states := net'.states.map f } := by
  have rules := reread.rules
  refine ⟨⟨rules.states.mapStates f number code rule, rules.kind, rules.ruleStarts,
    rules.ruleTypes, rules.stops⟩, reread.modeStarts, fun n inner => ?_, fun n isStop => ?_⟩
  · rw [← reread.moves n inner, Network.moves, Network.moves, out, out,
      net'.mapStates_keeps f (·.transitions) transitions]
  · rw [Network.moves, out, net'.mapStates_keeps f (·.transitions) transitions]
    exact reread.returns n isStop

/-- The transitions back from calls leave stop states only. -/
theorem addReturns (reread : Reread net net') : Reread net (Decode.addReturns net') := by
  have rules := reread.rules
  let edges := net'.states.toList.flatMap fun s => s.transitions.filterMap (Decode.returnEdge? net')
  have result : Decode.addReturns net' = net'.addEdges edges := rfl
  have fromStops : ∀ e ∈ edges, (net.state e.1).kind.isRuleStop = true ∧
      ∃ m, e.2.move = .free m := by
    intro e member
    obtain ⟨s, -, inside⟩ := List.mem_flatMap.1 member
    obtain ⟨t, -, edge⟩ := List.mem_filterMap.1 inside
    unfold Decode.returnEdge? at edge
    split at edge
    · rename_i r p follow _
      obtain ⟨stop, found, rfl⟩ := Option.map_eq_some_iff.1 edge
      exact ⟨rules.stops r stop found, follow, rfl⟩
    · cases edge
  rw [result]
  have tables := net'.addEdges_eq edges
  refine ⟨⟨rules.states.addEdges edges, ?_, ?_, ?_, ?_⟩, ?_, ?_, ?_⟩
  · rw [tables]
    exact rules.kind
  · rw [tables]
    exact rules.ruleStarts
  · rw [tables]
    exact rules.ruleTypes
  · intro r stop found
    rw [tables] at found
    exact rules.stops r stop found
  · rw [tables]
    exact reread.modeStarts
  · intro n inner
    rw [← reread.moves n inner, Network.moves, Network.moves, out, addEdges_state_of_no_edge, out]
    rintro e member rfl
    rw [(fromStops e member).1] at inner
    cases inner
  · intro n isStop move member
    rcases Nat.lt_or_ge n net'.states.size with inside | outside
    · rw [Network.moves, addEdges_out _ _ inside, List.map_append, List.mem_append] at member
      rcases member with old | new
      · exact reread.returns n isStop move old
      · obtain ⟨t, among, rfl⟩ := List.mem_map.1 new
        obtain ⟨e, edge, here⟩ := List.mem_filterMap.1 among
        split at here
        · cases here
          exact (fromStops e edge).2
        · cases here
    · rw [Network.moves, out_of_le (by rw [addEdges_size]; exact outside)] at member
      cases member

theorem linkBlock (reread : Reread net net') {n : Nat} (run : Decode.linkBlock net' n = .ok net'') :
    Reread net net'' := by
  unfold Decode.linkBlock at run
  split at run
  · rename_i block stop here
    split at run
    · rename_i isEnd
      cases run
      exact reread.modifyAt stop _ rfl (by rw [isEnd]; rfl) rfl rfl
    · cases run
    · cases run
  · cases run
    have step : ∀ (ts : List Transition) (net' : Network), Reread net net' →
        Reread net (ts.foldl (fun net t => net.modifyState t.target (Decode.linkLoopEntry n)) net') := by
      intro ts
      induction ts with
      | nil => exact fun _ reread => reread
      | cons t ts ih =>
        intro net' reread
        refine ih _ (reread.modifyAt t.target _ ?_ ?_ ?_ ?_)
        all_goals
          unfold Decode.linkLoopEntry
          split <;> simp_all [StateKind.code]
    exact step _ _ reread
  · cases run
    exact reread

theorem defineDecision (reread : Reread net net') (n : Nat) :
    Reread net (net'.defineDecision n).2 :=
  (reread.modifyAt n (fun s => { s with decision := some net'.decisions.size }) rfl rfl rfl
    rfl).of_tables rfl rfl rfl rfl rfl rfl

theorem defineDecisions (reread : Reread net net') (ns : List Nat) :
    Reread net (ns.foldl (fun net n => (net.defineDecision n).2) net') := by
  induction ns generalizing net' with
  | nil => exact reread
  | cons n ns ih => exact ih (reread.defineDecision n)

theorem mark (reread : Reread net net') : Reread net (Decode.mark net') := by
  have refreshed := reread.mapStates State.refresh (fun _ => rfl) (fun _ => rfl) (fun _ => rfl)
    fun _ => rfl
  refine refreshed.mapStates (Decode.markPrecedence _) ?_ ?_ ?_ ?_
  all_goals
    intro s
    unfold Decode.markPrecedence
    split
    · rename_i back flag here
      split
      · simp [here, StateKind.code]
      · rfl
    · rfl

end Reread

/-- The transitions of a network name calls by small numbers, and its states have their places as
numbers. -/
structure Writable (net : Network) : Prop where
  valid : ∀ n < net.states.size, (net.state n).kind ≠ .invalid
  number : ∀ n < net.states.size, (net.state n).number = n
  small : ∀ n, ∀ t ∈ net.out n, ∀ r p follow, t.label = .rule r p follow →
    t.target < 9223372036854775808 ∧ r < 9223372036854775808

theorem mark_epsilonOnly (net : Network) {n : Nat} (inside : n < net.states.size) :
    ((Decode.mark net).state n).epsilonOnly =
      (!((Decode.mark net).out n).isEmpty && ((Decode.mark net).out n).all (·.label.isEpsilon)) := by
  let refreshed : Network := { net with states := net.states.map State.refresh }
  have marked : (Decode.mark net).state n = Decode.markPrecedence refreshed (net.state n).refresh := by
    have bound : n < refreshed.states.size := by simpa [refreshed] using inside
    have := refreshed.mapStates_state (Decode.markPrecedence refreshed) n
    rw [if_pos bound, net.mapStates_state, if_pos inside] at this
    exact this
  have keeps : ∀ s : State, (Decode.markPrecedence refreshed s).epsilonOnly = s.epsilonOnly ∧
      (Decode.markPrecedence refreshed s).transitions = s.transitions := by
    intro s
    unfold Decode.markPrecedence
    split
    · split <;> exact ⟨rfl, rfl⟩
    · exact ⟨rfl, rfl⟩
  rw [out, marked, (keeps _).1, (keeps _).2]
  rfl

end Network

namespace Decode

open Network

theorem reads_action {a : LexerAction} {ws : List Word} (written : Encode.action a = .ok ws) :
    action.Reads ws fun _ => True := by
  obtain ⟨code, -, -, x', y', -, -, -, rfl⟩ := Encode.action_words written
  refine (reads_word code).bind (v := [x', y']) fun c _ => ?_
  refine (reads_signedWord x').bind (v := [y']) fun v _ => ?_
  refine (reads_signedWord y').bind (v := []) fun w _ => ?_
  cases LexerAction.decode c v w with
  | ok a => exact .pure trivial
  | error cause => exact reads_refuse cause

theorem reads_actions {net base : Network} {ws : List Word} (reread : Reread net base)
    (written : Encode.actions net = .ok ws) : (actions .current base).Reads ws (Reread net) := by
  have sameLexer : base.isLexer = net.isLexer := by rw [isLexer, isLexer, reread.rules.kind]
  unfold Encode.actions at written
  unfold actions
  cases lexer : net.isLexer with
  | false =>
    simp only [lexer, Bool.false_eq_true, if_false] at written
    cases written
    simp only [sameLexer, lexer, Bool.not_false, if_true]
    exact .pure reread
  | true =>
    simp only [lexer, if_true] at written
    obtain ⟨n, count, rest⟩ := except_bind_ok.1 written
    obtain ⟨items, itemWords, returned⟩ := except_bind_ok.1 rest
    cases returned
    simp only [sameLexer, lexer, Bool.not_true, Bool.false_eq_true, if_false, Format.current,
      Format.hasLexerActions, if_true]
    have table := reads_list (R := fun _ _ => True) (Encode.index_ok count).1 itemWords
      fun a _ part here => reads_action here
    have whole := table.bind (v := []) (Q := Reread net) (f := fun read => do
        let net ← pure { base with actions := read.toArray }
        net.actions.toList.forM fun a => check (!leadsAstray net a) (.actionMode a)
        pure net) fun read _ =>
      (Reads.pure (P := (· = { base with actions := read.toArray })) rfl).bind (v := [])
        fun changed changedIs => (reads_checks _ _ _).bind (v := []) fun _ _ => .pure (by
          rw [changedIs]
          exact reread.of_tables rfl rfl rfl rfl rfl rfl)
    rw [List.append_nil] at whole
    exact whole

theorem reads_decisions {net base : Network} {ds : List Nat} {ws : List Word}
    (reread : Reread net base) (written : Encode.indices ds = .ok ws) :
    (decisions base).Reads ws (Reread net) :=
  (reads_indices written).map fun ns _ => reread.defineDecisions ns

/-- The networks agree up to the transitions; adding the written ones makes them agree in the moves. -/
theorem reread_of_edges {net base : Network} {edges : List (Nat × Transition)}
    (numbered : ∀ n < net.states.size, (net.state n).number = n) (rules : SameRules net base)
    (empty : ∀ n, base.out n = []) (modeStarts : base.modeStarts = net.modeStarts)
    (all : List.Forall₂ (fun e e' : Nat × Transition => e'.1 = e.1 ∧ e'.2.move = e.2.move)
      (Encode.writtenTransitions net) edges) : Reread net (base.addEdges edges) := by
  have tables := base.addEdges_eq edges
  have movesOf {n : Nat} (inside : n < net.states.size) : (base.addEdges edges).moves n =
      (if (net.state n).kind.isRuleStop then [] else net.out n).map Transition.move := by
    rw [moves, addEdges_out _ _ (by rw [rules.states.size]; exact inside), empty, List.nil_append,
      edgesFrom_moves n all, edgesFrom_written numbered]
  refine ⟨⟨rules.states.addEdges edges, ?_, ?_, ?_, ?_⟩, ?_, ?_, ?_⟩
  · rw [tables]
    exact rules.kind
  · rw [tables]
    exact rules.ruleStarts
  · rw [tables]
    exact rules.ruleTypes
  · intro r stop found
    rw [tables] at found
    exact rules.stops r stop found
  · rw [tables]
    exact modeStarts
  · intro n inner
    rcases Nat.lt_or_ge n net.states.size with inside | outside
    · rw [movesOf inside, inner]
      rfl
    · rw [moves, moves, out_of_le (by rw [addEdges_size, rules.states.size]; exact outside),
        out_of_le outside]
  · intro n isStop move member
    rcases Nat.lt_or_ge n net.states.size with inside | outside
    · rw [movesOf inside, isStop] at member
      cases member
    · rw [moves, out_of_le (by rw [addEdges_size, rules.states.size]; exact outside)] at member
      cases member

theorem mem_writtenTransitions {net : Network} {e : Nat × Transition}
    (member : e ∈ Encode.writtenTransitions net) : ∃ n, e.2 ∈ net.out n := by
  obtain ⟨s, among, inside⟩ := List.mem_flatMap.1 member
  obtain ⟨t, here, rfl⟩ := List.mem_map.1 inside
  obtain ⟨n, bound, rfl⟩ := List.mem_iff_getElem.1 (List.mem_filter.1 among).1
  rw [Array.length_toList] at bound
  refine ⟨n, ?_⟩
  rw [out, state_of_lt bound]
  simpa using here

/-- The whole reader, on the words of a network. -/
theorem reads_network {net : Network} {words : List Word} (writable : net.Writable)
    (encoded : net.encode = .ok words) : network.Reads words fun net' => net.Reread net' ∧
      ∀ n < net.states.size, (net'.state n).epsilonOnly =
        (!(net'.out n).isEmpty && (net'.out n).all (·.label.isEpsilon)) := by
  obtain ⟨-, stateItems, nonGreedyItems, precedenceItems, ruleItems, modeItems, setItems, edgeItems,
    decisionItems, actionItems, rfl⟩ := Encode.sections_of_encode encoded
  refine reads_format.bind fun f fIs => ?_
  subst fIs
  refine (reads_grammar net.kind _).bind fun headed head => ?_
  refine (reads_states writable.valid stateItems nonGreedyItems precedenceItems).bind
    fun stated ⟨sameStates, empty, sameKind⟩ => ?_
  refine (reads_rules sameStates empty (sameKind.trans head.1) ruleItems).bind
    fun ruled ⟨sameRules, empty⟩ => ?_
  refine (reads_modes modeItems).bind fun moded modedIs => ?_
  refine (reads_sets setItems).bind fun withSets ⟨sets, setsIs⟩ => ?_
  refine (reads_transitions edgeItems ?_).bind fun connected ⟨edges, edgesIs, all⟩ => ?_
  · intro e member
    obtain ⟨n, here⟩ := mem_writtenTransitions member
    exact writable.small n e.2 here
  have reread : net.Reread connected := by
    rw [edgesIs, setsIs, modedIs]
    exact reread_of_edges writable.number
      ⟨sameRules.states.of_states rfl, sameRules.kind, sameRules.ruleStarts, sameRules.ruleTypes,
        sameRules.stops⟩ empty rfl all
  refine reads_lift.bind (w := []) fun linked linkRun => ?_
  have relinked : net.Reread linked :=
    foldlM_preserves _ reread.addReturns (fun b n b' inv ran => inv.linkBlock ran) linkRun
  refine (reads_decisions relinked decisionItems).bind fun decided redecided => ?_
  refine (reads_actions redecided actionItems).map fun acted reacted => ⟨reacted.mark, ?_⟩
  intro n inside
  exact mark_epsilonOnly acted (by rw [reacted.rules.states.size]; exact inside)

end Decode

/-- What is read from the words of a network is that network again. -/
theorem Network.decode_encode {net net' : Network} {words : List Word} {verify : Bool}
    (writable : net.Writable) (encoded : net.encode = .ok words)
    (decoded : decode words verify = .ok net') : net.Reread net' ∧
      ∀ n < net.states.size, (net'.state n).epsilonOnly =
        (!(net'.out n).isEmpty && (net'.out n).all (·.label.isEpsilon)) := by
  obtain ⟨⟨result, cursor⟩, run, rest⟩ := except_bind_ok.1 decoded
  have isResult : result = net' := by
    simp only at rest
    split at rest
    · cases rest
    · split at rest
      · split at rest
        · cases rest
        · cases rest
          rfl
      · cases rest
        rfl
  have reads := Decode.reads_network writable encoded [] 0 result cursor
  rw [List.append_nil, isResult] at reads
  rw [isResult] at run
  exact (reads run).1

end AdaptiveLL
