import AdaptiveLL.Proofs.Network.Bounded
import AdaptiveLL.Proofs.Network.Closed

/-!
# Which networks can be written

Not every network that was read can be written. The reader takes the greatest word for "none" only where something
may be absent, and for a number everywhere else: as a count, as the operand of a transition, as a symbol. The writer
refuses it as a number. So it refuses a network in which one of these numbers is 0xFFFF, and besides a transition
with an absent action, and sets of symbols below the end of the input that do not go beyond 16 bits.

Whatever else is written of a network that was read can be written (`Worded`): the numbers of states, of rules and of
token types, links, targets, and the operands of the actions that were read from a table. So the networks that can be
written are those without these numbers (`encode_iff_unreserved`).
-/

set_option autoImplicit false

namespace AdaptiveLL

namespace Encode

/-! ## When writing succeeds -/

variable {α β γ : Type}

/-- The step gives words. -/
def Succeeds (x : Except EncodeError α) : Prop := ∃ a, x = .ok a

theorem succeeds_ok (a : α) : Succeeds (.ok a) := ⟨a, rfl⟩

theorem succeeds_bind {x : Except EncodeError α} {f : α → Except EncodeError β} {later : Prop}
    (next : ∀ a, x = .ok a → (Succeeds (f a) ↔ later)) : Succeeds (x >>= f) ↔ Succeeds x ∧ later := by
  constructor
  · rintro ⟨b, run⟩
    obtain ⟨a, first, rest⟩ := except_bind_ok.1 run
    exact ⟨⟨a, first⟩, (next a first).1 ⟨b, rest⟩⟩
  · rintro ⟨⟨a, first⟩, holds⟩
    obtain ⟨b, rest⟩ := (next a first).2 holds
    exact ⟨b, except_bind_ok.2 ⟨a, first, rest⟩⟩

/-- What follows the step cannot fail. -/
theorem succeeds_last {x : Except EncodeError α} {f : α → Except EncodeError β} (last : ∀ a, Succeeds (f a)) :
    Succeeds (x >>= f) ↔ Succeeds x :=
  (succeeds_bind fun a _ => iff_true_intro (last a)).trans (and_true _).to_iff

theorem succeeds_mapM {f : γ → Except EncodeError α} {xs : List γ} :
    Succeeds (xs.mapM f) ↔ ∀ x ∈ xs, Succeeds (f x) := by
  induction xs with
  | nil => exact iff_of_true (succeeds_ok []) nofun
  | cons x xs ih =>
    rw [List.mapM_cons, List.forall_mem_cons, ← ih]
    exact succeeds_bind fun a _ => succeeds_last fun as => succeeds_ok _

theorem succeeds_concat {f : γ → Except EncodeError (List Word)} {xs : List γ} :
    Succeeds (concat f xs) ↔ ∀ x ∈ xs, Succeeds (f x) :=
  (succeeds_last fun _ => succeeds_ok _).trans succeeds_mapM

/-! ## Numbers -/

theorem succeeds_word {v : Int} : Succeeds (word v) ↔ 0 ≤ v ∧ v < 0xFFFF := by
  unfold word
  split
  · rename_i fits
    exact iff_of_true (succeeds_ok _) fits
  · rename_i refused
    exact iff_of_false nofun refused

theorem succeeds_signed {n : Nat} (small : n < 65536) : Succeeds (word (signed64 n)) ↔ n < 0xFFFF := by
  rw [signed64_of_lt (by omega), succeeds_word]
  omega

theorem succeeds_index {n : Nat} : Succeeds (index n) ↔ n < 0xFFFF := by
  constructor
  · rintro ⟨w, written⟩
    exact (index_ok written).2
  · intro small
    rw [index, if_pos (by omega)]
    exact (succeeds_signed (by omega)).2 small

theorem succeeds_signedWord {v : Int} : Succeeds (signedWord v) ↔ -1 ≤ v ∧ v < 0xFFFF := by
  unfold signedWord
  split
  · rename_i minus
    exact iff_of_true (succeeds_ok _) (by omega)
  · rw [succeeds_word]
    omega

theorem succeeds_optional {n : Option Nat} : Succeeds (optional n) ↔ ∀ m, n = some m → m < 0xFFFF := by
  cases n with
  | none => exact iff_of_true (succeeds_ok _) nofun
  | some n =>
    rw [show optional (some n) = index n from rfl, succeeds_index]
    simp

theorem succeeds_indices {ns : List Nat} :
    Succeeds (indices ns) ↔ ns.length < 0xFFFF ∧ ∀ n ∈ ns, n < 0xFFFF := by
  refine (succeeds_bind fun count _ => succeeds_last fun items => succeeds_ok _).trans ?_
  rw [succeeds_index, succeeds_mapM]
  exact and_congr_right' (forall₂_congr fun n _ => succeeds_index)

/-- A list behind its length. -/
theorem succeeds_counted {f : γ → Except EncodeError (List Word)} {xs : List γ} {n : Nat} :
    Succeeds (do return (← index n) :: (← concat f xs)) ↔ n < 0xFFFF ∧ ∀ x ∈ xs, Succeeds (f x) := by
  rw [← succeeds_concat, ← succeeds_index]
  exact succeeds_bind fun count _ => succeeds_last fun items => succeeds_ok _

end Encode

/-! ## Sets -/

/-- A set that can be written: it has few intervals, and its symbols fit in a word each, or it is wide. -/
structure SymbolSet.Unreserved (s : SymbolSet) : Prop where
  few : (Encode.writtenIntervals s).length < 0xFFFF
  symbol : Encode.isWide s = false → ∀ v, s.contains v = true → -1 ≤ v ∧ v < 0xFFFF

namespace Encode

variable {s : SymbolSet}

/-- Only the interval of the end of the input alone is not written, and it stands first if no symbol is below it. -/
theorem not_mem_writtenIntervals (canonical : s.Canonical) (low : ∀ v, s.contains v = true → -1 ≤ v) :
    (endOfInput, endOfInput) ∉ writtenIntervals s := by
  intro member
  obtain ⟨least, ascends⟩ := canonical
  unfold writtenIntervals at member
  split at member
  · rename_i a b rest same
    rw [same] at ascends
    cases ascends with
    | cons above inhabited later =>
      have first := low a (SymbolSet.contains_iff.2 ⟨(a, b), by simp [same], Int.le_refl _, inhabited⟩)
      have behind : (endOfInput, endOfInput) ∉ rest := fun there => by
        have := later.le ⟨_, there, Int.le_refl _, Int.le_refl _⟩
        have : endOfInput = -1 := rfl
        omega
      split at member
      · exact behind member
      · rename_i other
        rcases List.mem_cons.1 member with same' | there
        · cases same'
          exact other ⟨rfl, rfl⟩
        · exact behind there
  · cases member

/-- The ends of an interval of a narrow set have to be words, but that the end of the input may begin it. -/
theorem succeeds_narrowInterval {lo hi : Int} : Succeeds (do
      let lo ← symbol false (if lo = endOfInput then 0 else lo)
      return lo ++ (← symbol false hi)) ↔ (lo = endOfInput ∨ 0 ≤ lo ∧ lo < 0xFFFF) ∧ 0 ≤ hi ∧ hi < 0xFFFF := by
  have single (v : Int) : Succeeds (symbol false v) ↔ 0 ≤ v ∧ v < 0xFFFF :=
    (succeeds_last fun _ => succeeds_ok _).trans succeeds_word
  refine (succeeds_bind fun low _ => succeeds_last fun high => succeeds_ok _).trans ?_
  rw [single, single]
  split <;> omega

theorem succeeds_set (canonical : s.Canonical) : Succeeds (set (isWide s) s) ↔ s.Unreserved := by
  have eof : endOfInput = -1 := rfl
  have parts : s.Unreserved ↔ (writtenIntervals s).length < 0xFFFF ∧
      (isWide s = false → ∀ v, s.contains v = true → -1 ≤ v ∧ v < 0xFFFF) :=
    ⟨fun ⟨few, symbol⟩ => ⟨few, symbol⟩, fun ⟨few, symbol⟩ => ⟨few, symbol⟩⟩
  unfold set
  refine (succeeds_bind fun count _ => succeeds_last fun ends => succeeds_ok _).trans ?_
  rw [parts, succeeds_index, succeeds_concat]
  apply and_congr_right'
  cases isWide s with
  | true => exact iff_of_true (fun r _ => succeeds_ok _) nofun
  | false =>
    simp only [succeeds_narrowInterval, forall_const]
    constructor
    · intro written v member
      obtain ⟨r, among, above, below⟩ := SymbolSet.contains_iff.1 member
      by_cases isEof : r = (endOfInput, endOfInput)
      · subst isEof
        omega
      · have := written r (Decode.writtenIntervals_of_mem among isEof)
        omega
    · intro inside r among
      obtain ⟨first, last⟩ := canonical.ends_mem (Decode.mem_of_writtenIntervals among)
      have inhabited := canonical.choose_spec.inhabited r (Decode.mem_of_writtenIntervals among)
      have low := inside r.1 first
      have high := inside r.2 last
      have other : ¬ (r.1 = endOfInput ∧ r.2 = endOfInput) := fun ⟨left, right⟩ =>
        not_mem_writtenIntervals canonical (fun v member => (inside v member).1) <| by
          rwa [show (endOfInput, endOfInput) = r from Prod.ext left.symm right.symm]
      omega

end Encode

/-! ## Transitions -/

/-- The numbers of a label come from words, apart from the place of an action. -/
def Label.Worded : Label → Prop
  | .atom v => -1 ≤ v
  | .range lo hi => -1 ≤ lo ∧ 0 ≤ hi
  | .rule r p follow => r < 0xFFFF ∧ 0 ≤ p ∧ follow < 0xFFFF
  | .predicate r p _ => r < 65536 ∧ p < 65536
  | .action r _ _ => r < 65536
  | .precedence p => 0 ≤ p
  | _ => True

/-- The label names no number beyond the words, and no absent action. -/
def Label.Unreserved : Label → Prop
  | .atom v => v < 0xFFFF
  | .range lo hi => lo < 0xFFFF ∧ hi < 0xFFFF
  | .rule _ p _ => p < 0xFFFF
  | .predicate r p _ => r < 0xFFFF ∧ p < 0xFFFF
  | .action r i _ => r < 0xFFFF ∧ i ≠ none
  | .precedence p => p < 0xFFFF
  | _ => True

namespace Encode

variable {table : SetTable} {source : Nat} {tr : Transition}

theorem succeeds_operands {target : Nat} {a b c : Int} {later : Prop} (run : operands table tr = .ok (target, a, b, c))
    (source_lt : source < 0xFFFF) (target_lt : target < 0xFFFF)
    (words : Succeeds (word a) ∧ Succeeds (word b) ∧ Succeeds (word c) ↔ later) :
    Succeeds (transition table source tr) ↔ later := by
  rw [← words]
  unfold transition
  rw [run]
  refine (succeeds_bind fun source' _ => succeeds_bind fun target' _ => succeeds_bind fun a' _ =>
    succeeds_bind fun b' _ => succeeds_last fun c' => succeeds_ok _).trans ?_
  rw [succeeds_index, succeeds_index]
  simp only [source_lt, target_lt, true_and]

/-- A transition is refused for the numbers and the absent action that its label names. -/
theorem succeeds_transition (source_lt : source < 0xFFFF) (target_lt : tr.target < 0xFFFF) (worded : tr.label.Worded)
    (placed : ∀ r place ctx, tr.label = .action r (some place) ctx → place < 0xFFFF)
    (listed : ∀ s, SetTable.referred? tr.label = some s → ∃ i < 0xFFFF, table.indexOf s = .ok i) :
    Succeeds (transition table source tr) ↔ tr.label.Unreserved := by
  have eof : endOfInput = -1 := rfl
  have zero : Succeeds (word 0) := succeeds_word.2 (by decide)
  have flag (b : Bool) : Succeeds (word (if b then 1 else 0)) := by
    cases b
    · exact zero
    · exact succeeds_word.2 (by decide)
  obtain ⟨target, label⟩ := tr
  replace target_lt : target < 0xFFFF := target_lt
  cases label with
  | epsilon _ | wildcard =>
    exact succeeds_operands rfl source_lt target_lt (iff_of_true ⟨zero, zero, zero⟩ trivial)
  | set s | notSet s =>
    obtain ⟨i, small, found⟩ := listed s rfl
    have index : Succeeds (word (i : Int)) := succeeds_word.2 (by omega)
    exact succeeds_operands (operands_set rfl found) source_lt target_lt (iff_of_true ⟨index, zero, zero⟩ trivial)
  | atom v =>
    by_cases isEof : v = endOfInput
    · have run : operands table ⟨target, .atom v⟩ = .ok (target, 0, 0, 1) := by
        simp only [operands, if_pos isEof]
      refine succeeds_operands run source_lt target_lt (iff_of_true ⟨zero, zero, flag true⟩ ?_)
      exact show v < 0xFFFF by omega
    · have run : operands table ⟨target, .atom v⟩ = .ok (target, v, 0, 0) := by
        simp only [operands, if_neg isEof]
      refine succeeds_operands run source_lt target_lt ?_
      have low : -1 ≤ v := worded
      simp only [zero, and_true, succeeds_word, Label.Unreserved]
      omega
  | range lo hi =>
    obtain ⟨low, high⟩ := worded
    by_cases isEof : lo = endOfInput
    · have run : operands table ⟨target, .range lo hi⟩ = .ok (target, 0, hi, 1) := by
        simp only [operands, if_pos isEof]
      refine succeeds_operands run source_lt target_lt ?_
      have one : Succeeds (word 1) := flag true
      simp only [zero, one, and_true, true_and, succeeds_word, Label.Unreserved]
      omega
    · have run : operands table ⟨target, .range lo hi⟩ = .ok (target, lo, hi, 0) := by
        simp only [operands, if_neg isEof]
      refine succeeds_operands run source_lt target_lt ?_
      simp only [zero, and_true, succeeds_word, Label.Unreserved]
      omega
  | rule r p follow =>
    obtain ⟨known, low, follow_lt⟩ := worded
    refine succeeds_operands rfl source_lt follow_lt ?_
    simp only [succeeds_signed (show target < 65536 by omega), succeeds_signed (show r < 65536 by omega),
      succeeds_word, Label.Unreserved]
    omega
  | predicate r p ctx =>
    obtain ⟨rule_lt, pred_lt⟩ := worded
    refine succeeds_operands rfl source_lt target_lt ?_
    simp only [succeeds_signed rule_lt, succeeds_signed pred_lt, flag, and_true, Label.Unreserved]
  | action r i ctx =>
    have rule_lt : r < 65536 := worded
    cases i with
    | none =>
      have absent : ¬ Succeeds (word 0xFFFF) := fun written => absurd (succeeds_word.1 written).2 (by decide)
      refine succeeds_operands rfl source_lt target_lt ?_
      exact iff_of_false (fun words => absent words.2.1) fun named => named.2 rfl
    | some place =>
      have small := placed r place ctx rfl
      -- The place is written through an option, which is not evaluated at numbers of 64 bits.
      have value (f : Int → Int) : ((do let n ← some place; pure (n : Int)).map f).getD 0xFFFF = f place := rfl
      have wordB : Succeeds (word (signed64 place)) := (succeeds_signed (by omega)).2 small
      rw [← value fun i => signed64 i] at wordB
      refine succeeds_operands rfl source_lt target_lt ?_
      simp only [succeeds_signed rule_lt, wordB, flag, and_true, Label.Unreserved, ne_eq, reduceCtorEq,
        not_false_eq_true]
  | precedence p =>
    have low : 0 ≤ p := worded
    refine succeeds_operands rfl source_lt target_lt ?_
    simp only [zero, and_true, succeeds_word, Label.Unreserved]
    omega

end Encode

/-! ## Actions -/

/-- The operands of an action come from words. -/
def LexerAction.Worded : LexerAction → Prop
  | .custom r i => r < 65536 ∧ i < 0xFFFF
  | .mode m | .pushMode m => m < 0xFFFF
  | .channel v | .type v => -1 ≤ v ∧ v < 0xFFFF
  | .indexed _ _ => False
  | _ => True

/-- An action of words is refused for the rule of a custom action. -/
theorem Encode.succeeds_action {a : LexerAction} (worded : a.Worded) :
    Succeeds (action a) ↔ ∀ r i, a = .custom r i → r < 0xFFFF := by
  have words {w : Word} {x y : Int} (encoded : a.encode = .ok (w, x, y)) :
      Succeeds (action a) ↔ (-1 ≤ x ∧ x < 0xFFFF) ∧ -1 ≤ y ∧ y < 0xFFFF := by
    unfold action
    rw [encoded, ← succeeds_signedWord, ← succeeds_signedWord]
    exact succeeds_bind fun _ _ => succeeds_last fun _ => succeeds_ok _
  have index {n : Nat} (small : n < 65536) : signed32 n = n := by
    unfold signed32
    exact Int.bmod_eq_of_le (by omega) (by omega)
  cases a with
  | custom r i =>
    obtain ⟨rule_lt, index_lt⟩ := worded
    rw [words rfl, index rule_lt, index (show i < 65536 by omega)]
    constructor
    · rintro ⟨⟨-, small⟩, -⟩ _ _ ⟨⟩
      omega
    · intro small
      have := small r i rfl
      omega
  | mode m | pushMode m =>
    have small : m < 0xFFFF := worded
    rw [words rfl, index (show m < 65536 by omega)]
    exact iff_of_true (by omega) nofun
  | channel v | type v =>
    obtain ⟨low, high⟩ := worded
    rw [words rfl]
    exact iff_of_true (by omega) nofun
  | indexed offset a => exact worded.elim
  | more | popMode | skip =>
    rw [words rfl]
    exact iff_of_true (by decide) nofun

/-! ## Networks -/

/-- The rule of a state comes from a word, and so does the link that its kind calls for. -/
structure State.Worded (s : State) : Prop where
  owner : ∀ r, s.rule = some r → r < 0xFFFF
  loopEnd : s.kind ≠ .loopEnd none
  blockStart : ∀ block, s.kind ≠ .blockStart block none

namespace Network

/-- The place of an action was read from a word, or it is one of the table. -/
def Placed (net : Network) (t : Transition) : Prop :=
  ∀ r place ctx, t.label = .action r (some place) ctx →
    place < 0xFFFF ∨ net.isLexer = true ∧ place < net.actions.size

/-- What is known of a network that was read. -/
structure Worded (net : Network) : Prop extends net.Grounded where
  fewStates : net.states.size ≤ 0xFFFF
  fewSets : net.referredSets.length ≤ 0xFFFF
  maxTokenType : 0 ≤ net.maxTokenType
  state : ∀ n, (net.state n).Worded
  tokenType : ∀ type ∈ net.ruleTypes.toList, -1 ≤ type ∧ type < 0xFFFF
  target : ∀ n, ∀ t ∈ net.out n, t.target < net.states.size
  label : ∀ n, ∀ t ∈ net.out n, t.label.Worded
  placed : ∀ n, ∀ t ∈ net.out n, net.Placed t
  canonical : ∀ s ∈ net.referredSets, s.Canonical
  decision : ∀ n ∈ net.decisions.toList, n < net.states.size
  action : ∀ a ∈ net.actions.toList, a.Worded

/-- No count of the network, no number that is written of it and no symbol of a narrow set goes beyond the words,
and no action is absent. -/
structure Unreserved (net : Network) : Prop where
  maxTokenType : net.maxTokenType < 0xFFFF
  fewStates : net.states.size < 0xFFFF
  fewRules : net.numRules < 0xFFFF
  fewModes : net.modeStarts.size < 0xFFFF
  fewNarrow : (Encode.SetTable.collect net).narrow.length < 0xFFFF
  fewWide : (Encode.SetTable.collect net).wide.length < 0xFFFF
  set : ∀ s ∈ net.referredSets, s.Unreserved
  fewEdges : (Encode.writtenTransitions net).length < 0xFFFF
  label : ∀ n, (net.state n).kind.isRuleStop = false → ∀ t ∈ net.out n, t.label.Unreserved
  fewDecisions : net.decisions.size < 0xFFFF
  fewActions : net.isLexer = true → net.actions.size < 0xFFFF
  action : net.isLexer = true → ∀ r i, LexerAction.custom r i ∈ net.actions → r < 0xFFFF

namespace Worded

open Encode

variable {net : Network}

theorem succeeds_state (worded : net.Worded) (n : Nat) : Succeeds (Encode.state (net.state n)) := by
  have few := worded.fewStates
  obtain ⟨owned, loopEnd, blockStart⟩ := worded.state n
  have owner : Succeeds (optional (net.state n).rule) := succeeds_optional.2 owned
  have link {stop : Nat} (inside : stop < net.states.size) : Succeeds (word (linkValue (some stop))) :=
    (succeeds_signed (by omega)).2 (by omega)
  unfold Encode.state
  cases kind : (net.state n).kind with
  | invalid => exact succeeds_ok _
  | loopEnd back =>
    cases back with
    | none => exact absurd kind loopEnd
    | some back =>
      have inside := worded.loopLink n back (by rw [kind]; rfl)
      exact (succeeds_bind fun _ _ => succeeds_last fun _ => succeeds_ok _).2 ⟨owner, link inside⟩
  | blockStart block stop =>
    cases stop with
    | none => exact absurd kind (blockStart block)
    | some stop =>
      have inside := worded.blockLink n stop (by rw [kind]; rfl)
      exact (succeeds_bind fun _ _ => succeeds_last fun _ => succeeds_ok _).2 ⟨owner, link inside⟩
  | _ => exact (succeeds_last fun _ => succeeds_ok _).2 owner

theorem succeeds_states (worded : net.Worded) : Succeeds (Encode.states net) ↔ net.states.size < 0xFFFF := by
  refine succeeds_counted.trans (and_iff_left ?_)
  rw [states_toList]
  intro s member
  obtain ⟨n, -, rfl⟩ := List.mem_map.1 member
  exact worded.succeeds_state n

/-- There are no more numbers of states than states. -/
theorem succeeds_numbersOf (worded : net.Worded) (few : net.states.size < 0xFFFF) (p : State → Bool) :
    Succeeds (indices (numbersOf net p)) := by
  have length : (numbersOf net p).length ≤ net.states.size := by
    rw [numbersOf, List.length_map, ← Array.length_toList]
    exact List.length_filter_le _ _
  refine succeeds_indices.2 ⟨by omega, fun n member => ?_⟩
  obtain ⟨s, among, rfl⟩ := List.mem_map.1 member
  have there := (List.mem_filter.1 among).1
  rw [states_toList] at there
  obtain ⟨m, inside, rfl⟩ := List.mem_map.1 there
  rw [List.mem_range] at inside
  rw [worded.number m inside]
  omega

theorem succeeds_rules (worded : net.Worded) : Succeeds (Encode.rules net) ↔ net.numRules < 0xFFFF := by
  refine succeeds_counted.trans (and_iff_left fun r member => ?_)
  have few := worded.fewStates
  have inside := lt_size_of_isRuleStart (worded.ruleStart r (List.mem_range.1 member))
  unfold Encode.rule
  refine (succeeds_bind fun start _ => iff_true_intro ?_).2 ⟨succeeds_index.2 (by omega), trivial⟩
  split
  · refine (succeeds_last fun _ => succeeds_ok _).2 (succeeds_signedWord.2 ?_)
    rw [Array.getD_eq_getD_getElem?]
    cases found : net.ruleTypes[r]? with
    | none => decide
    | some type => exact worded.tokenType type (Array.mem_toList_iff.2 (Array.mem_of_getElem? found))
  · exact succeeds_ok _

theorem succeeds_modes (worded : net.Worded) :
    Succeeds (indices net.modeStarts.toList) ↔ net.modeStarts.size < 0xFFFF := by
  rw [succeeds_indices, Array.length_toList]
  refine and_iff_left fun n member => ?_
  have few := worded.fewStates
  have inside : n < net.states.size := lt_size_of_kind (by simp [worded.modeStart n member])
  omega

theorem succeeds_decisions (worded : net.Worded) :
    Succeeds (indices net.decisions.toList) ↔ net.decisions.size < 0xFFFF := by
  rw [succeeds_indices, Array.length_toList]
  refine and_iff_left fun n member => ?_
  have few := worded.fewStates
  have := worded.decision n member
  omega

theorem succeeds_sets (worded : net.Worded) : Succeeds (Encode.sets (.collect net)) ↔
    (SetTable.collect net).narrow.length < 0xFFFF ∧ (SetTable.collect net).wide.length < 0xFFFF ∧
      ∀ s ∈ net.referredSets, s.Unreserved := by
  have lists := net.lists_collect
  have each {s : SymbolSet} {wide : Bool} (member : s ∈ net.referredSets) (isWide' : isWide s = wide) :
      Succeeds (Encode.set wide s) ↔ s.Unreserved := isWide' ▸ succeeds_set (worded.canonical s member)
  have narrow : (∀ s ∈ (SetTable.collect net).narrow, Succeeds (Encode.set false s)) ↔
      ∀ s ∈ (SetTable.collect net).narrow, s.Unreserved :=
    forall₂_congr fun s member => each (List.mem_append_left _ member) (lists.narrow s member)
  have wide : (∀ s ∈ (SetTable.collect net).wide, Succeeds (Encode.set true s)) ↔
      ∀ s ∈ (SetTable.collect net).wide, s.Unreserved :=
    forall₂_congr fun s member => each (List.mem_append_right _ member) (lists.wide s member)
  refine (succeeds_bind fun _ _ => succeeds_bind fun _ _ => succeeds_bind fun _ _ =>
    succeeds_last fun _ => succeeds_ok _).trans ?_
  rw [succeeds_index, succeeds_index, succeeds_concat, succeeds_concat, narrow, wide, referredSets]
  simp only [List.mem_append, or_imp, forall_and]
  tauto

/-- A set that a transition refers to has its place in the table. -/
theorem indexOf_lt (worded : net.Worded) {n : Nat} {t : Transition} (leaves : t ∈ net.out n) {s : SymbolSet}
    (refers : SetTable.referred? t.label = some s) : ∃ i < 0xFFFF, (SetTable.collect net).indexOf s = .ok i := by
  have few := worded.fewSets
  obtain ⟨i, inside, found⟩ := indexOf_of_refers leaves refers
  exact ⟨i, by omega, found⟩

theorem succeeds_transitions (worded : net.Worded) (few : net.states.size < 0xFFFF)
    (places : net.isLexer = true → net.actions.size < 0xFFFF) : Succeeds (Encode.transitions net (.collect net)) ↔
      (Encode.writtenTransitions net).length < 0xFFFF ∧
        ∀ n, (net.state n).kind.isRuleStop = false → ∀ t ∈ net.out n, t.label.Unreserved := by
  refine succeeds_counted.trans (and_congr_right' ?_)
  have each {n : Nat} {t : Transition} (leaves : t ∈ net.out n) :
      Succeeds (Encode.transition (.collect net) (net.state n).number t) ↔ t.label.Unreserved := by
    refine succeeds_transition ?_ ?_ (worded.label n t leaves) (fun r place ctx label => ?_)
      fun s => worded.indexOf_lt leaves
    · rw [worded.number n (lt_size_of_mem_out leaves)]
      exact Nat.lt_trans (lt_size_of_mem_out leaves) few
    · exact Nat.lt_trans (worded.target n t leaves) few
    · rcases worded.placed n t leaves r place ctx label with small | ⟨isLexer, inside⟩
      · exact small
      · exact Nat.lt_trans inside (places isLexer)
  constructor
  · intro written n inner t leaves
    exact (each leaves).1 (written _ (written_of_out inner leaves))
  · intro unreserved e member
    obtain ⟨n, -, inner, source, leaves⟩ := Decode.written_cases member
    rw [source]
    exact (each leaves).2 (unreserved n inner e.2 leaves)

theorem succeeds_actions (worded : net.Worded) : Succeeds (Encode.actions net) ↔
    (net.isLexer = true → net.actions.size < 0xFFFF) ∧
      (net.isLexer = true → ∀ r i, LexerAction.custom r i ∈ net.actions → r < 0xFFFF) := by
  unfold Encode.actions
  cases isLexer : net.isLexer with
  | false => exact iff_of_true (succeeds_ok _) ⟨nofun, nofun⟩
  | true =>
    simp only [if_true, forall_const]
    refine succeeds_counted.trans (and_congr_right' ?_)
    have each : (∀ a ∈ net.actions.toList, Succeeds (Encode.action a)) ↔
        ∀ a ∈ net.actions.toList, ∀ r i, a = .custom r i → r < 0xFFFF :=
      forall₂_congr fun a member => succeeds_action (worded.action a member)
    rw [each]
    constructor
    · intro small r i member
      exact small _ (Array.mem_toList_iff.2 member) r i rfl
    · rintro small _ member r i rfl
      exact small r i (Array.mem_toList_iff.1 member)

/-- Of the networks that were read, those can be written of which nothing written is reserved. -/
theorem encode_iff (worded : net.Worded) : Succeeds net.encode ↔ net.Unreserved := by
  unfold Network.encode
  refine (succeeds_bind fun maxType _ => succeeds_bind fun states _ => succeeds_bind fun nonGreedy _ =>
    succeeds_bind fun precedence _ => succeeds_bind fun rules _ => succeeds_bind fun modes _ =>
      succeeds_bind fun sets _ => succeeds_bind fun transitions _ => succeeds_bind fun decisions _ =>
        succeeds_last fun actions => succeeds_ok _).trans ?_
  rw [succeeds_word, worded.succeeds_states, worded.succeeds_rules, worded.succeeds_modes, worded.succeeds_sets,
    worded.succeeds_decisions, worded.succeeds_actions]
  constructor
  · rintro ⟨⟨-, maxType⟩, states, -, -, rules, modes, ⟨narrow, wide, set⟩, transitions, decisions, fewActions, action⟩
    obtain ⟨fewEdges, label⟩ := (worded.succeeds_transitions states fewActions).1 transitions
    exact ⟨maxType, states, rules, modes, narrow, wide, set, fewEdges, label, decisions, fewActions, action⟩
  · rintro ⟨maxType, states, rules, modes, narrow, wide, set, fewEdges, label, decisions, fewActions, action⟩
    have numbers (p : State → Bool) := worded.succeeds_numbersOf states p
    exact ⟨⟨worded.maxTokenType, maxType⟩, states, numbers _, numbers _, rules, modes, ⟨narrow, wide, set⟩,
      (worded.succeeds_transitions states fewActions).2 ⟨fewEdges, label⟩, decisions, fewActions, action⟩

end Worded

end Network

/-! ## Networks that were read -/

namespace Decode

open Network

variable {α : Type}

theorem Ensures.and {step : Decode α} {P Q : α → Prop} (first : step.Ensures P) (second : step.Ensures Q) :
    step.Ensures fun a => P a ∧ Q a :=
  fun cursor a cursor' run => ⟨first cursor a cursor' run, second cursor a cursor' run⟩

theorem ensures_index : index.Ensures fun n => n < 65536 :=
  (ensures_any word).bind fun w _ => ensures_pure w.toNat_lt

theorem ensures_length (step : Decode α) : (list step).Ensures fun as => as.length ≤ 0xFFFF := by
  have several (n : Nat) : (times n step).Ensures fun as => as.length = n := by
    induction n with
    | zero => exact ensures_pure rfl
    | succ n ih => exact (ensures_any step).bind fun a _ => ih.bind fun as same => ensures_pure (congrArg (· + 1) same)
  refine ensures_index.bind fun n small => ?_
  intro cursor as cursor' run
  have := several n _ _ _ run
  omega

theorem ne_noneWord {w : Word} (other : w ≠ noneWord) : w.toNat < 0xFFFF := by
  have small := w.toNat_lt
  have : w.toNat ≠ 0xFFFF := fun same => other (UInt16.toNat_inj.1 same)
  omega

theorem ensures_optional : optional.Ensures fun n => ∀ m, n = some m → m < 0xFFFF := by
  refine (ensures_any word).bind fun w _ => ensures_pure ?_
  split
  · exact nofun
  · rename_i other
    rintro _ ⟨⟩
    exact ne_noneWord other

theorem ensures_signed : signedWord.Ensures fun v => -1 ≤ v ∧ v < 0xFFFF := by
  refine (ensures_any word).bind fun w _ => ensures_pure ?_
  unfold wordValue
  split
  · omega
  · rename_i other
    have := ne_noneWord other
    omega

/-! ### States -/

/-- Whether the numbers of a state come from words shows in its bare state. -/
theorem worded_of_bare {s s' : State} (same : s'.bare = s.bare) (worded : s.Worded) : s'.Worded := by
  have rule : s'.rule = s.rule := show s'.bare.rule = s.bare.rule by rw [same]
  have kind : s'.kind.bare = s.kind.bare := show s'.bare.kind = s.bare.kind by rw [same]
  have loopEnd (k : StateKind) : k.bare = .loopEnd none ↔ k = .loopEnd none := by
    cases k <;> simp [StateKind.bare]
  have blockStart (block : BlockKind) (k : StateKind) :
      k.bare = .blockStart block none ↔ k = .blockStart block none := by
    cases k <;> simp [StateKind.bare]
  refine ⟨rule ▸ worded.owner, fun link => worded.loopEnd ?_, fun block link => worded.blockStart block ?_⟩
  · rwa [← loopEnd, ← kind, loopEnd]
  · rwa [← blockStart, ← kind, blockStart]

theorem ensures_wordedState : state.Ensures fun s => s.Worded := by
  refine (ensures_any word).bind fun code _ => ?_
  split
  · exact ensures_pure ⟨nofun, nofun, nofun⟩
  · refine ensures_optional.bind fun rule owned => ?_
    have kinds : (stateKind code).Ensures fun k => k ≠ .loopEnd none ∧ ∀ block, k ≠ .blockStart block none := by
      unfold stateKind
      split
      all_goals first
        | exact ensures_pure ⟨nofun, nofun⟩
        | exact (ensures_any index).bind fun n _ => ensures_pure ⟨by simp, by simp⟩
        | exact ensures_refuse _ _
    exact kinds.bind fun kind ⟨loopEnd, blockStart⟩ => ensures_pure ⟨owned, loopEnd, blockStart⟩

/-- What is known of the states, whatever is marked of them. -/
theorem worded_marked {f : State → State} (keeps : ∀ s : State, s.Worded → (f s).Worded) (ns : List Nat)
    (states : Array State) (worded : ∀ (i : Nat) (s : State), states[i]? = some s → s.Worded) :
    (ns.foldl (fun states n => states.modify n f) states).size = states.size ∧
      ∀ (i : Nat) (s : State), (ns.foldl (fun states n => states.modify n f) states)[i]? = some s → s.Worded := by
  induction ns generalizing states with
  | nil => exact ⟨rfl, worded⟩
  | cons n ns ih =>
    have after := ih (states.modify n f) fun i s found => by
      rw [Array.getElem?_modify] at found
      split at found
      · obtain ⟨s', old, rfl⟩ := Option.map_eq_some_iff.1 found
        exact keeps s' (worded i s' old)
      · exact worded i s found
    rwa [Array.size_modify] at after

theorem worded_markLeftRecursive {s : State} (worded : s.Worded) : (markLeftRecursive s).Worded := by
  unfold markLeftRecursive
  split
  · exact ⟨worded.owner, nofun, nofun⟩
  · exact worded

theorem worded_of_states {net : Network} (worded : ∀ (i : Nat) (s : State), net.states[i]? = some s → s.Worded)
    (n : Nat) : (net.state n).Worded := by
  rcases Nat.lt_or_ge n net.states.size with inside | outside
  · exact worded n _ ((Array.getElem?_eq_getElem inside).trans (congrArg some (state_of_lt inside).symm))
  · rw [state_of_le outside]
    exact ⟨nofun, nofun, nofun⟩

theorem ensures_wordedStates (f : Format) (net : Network) : (states f net).Ensures fun stated =>
    stated.maxTokenType = net.maxTokenType ∧ stated.states.size ≤ 0xFFFF ∧ ∀ n, (stated.state n).Worded := by
  refine ((ensures_length state).and (ensures_list ensures_wordedState)).bind fun read ⟨few, known⟩ => ?_
  refine (ensures_any _).bind fun _ _ => (ensures_any _).bind fun _ _ => ?_
  let numbered : Array State := (read.zipIdx.map fun p => ({ p.1 with number := p.2 } : State)).toArray
  have size : numbered.size = read.length := by simp [numbered]
  have worded : ∀ (i : Nat) (s : State), numbered[i]? = some s → s.Worded := by
    intro i s found
    simp only [numbered, List.getElem?_toArray, List.getElem?_map, List.getElem?_zipIdx, Option.map_map,
      Option.map_eq_some_iff] at found
    obtain ⟨r, at', rfl⟩ := found
    obtain ⟨owner, loopEnd, blockStart⟩ := known r (List.mem_of_getElem? at')
    exact ⟨owner, loopEnd, blockStart⟩
  refine (ensures_any _).bind fun nonGreedy _ => ?_
  obtain ⟨size₁, worded₁⟩ := worded_marked (f := fun s => { s with nonGreedy := true })
    (fun s ⟨owner, loopEnd, blockStart⟩ => ⟨owner, loopEnd, blockStart⟩) nonGreedy numbered worded
  have finish (leftRecursive : List Nat) :=
    worded_marked (fun s => worded_markLeftRecursive) leftRecursive _ worded₁
  have whole (leftRecursive : List Nat) := ((finish leftRecursive).1.trans (size₁.trans size)).trans_le few
  cases f.hasPrecedence with
  | true =>
    exact (ensures_any _).bind fun leftRecursive _ =>
      ensures_pure ⟨rfl, whole leftRecursive, worded_of_states (finish leftRecursive).2⟩
  | false =>
    exact (ensures_any _).bind fun leftRecursive _ =>
      ensures_pure ⟨rfl, whole leftRecursive, worded_of_states (finish leftRecursive).2⟩

/-! ### Rules -/

theorem ensures_tokenType (f : Format) (net : Network) : (rule f net).Ensures fun p => -1 ≤ p.2 ∧ p.2 < 0xFFFF := by
  refine (ensures_any index).bind fun start _ => (ensures_any _).bind fun _ _ => ?_
  split
  · refine ensures_signed.bind fun type typed => ?_
    split
    · exact (ensures_any word).bind fun _ _ => ensures_pure typed
    · exact ensures_pure typed
  · exact ensures_pure (a := (start, 0)) (P := fun p => -1 ≤ p.2 ∧ p.2 < 0xFFFF) (by simp)

theorem ensures_typedRules (f : Format) (net : Network) : (rules f net).Ensures fun ruled =>
    SameBare net ruled ∧ ruled.maxTokenType = net.maxTokenType ∧ ruled.numRules ≤ 0xFFFF ∧
      ∀ type ∈ ruled.ruleTypes.toList, -1 ≤ type ∧ type < 0xFFFF := by
  refine ((ensures_length _).and (ensures_list (ensures_tokenType f net))).bind fun read ⟨few, typed⟩ => ?_
  intro cursor ruled cursor' run
  let entered : Network := { net with
    ruleStarts := (read.map (·.1)).toArray
    ruleStops := Array.replicate read.length none
    ruleTypes := if net.isLexer then (read.map (·.2)).toArray else #[] }
  have stops : (List.range net.states.size).foldlM enterStop entered = .ok ruled := ensures_foldlM _ _ _ _ _ _ run
  have tables := sameTables_enterStops stops
  have bare : SameBare entered ruled := sameBare_enterStops stops
  refine ⟨bare, tables.maxTokenType, ?_, fun type member => ?_⟩
  · rw [numRules, tables.ruleStarts]
    simpa [entered] using few
  · rw [tables.ruleTypes] at member
    simp only [entered] at member
    split at member
    · obtain ⟨start, among⟩ : ∃ start, (start, type) ∈ read := by simpa using member
      exact typed _ among
    · cases member

/-! ### Transitions -/

theorem ensures_wordedLabel {net : Network} (fewStates : net.states.size ≤ 0xFFFF) (fewRules : net.numRules ≤ 0xFFFF)
    {target : Nat} (inside : target < net.states.size) (code a b c : Word) :
    (label net target code a b c).Ensures fun t =>
      t.label.Worded ∧ ∀ r place ctx, t.label = .action r (some place) ctx → place < 0xFFFF := by
  have small := a.toNat_lt
  have small' := b.toNat_lt
  have low : -1 ≤ if c ≠ 0 then endOfInput else (a.toNat : Int) := by
    have eof : endOfInput = -1 := rfl
    split <;> omega
  unfold label
  extract_lets symbol index?
  split
  case h_2 => exact ensures_pure ⟨⟨low, Int.natCast_nonneg _⟩, nofun⟩
  case h_3 =>
    refine (ensures_any _).bind fun _ _ => (ensures_check _ _).bind fun _ known => ?_
    have known := of_decide_eq_true known
    exact ensures_pure ⟨⟨by omega, Int.natCast_nonneg _, by omega⟩, nofun⟩
  case h_4 => exact ensures_pure ⟨⟨small, small'⟩, nofun⟩
  case h_5 => exact ensures_pure ⟨low, nofun⟩
  case h_6 =>
    refine ensures_pure ⟨small, fun r place ctx label => ?_⟩
    have named : index? = some place := (Label.action.inj label).2.1
    simp only [index?] at named
    split at named
    · cases named
    · rename_i other
      cases named
      exact ne_noneWord other
  case h_7 =>
    split
    · exact ensures_pure ⟨trivial, nofun⟩
    · exact ensures_refuse _ _
  case h_8 =>
    split
    · exact ensures_pure ⟨trivial, nofun⟩
    · exact ensures_refuse _ _
  case h_10 => exact ensures_pure ⟨Int.natCast_nonneg _, nofun⟩
  case h_11 => exact ensures_refuse _ _
  all_goals exact ensures_pure ⟨trivial, nofun⟩

theorem ensures_wordedTransition {net : Network} (fewStates : net.states.size ≤ 0xFFFF)
    (fewRules : net.numRules ≤ 0xFFFF) : (transition net).Ensures fun e =>
      e.2.label.Worded ∧ ∀ r place ctx, e.2.label = .action r (some place) ctx → place < 0xFFFF := by
  refine (ensures_any index).bind fun source _ => (ensures_any index).bind fun target _ => ?_
  refine (ensures_any word).bind fun code _ => (ensures_any word).bind fun a _ => ?_
  refine (ensures_any word).bind fun b _ => (ensures_any word).bind fun c _ => ?_
  refine (ensures_check _ _).bind fun _ inside => ?_
  rw [Bool.and_eq_true, decide_eq_true_iff, decide_eq_true_iff] at inside
  exact (ensures_wordedLabel fewStates fewRules inside.2 code a b c).bind fun t known => ensures_pure known

/-- What is known of the numbers of a network before its edges, and of the edges. -/
structure Numbered (base : Network) (edges : List (Nat × Transition)) : Prop where
  fewStates : base.states.size ≤ 0xFFFF
  maxTokenType : 0 ≤ base.maxTokenType
  state : ∀ n, (base.state n).Worded
  tokenType : ∀ type ∈ base.ruleTypes.toList, -1 ≤ type ∧ type < 0xFFFF
  fewEdges : edges.length ≤ 0xFFFF
  label : ∀ e ∈ edges, e.2.label.Worded
  place : ∀ e ∈ edges, ∀ r place ctx, e.2.label = .action r (some place) ctx → place < 0xFFFF

theorem ensures_grammarType : grammar.Ensures fun net => 0 ≤ net.maxTokenType := by
  refine (ensures_any word).bind fun code _ => ?_
  split
  · exact ensures_refuse _ _
  · exact (ensures_any word).bind fun w _ => ensures_pure (Int.natCast_nonneg w.toNat)

theorem ensures_numbered : listed.Ensures fun r => Numbered r.2.1 r.2.2 := by
  refine (ensures_any format).bind fun f _ => ensures_grammarType.bind fun start low => ?_
  refine (ensures_wordedStates f start).bind fun stated ⟨sameMax, fewStates, worded⟩ => ?_
  refine (ensures_typedRules f stated).bind fun ruled ⟨bare, sameMax', fewRules, typed⟩ => ?_
  have fewStates' : ruled.states.size ≤ 0xFFFF := bare.size.trans_le fewStates
  have low' : 0 ≤ ruled.maxTokenType := by rwa [sameMax', sameMax]
  refine (ensures_modes ruled).bind fun moded ⟨modeStarts, modedIs, _⟩ => ?_
  subst modedIs
  refine (ensures_sets f _).bind fun tabled ⟨table, tabledIs, _⟩ => ?_
  subst tabledIs
  let tabled : Network := { ruled with modeStarts, sets := table }
  have edges := (ensures_length (transition tabled)).and
    (ensures_list (@ensures_wordedTransition tabled fewStates' fewRules))
  refine edges.bind fun edges ⟨fewEdges, known⟩ => ensures_pure ?_
  have worded' (n : Nat) : (tabled.state n).Worded := worded_of_bare (bare.state n) (worded n)
  exact ⟨fewStates', low', worded', typed, fewEdges, fun e member => (known e member).1,
    fun e member => (known e member).2⟩

/-! ### Actions -/

theorem indexOperand_word {code : Word} {v : Int} {n : Nat} (below : v < 0xFFFF)
    (read : LexerAction.indexOperand code v = .ok n) : n < 0xFFFF := by
  unfold LexerAction.indexOperand at read
  split at read
  · cases read
  · cases read
    omega

theorem worded_of_decode {code : Word} {x y : Int} {a : LexerAction} (first : -1 ≤ x ∧ x < 0xFFFF)
    (second : -1 ≤ y ∧ y < 0xFFFF) (read : LexerAction.decode code x y = .ok a) : a.Worded := by
  unfold LexerAction.decode at read
  split at read
  case h_2 =>
    obtain ⟨rule, rule', rest⟩ := except_bind_ok.1 read
    obtain ⟨index, index', returned⟩ := except_bind_ok.1 rest
    cases returned
    have := indexOperand_word first.2 rule'
    exact ⟨by omega, indexOperand_word second.2 index'⟩
  case h_3 | h_6 =>
    obtain ⟨mode, mode', returned⟩ := except_bind_ok.1 read
    cases returned
    exact indexOperand_word first.2 mode'
  all_goals
    cases read
  all_goals first
    | exact first
    | trivial

theorem ensures_wordedAction : action.Ensures fun a => a.Worded := by
  refine (ensures_any word).bind fun code _ => ?_
  refine ensures_signed.bind fun x first => ensures_signed.bind fun y second => ?_
  split
  · rename_i a read
    exact ensures_pure (worded_of_decode first second read)
  · exact ensures_refuse _ _

/-- What is known of the actions of a network, in its table and on its transitions. -/
structure Acting (net : Network) : Prop where
  action : ∀ a ∈ net.actions.toList, a.Worded
  placed : ∀ n, ∀ t ∈ net.out n, net.Placed t

theorem ensures_acting (f : Format) {net : Network} (none' : net.actions = #[])
    (label : ∀ n, ∀ t ∈ net.out n, t.label.Worded)
    (place : ∀ n, ∀ t ∈ net.out n, ∀ r place ctx, t.label = .action r (some place) ctx → place < 0xFFFF) :
    (actions f net).Ensures Acting := by
  unfold actions
  split
  · exact ensures_pure ⟨by simp [none'], fun n t member r i ctx named => .inl (place n t member r i ctx named)⟩
  · rename_i isLexer
    replace isLexer : net.isLexer = true := by simpa using isLexer
    split
    · refine (ensures_list ensures_wordedAction).bind fun read worded => ?_
      refine (ensures_pure (P := (· = { net with actions := read.toArray })) rfl).bind
        fun changed changedIs => (ensures_any _).bind fun _ _ => ensures_pure ?_
      subst changedIs
      exact ⟨worded, fun n t member r i ctx named => .inl (place n t member r i ctx named)⟩
    · refine (ensures_pure (P := (· = customActions net)) rfl).bind
        fun changed changedIs => (ensures_any _).bind fun _ _ => ensures_pure ?_
      subst changedIs
      refine ⟨fun a member => ?_, fun n t member r i ctx named => ?_⟩
      · obtain ⟨n, t, here, r, i, c, named, rfl⟩ := customActions_custom member
        have rule_lt : r < 65536 := by
          have := label n t here
          rwa [named] at this
        refine ⟨rule_lt, ?_⟩
        cases i with
        | none => decide
        | some i => exact place n t here r i c named
      · obtain ⟨i', same, inside⟩ := customActions_places member named
        cases same
        refine .inr ⟨?_, inside⟩
        rwa [Network.isLexer, (recast_customActions net).kind]

section Completed

variable {base linked acted : Network} {edges : List (Nat × Transition)} {ds : List Nat}

theorem Numbered.label_addReturns (numbered : Numbered base edges) (listed : Listed base edges) {n : Nat}
    {t : Transition} (member : t ∈ (addReturns (base.addEdges edges)).out n) : t.label.Worded ∧
      ∀ r place ctx, t.label = .action r (some place) ctx → place < 0xFFFF := by
  rcases listed.transition member with written | ⟨-, -, -, -, outermost, -, -, free⟩
  · exact ⟨numbered.label _ written, numbered.place _ written⟩
  · rw [free]
    exact ⟨trivial, nofun⟩

theorem ensures_actingCompleted (f : Format) (numbered : Numbered base edges) (listed : Listed base edges) :
    (completed f (base.addEdges edges)).Ensures Acting := by
  refine (ensures_lift _).bind fun linked links => ?_
  refine Ensures.bind (P := fun net => ∃ ds, net = decided linked ds) ?_ ?_
  · exact (ensures_any _).bind fun ds _ => ensures_pure ⟨ds, rfl⟩
  · rintro _ ⟨ds, rfl⟩
    have out (n : Nat) : (decided linked ds).out n = (addReturns (base.addEdges edges)).out n :=
      ((decisions_foldl linked ds).2 n).trans (out_linkBlocks links n)
    have known (n : Nat) (t : Transition) (member : t ∈ (decided linked ds).out n) :=
      numbered.label_addReturns listed (out n ▸ member)
    have none' : (decided linked ds).actions = #[] := by
      rw [(sameTables_decided ds links).actions, listed.tables.2]
    have label (n : Nat) (t : Transition) (member : t ∈ (decided linked ds).out n) := (known n t member).1
    have place (n : Nat) (t : Transition) (member : t ∈ (decided linked ds).out n) := (known n t member).2
    refine (ensures_acting f none' label place).bind fun acted ⟨action, placed⟩ => ensures_pure ⟨action, fun n t member => ?_⟩
    rw [out_mark] at member
    exact placed n t member

/-- A label of a network that was read is the one of a transition before the actions, or it is an action. -/
theorem label_completed (numbered : Numbered base edges) (listed : Listed base edges)
    (links : linkBlocks (addReturns (base.addEdges edges)) = .ok linked)
    (acts : Acts (decided linked ds) acted) {n : Nat} {t : Transition} (member : t ∈ (mark acted).out n) :
    t.label.Worded := by
  obtain ⟨t', member', same⟩ := Transition.mem_of_casts (casts_completed links acts n).symm member
  have worded := (numbered.label_addReturns listed member').1
  rcases Transition.cast_cases same with rfl | ⟨target, r, i, i', c, c', rfl, rfl⟩
  · exact worded
  · exact worded

/-- A set that is referred to was referred to by a transition that was listed. -/
theorem referred_completed (listed : Listed base edges)
    (links : linkBlocks (addReturns (base.addEdges edges)) = .ok linked)
    (acts : Acts (decided linked ds) acted) {s : SymbolSet} (member : s ∈ (mark acted).referredSets) :
    ∃ e ∈ edges, Encode.SetTable.referred? e.2.label = some s := by
  obtain ⟨n, t, leaves, refers⟩ := mem_referredSets.1 member
  obtain ⟨t', member', same⟩ := Transition.mem_of_casts (casts_completed links acts n).symm leaves
  obtain rfl : t' = t := Transition.eq_of_cast same fun r i c label => by
    rw [label] at refers
    cases refers
  rcases listed.transition member' with written | ⟨-, -, -, -, outermost, -, -, free⟩
  · exact ⟨_, written, refers⟩
  · rw [free] at refers
    cases refers

end Completed

end Decode

namespace Network

variable {net : Network} {words : List Word} {verify : Bool}

/-- The numbers of a network that was read come from words. -/
theorem decode_worded (decoded : decode words verify = .ok net) : net.Worded := by
  obtain ⟨f, base, edges, cursor, cursor', front, back, -⟩ := decode_runs decoded
  have listed := Decode.ensures_listed _ _ _ front
  have numbered := Decode.ensures_numbered _ _ _ front
  obtain ⟨action, placed⟩ := Decode.ensures_actingCompleted f numbered listed _ _ _ back
  obtain ⟨linked, ds, acted, links, known, acts, rfl⟩ := (Decode.ensures_completed f _ _ _ _ back).steps
  have same := Decode.sameBare_completed links acts
  have tables := Decode.sameTables_completed links acts
  refine {
    toGrounded := Decode.grounded_completed listed links acts
    fewStates := same.size.trans_le numbered.fewStates
    fewSets := ?fewSets
    maxTokenType := tables.maxTokenType ▸ numbered.maxTokenType
    state := fun n => Decode.worded_of_bare (same.state n) (numbered.state n)
    tokenType := tables.ruleTypes ▸ numbered.tokenType
    target := fun n t member => same.size ▸ Decode.target_completed listed links acts member
    label := fun n t member => Decode.label_completed numbered listed links acts member
    placed := placed
    canonical := fun s member => ?canonical
    decision := fun n member => ?decision
    action := action }
  case fewSets =>
    -- The referred sets are distinct, and each of them belongs to an edge.
    refine Nat.le_trans (List.Subperm.length_le ?_) ((List.length_filterMap_le
      (fun e : Nat × Transition => Encode.SetTable.referred? e.2.label) edges).trans numbered.fewEdges)
    refine (nodup_referredSets _).subperm fun s member => ?_
    exact List.mem_filterMap.2 (Decode.referred_completed listed links acts member)
  case canonical =>
    obtain ⟨e, written, refers⟩ := Decode.referred_completed listed links acts member
    exact (listed.proper s ((listed.joins e written).set s refers)).canonical
  case decision =>
    rw [Decode.decisions_completed listed links acts] at member
    have linkedSame : SameBare linked (Decode.mark acted) :=
      (sameBare_defineDecisions linked ds).trans (acts.recast.sameBare.trans (sameBare_mark acted))
    rw [linkedSame.size]
    exact (known n (List.mem_toArray.1 (Array.mem_toList_iff.1 member))).1

/-- A network that was read can be written exactly when no number that is written of it is reserved. -/
theorem encode_iff_unreserved (decoded : decode words verify = .ok net) :
    (∃ words', net.encode = .ok words') ↔ net.Unreserved :=
  (decode_worded decoded).encode_iff

theorem encode_iff_unreserved_custom : decode customWords true = .ok customNetwork ∧
    ((∃ words', customNetwork.encode = .ok words') ↔ customNetwork.Unreserved) ∧ customNetwork.Unreserved := by
  obtain ⟨decoded, -, encoded⟩ := customWords_read
  exact ⟨decoded, encode_iff_unreserved decoded, (encode_iff_unreserved decoded).1 ⟨_, encoded⟩⟩

/-- A parser whose rule names an absent action. -/
def absentWords : List Word :=
  formatVersion :: identifierWords Format.current.identifier ++
    [1, 1, 3, 2, 0, 7, 0, 1, 0, 0, 0, 1, 0, 0, 0, 0, 2, 0, 2, 6, 0, 0xFFFF, 0, 2, 1, 1, 0, 0, 0, 0]

/-- What is read from `absentWords`. -/
def absentNetwork : Network where
  kind := .parser
  maxTokenType := 1
  states := #[
    { number := 0, rule := some 0, kind := .ruleStart (some 1) false, transitions := [⟨2, .action 0 none false⟩],
      epsilonOnly := true },
    { number := 1, rule := some 0, kind := .ruleStop },
    { number := 2, rule := some 0, kind := .basic, transitions := [.epsilon 1], epsilonOnly := true }]
  ruleStarts := #[0]
  ruleStops := #[some 1]

/-- The word for an absent action is read, but it is not written. -/
theorem encode_refuses_absent : decode absentWords true = .ok absentNetwork ∧
    absentNetwork.encode = .error (.wordRange 0xFFFF) ∧ ¬ absentNetwork.Unreserved := by
  have decoded : decode absentWords true = .ok absentNetwork := by decide +kernel
  have refused : absentNetwork.encode = .error (.wordRange 0xFFFF) := by decide +kernel
  refine ⟨decoded, refused, fun unreserved => ?_⟩
  obtain ⟨words', written⟩ := (decode_worded decoded).encode_iff.2 unreserved
  cases refused.symm.trans written

end Network

end AdaptiveLL
