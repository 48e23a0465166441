import AdaptiveLL.Proofs.Network.Reencoding
import AdaptiveLL.Proofs.Symbols.Extent

/-!
# Writing bounded networks

The greatest word stands for "none", so 0xFFFF is the least number that cannot be written. Symbols above it are written
as members of wide sets, in two words; 0xFFFF itself is written in one word, and refused, where it is a single symbol,
the end of a range or the greatest symbol of a set.

Where the counts and indices of a network are below 0xFFFF and its symbols are code points, it is refused for such a
symbol exactly when it has one (`Bounded.encode`). What else may be refused are the precedences that its calls ask for
and its actions, of which nothing is assumed.
-/

set_option autoImplicit false

namespace AdaptiveLL

namespace Encode

/-! ## What writing fails for -/

variable {α β : Type} {others : EncodeError → Prop} {reserved later : Prop}

/-- Writing fails if the reserved word comes up, and its errors are that of this word and others. -/
structure Fails (others : EncodeError → Prop) (reserved : Prop) (x : Except EncodeError α) : Prop where
  cause : ∀ e, x = .error e → others e ∨ reserved ∧ e = .wordRange 0xFFFF
  fails : reserved → ∃ e, x = .error e

theorem fails_ok (a : α) : Fails others False (.ok a) := ⟨nofun, False.elim⟩

/-- A step of which nothing is known but that its errors are among the others. -/
theorem fails_others {x : Except EncodeError α} (among : ∀ e, x = .error e → others e) : Fails others False x :=
  ⟨fun e same => .inl (among e same), False.elim⟩

theorem Fails.congr {x : Except EncodeError α} (fails : Fails others reserved x) (iff : reserved ↔ later) :
    Fails others later x := (propext iff) ▸ fails

theorem Fails.bind {x : Except EncodeError α} {f : α → Except EncodeError β} (first : Fails others reserved x)
    (next : ∀ a, x = .ok a → Fails others later (f a)) : Fails others (reserved ∨ later) (x >>= f) := by
  cases run : x with
  | error e =>
    constructor
    · intro e' same
      cases same
      exact (first.cause e run).imp_right fun ⟨holds, isWord⟩ => ⟨.inl holds, isWord⟩
    · exact fun _ => ⟨e, rfl⟩
  | ok a =>
    have rest := next a run
    constructor
    · intro e same
      exact (rest.cause e same).imp_right fun ⟨holds, isWord⟩ => ⟨.inr holds, isWord⟩
    · rintro (holds | holds)
      · obtain ⟨e, failed⟩ := first.fails holds
        cases run.symm.trans failed
      · exact rest.fails holds

/-- Nothing is refused for the reserved word in the first step. -/
theorem Fails.after {x : Except EncodeError α} {f : α → Except EncodeError β} (first : Fails others False x)
    (next : ∀ a, x = .ok a → Fails others later (f a)) : Fails others later (x >>= f) :=
  (first.bind next).congr (by simp)

/-- Nothing is refused for the reserved word behind the first step. -/
theorem Fails.before {x : Except EncodeError α} {f : α → Except EncodeError β} (first : Fails others reserved x)
    (next : ∀ a, x = .ok a → Fails others False (f a)) : Fails others reserved (x >>= f) :=
  (first.bind next).congr (by simp)

theorem Fails.mapM {γ : Type} {f : γ → Except EncodeError α} {bad : γ → Prop} {xs : List γ}
    (each : ∀ x ∈ xs, Fails others (bad x) (f x)) : Fails others (∃ x ∈ xs, bad x) (xs.mapM f) := by
  induction xs with
  | nil => exact (fails_ok []).congr (by simp)
  | cons x xs ih =>
    rw [List.mapM_cons]
    have rest := ih fun y member => each y (List.mem_cons_of_mem x member)
    exact ((each x List.mem_cons_self).bind fun a _ => rest.before fun as _ => fails_ok _).congr (by simp)

theorem Fails.concat {γ : Type} {f : γ → Except EncodeError (List Word)} {bad : γ → Prop} {xs : List γ}
    (each : ∀ x ∈ xs, Fails others (bad x) (f x)) : Fails others (∃ x ∈ xs, bad x) (concat f xs) :=
  (Fails.mapM each).before fun _ _ => fails_ok _

/-! ## Numbers -/

/-- Among the numbers up to the reserved one, that one is refused. -/
theorem fails_word {v : Int} (low : 0 ≤ v) (high : v ≤ 0xFFFF) : Fails others (v = 0xFFFF) (word v) := by
  unfold word
  by_cases isReserved : v = 0xFFFF
  · subst isReserved
    exact ⟨fun e same => by cases same; exact .inr ⟨rfl, rfl⟩, fun _ => ⟨_, rfl⟩⟩
  · rw [if_pos ⟨low, by omega⟩]
    exact (fails_ok _).congr (by simp [isReserved])

theorem fits_word {v : Int} (low : 0 ≤ v) (high : v < 0xFFFF) : Fails others False (word v) :=
  (fails_word low (Int.le_of_lt high)).congr (by simp; omega)

theorem fits_signed {n : Nat} (small : n < 0xFFFF) : Fails others False (word (signed64 n)) := by
  rw [signed64_of_lt (by omega)]
  exact fits_word (by omega) (by omega)

theorem fits_index {n : Nat} (small : n < 0xFFFF) : Fails others False (index n) := by
  rw [index, if_pos (by omega)]
  exact fits_signed small

theorem fits_signedWord {v : Int} (low : 0 ≤ v) (high : v < 0xFFFF) : Fails others False (signedWord v) := by
  rw [signedWord, if_neg (by omega)]
  exact fits_word low high

theorem fits_optional {n : Option Nat} (small : ∀ m, n = some m → m < 0xFFFF) : Fails others False (optional n) := by
  cases n with
  | none => exact fails_ok _
  | some n => exact fits_index (small n rfl)

theorem fits_indices {ns : List Nat} (few : ns.length < 0xFFFF) (small : ∀ n ∈ ns, n < 0xFFFF) :
    Fails others False (indices ns) := by
  have items : Fails others (∃ n ∈ ns, False) (ns.mapM index) := Fails.mapM fun n member => fits_index (small n member)
  exact (fits_index few).after fun _ _ => (items.congr (by simp)).before fun _ _ => fails_ok _

/-- A list behind its length. -/
theorem Fails.counted {γ : Type} {f : γ → Except EncodeError (List Word)} {bad : γ → Prop} {xs : List γ} {n : Nat}
    (few : n < 0xFFFF) (each : ∀ x ∈ xs, Fails others (bad x) (f x)) :
    Fails others (∃ x ∈ xs, bad x) (do return (← index n) :: (← Encode.concat f xs)) :=
  (fits_index few).after fun _ _ => (Fails.concat each).before fun _ _ => fails_ok _

end Encode

/-! ## Sets -/

/-- A canonical set of code points with few intervals. -/
structure SymbolSet.Bounded (s : SymbolSet) : Prop where
  canonical : s.Canonical
  low : ∀ v, s.contains v = true → 0 ≤ v
  few : s.intervals.length < 0xFFFF

namespace Encode

variable {others : EncodeError → Prop} {s : SymbolSet}

/-- No code point is the end of the input. -/
theorem writtenIntervals_eq (bounded : s.Bounded) : writtenIntervals s = s.intervals := by
  unfold writtenIntervals
  split
  · rename_i a b rest same
    have member : (a, b) ∈ s.intervals := by rw [same]; exact List.mem_cons_self
    have := bounded.low a (bounded.canonical.ends_mem member).1
    rw [if_neg fun isEof => by have : endOfInput = -1 := rfl; omega, same]
  · rename_i none'
    exact none'.symm

/-- The words of a wide set hold any symbol. -/
theorem fits_wideSet (bounded : s.Bounded) : Fails others False (set true s) := by
  unfold set
  rw [writtenIntervals_eq bounded]
  apply (fits_index bounded.few).after
  intro count _
  have ends : Fails others (∃ r ∈ s.intervals, False) (concat (fun r => do
      let lo ← symbol true (if r.1 = endOfInput then 0 else r.1)
      return lo ++ (← symbol true r.2)) s.intervals) := Fails.concat fun r _ => fails_ok _
  exact (ends.congr (by simp)).before fun _ _ => fails_ok _

/-- The words of a narrow set hold any symbol below the reserved word. -/
theorem narrow_le (canonical : s.Canonical) (narrow : isWide s = false) {v : Int} (member : s.contains v = true) :
    v ≤ 0xFFFF := by
  cases greatest : s.max? with
  | none =>
    have none' : s.intervals = [] := by simpa [SymbolSet.max?] using greatest
    simp [SymbolSet.contains, none'] at member
  | some m =>
    have le : v ≤ m := ((canonical.max?_eq_some m).1 greatest).2 member
    have small : m ≤ 0xFFFF := by simpa [isWide, greatest] using narrow
    exact Int.le_trans le small

/-- The greatest symbol ends an interval. -/
theorem ends_reserved (canonical : s.Canonical) (narrow : isWide s = false) :
    (∃ r ∈ s.intervals, r.1 = 0xFFFF ∨ r.2 = 0xFFFF) ↔ s.max? = some 0xFFFF := by
  constructor
  · rintro ⟨r, among, isEnd⟩
    have member : s.contains 0xFFFF = true := by
      obtain ⟨first, last⟩ := canonical.ends_mem among
      rcases isEnd with same | same
      · rwa [same] at first
      · rwa [same] at last
    exact (canonical.max?_eq_some _).2 ⟨member, fun v found => narrow_le canonical narrow found⟩
  · intro greatest
    obtain ⟨r, last, same⟩ := Option.map_eq_some_iff.1 greatest
    exact ⟨r, List.mem_of_getLast? last, .inr same⟩

/-- A narrow set is refused for its greatest symbol only. -/
theorem fails_narrowSet (bounded : s.Bounded) (narrow : isWide s = false) :
    Fails others (s.max? = some 0xFFFF) (set false s) := by
  have symbols {v : Int} (member : s.contains v = true) : Fails others (v = 0xFFFF) (symbol false v) :=
    (fails_word (bounded.low v member) (narrow_le bounded.canonical narrow member)).before fun _ _ => fails_ok _
  have ends : Fails others (∃ r ∈ s.intervals, r.1 = 0xFFFF ∨ r.2 = 0xFFFF) (concat (fun r => do
      let lo ← symbol false (if r.1 = endOfInput then 0 else r.1)
      return lo ++ (← symbol false r.2)) s.intervals) := by
    apply Fails.concat
    intro r among
    obtain ⟨first, last⟩ := bounded.canonical.ends_mem among
    have low := bounded.low r.1 first
    rw [if_neg (by have : endOfInput = -1 := rfl; omega)]
    exact (symbols first).bind fun _ _ => (symbols last).before fun _ _ => fails_ok _
  unfold set
  rw [writtenIntervals_eq bounded]
  apply (fits_index bounded.few).after
  intro count _
  exact (ends.congr (ends_reserved bounded.canonical narrow)).before fun _ _ => fails_ok _

/-- A table of sets is refused for the greatest symbols of its narrow sets only. -/
theorem fails_sets {table : SetTable} {ss : List SymbolSet} (lists : table.Lists ss)
    (few : (table.narrow ++ table.wide).length < 0xFFFF) (bounded : ∀ s ∈ table.narrow ++ table.wide, s.Bounded) :
    Fails others (∃ s ∈ table.narrow ++ table.wide, s.max? = some 0xFFFF) (sets table) := by
  rw [List.length_append] at few
  have narrow : Fails others (∃ s ∈ table.narrow, s.max? = some 0xFFFF)
      (do return (← index table.narrow.length) :: (← concat (set false) table.narrow)) :=
    Fails.counted (by omega) fun s member =>
      fails_narrowSet (bounded s (List.mem_append_left _ member)) (lists.narrow s member)
  have wide : Fails others (∃ s ∈ table.wide, False)
      (do return (← index table.wide.length) :: (← concat (set true) table.wide)) :=
    Fails.counted (by omega) fun s member => fits_wideSet (bounded s (List.mem_append_right _ member))
  have none' (s : SymbolSet) (member : s ∈ table.wide) : s.max? ≠ some 0xFFFF := by
    intro greatest
    simpa [isWide, greatest] using lists.wide s member
  -- A wide set goes beyond the reserved symbol, so it never ends with it.
  have both := narrow.before fun first _ => (wide.congr (by simp)).before fun second _ => fails_ok (first ++ second)
  simp only [bind_assoc, pure_bind] at both
  apply both.congr
  simp only [List.mem_append]
  constructor
  · rintro ⟨s, member, greatest⟩
    exact ⟨s, .inl member, greatest⟩
  · rintro ⟨s, member | member, greatest⟩
    · exact ⟨s, member, greatest⟩
    · exact absurd greatest (none' s member)

end Encode

/-! ## Transitions -/

/-- The greatest symbol that a label names. -/
def Label.greatest? : Label → Option Int
  | .atom v | .range _ v => some v
  | .set s | .notSet s => s.max?
  | _ => none

/-- Single symbols and ends of ranges have 16 bits, and the indices are below the reserved word. -/
def Label.Bounded : Label → Prop
  | .atom v => v = endOfInput ∨ 0 ≤ v ∧ v ≤ 0xFFFF
  | .range lo hi => 0 ≤ lo ∧ lo ≤ hi ∧ hi ≤ 0xFFFF
  | .rule r _ follow => r < 0xFFFF ∧ follow < 0xFFFF
  | .predicate r p _ => r < 0xFFFF ∧ p < 0xFFFF
  | .action r i _ => r < 0xFFFF ∧ ∃ place, i = some place ∧ place < 0xFFFF
  | .precedence p => 0 ≤ p ∧ p < 0xFFFF
  | _ => True

namespace Encode

variable {others : EncodeError → Prop} {table : SetTable} {source : Nat} {tr : Transition}

theorem fails_operands {target : Nat} {a b c : Int} {first second third : Prop}
    (run : operands table tr = .ok (target, a, b, c)) (source_lt : source < 0xFFFF) (target_lt : target < 0xFFFF)
    (wordA : Fails others first (word a)) (wordB : Fails others second (word b)) (wordC : Fails others third (word c)) :
    Fails others (first ∨ second ∨ third) (transition table source tr) := by
  unfold transition
  rw [run]
  exact (fits_index source_lt).after fun _ _ => (fits_index target_lt).after fun _ _ =>
    wordA.bind fun _ _ => wordB.bind fun _ _ => wordC.before fun _ _ => fails_ok _

theorem operands_set {s : SymbolSet} {i : Nat} (refers : SetTable.referred? tr.label = some s)
    (found : table.indexOf s = .ok i) : operands table tr = .ok (tr.target, (i : Int), 0, 0) := by
  unfold operands
  cases label : tr.label with
  | set s' | notSet s' =>
    rw [label] at refers
    cases refers
    simp only [found]
    rfl
  | _ => simp [label, SetTable.referred?] at refers

/-- A transition is refused for a single symbol or the end of a range, or for the precedence that its call asks for. -/
theorem fails_transition (source_lt : source < 0xFFFF) (target_lt : tr.target < 0xFFFF) (bounded : tr.label.Bounded)
    (listed : ∀ s, SetTable.referred? tr.label = some s → ∃ i < 0xFFFF, table.indexOf s = .ok i)
    (asks : ∀ r p follow, tr.label = .rule r p follow → ∀ e, word p = .error e → others e) :
    Fails others (SetTable.referred? tr.label = none ∧ tr.label.greatest? = some 0xFFFF)
      (transition table source tr) := by
  have zero : Fails others False (word 0) := fits_word (by decide) (by decide)
  have flag (b : Bool) : Fails others False (word (if b then 1 else 0)) := by
    cases b
    · exact zero
    · exact fits_word (by decide) (by decide)
  have eof : endOfInput = -1 := rfl
  obtain ⟨target, label⟩ := tr
  cases label with
  | epsilon _ | wildcard =>
    exact (fails_operands rfl source_lt target_lt zero zero zero).congr (by simp [Label.greatest?])
  | set s | notSet s =>
    obtain ⟨i, small, found⟩ := listed s rfl
    have index : Fails others False (word (i : Int)) := fits_word (by omega) (by omega)
    exact (fails_operands (operands_set rfl found) source_lt target_lt index zero zero).congr
      (by simp [SetTable.referred?])
  | atom v =>
    by_cases isEof : v = endOfInput
    · have run : operands table ⟨target, .atom v⟩ = .ok (target, 0, 0, 1) := by
        simp only [operands, if_pos isEof]
      exact (fails_operands run source_lt target_lt zero zero (flag true)).congr
        (by simp [Label.greatest?, isEof, eof])
    · have run : operands table ⟨target, .atom v⟩ = .ok (target, v, 0, 0) := by
        simp only [operands, if_neg isEof]
      obtain ⟨low, high⟩ := bounded.resolve_left isEof
      exact (fails_operands run source_lt target_lt (fails_word low high) zero zero).congr
        (by simp [Label.greatest?, SetTable.referred?])
  | range lo hi =>
    obtain ⟨low, inhabited, high⟩ := bounded
    have run : operands table ⟨target, .range lo hi⟩ = .ok (target, lo, hi, 0) := by
      have inner : lo ≠ endOfInput := by omega
      simp only [operands, if_neg inner]
    apply (fails_operands run source_lt target_lt (fails_word low (by omega)) (fails_word (by omega) high) zero).congr
    simp only [SetTable.referred?, Label.greatest?, Option.some.injEq, true_and, or_false]
    omega
  | rule r p follow =>
    exact (fails_operands rfl source_lt bounded.2 (fits_signed target_lt) (fits_signed bounded.1)
      (fails_others (asks r p follow rfl))).congr (by simp [Label.greatest?])
  | predicate r p ctx =>
    exact (fails_operands rfl source_lt target_lt (fits_signed bounded.1) (fits_signed bounded.2) (flag ctx)).congr
      (by simp [Label.greatest?])
  | action r i ctx =>
    obtain ⟨rule_lt, place, rfl, place_lt⟩ := bounded
    -- The place is written through an option, which is not evaluated at numbers of 64 bits.
    have value (f : Int → Int) : ((do let n ← some place; pure (n : Int)).map f).getD 0xFFFF = f place := rfl
    have wordB : Fails others False (word (signed64 place)) := fits_signed place_lt
    rw [← value fun i => signed64 i] at wordB
    exact (fails_operands rfl source_lt target_lt (fits_signed rule_lt) wordB (flag ctx)).congr
      (by simp [Label.greatest?])
  | precedence p =>
    exact (fails_operands rfl source_lt target_lt (fits_word bounded.1 bounded.2) zero zero).congr
      (by simp [Label.greatest?])

end Encode

/-! ## Networks -/

namespace Network

/-- What leaves a state that is no end of a rule is written. -/
theorem written_of_out {net : Network} {n : Nat} {t : Transition} (inner : (net.state n).kind.isRuleStop = false)
    (member : t ∈ net.out n) : ((net.state n).number, t) ∈ Encode.writtenTransitions net := by
  have inside : n < net.states.size := by
    by_contra outside
    rw [out_of_le (Nat.not_lt.1 outside)] at member
    cases member
  apply List.mem_flatMap.2
  refine ⟨net.state n, List.mem_filter.2 ⟨?_, by simp [inner]⟩, List.mem_map_of_mem member⟩
  rw [states_toList]
  exact List.mem_map_of_mem (List.mem_range.2 inside)

/-- A set that a transition refers to has its place in the table. -/
theorem indexOf_of_refers {net : Network} {n : Nat} {t : Transition} (leaves : t ∈ net.out n) {s : SymbolSet}
    (refers : Encode.SetTable.referred? t.label = some s) :
    ∃ i < net.referredSets.length, (Encode.SetTable.collect net).indexOf s = .ok i := by
  have member : s ∈ net.referredSets := mem_referredSets.2 ⟨n, t, leaves, refers⟩
  unfold Encode.SetTable.indexOf
  split
  · rename_i i place
    exact ⟨i, (List.findIdx?_eq_some_iff_getElem.1 place).1, rfl⟩
  · rename_i none'
    have other := List.findIdx?_eq_none_iff.1 none' s member
    simp at other

/-- A network whose counts and indices are below the reserved word. Links are set, and nothing leaves the stop of a
rule. -/
structure Bounded (net : Network) : Prop extends net.Grounded where
  fewStates : net.states.size < 0xFFFF
  fewRules : net.numRules < 0xFFFF
  fewModes : net.modeStarts.size < 0xFFFF
  fewSets : net.referredSets.length < 0xFFFF
  fewEdges : (Encode.writtenTransitions net).length < 0xFFFF
  fewDecisions : net.decisions.size < 0xFFFF
  maxTokenType : 0 ≤ net.maxTokenType ∧ net.maxTokenType < 0xFFFF
  tokenType : ∀ t ∈ net.ruleTypes.toList, 0 ≤ t ∧ t < 0xFFFF
  owner : ∀ n r, (net.state n).rule = some r → r < 0xFFFF
  linked : ∀ n, (net.state n).kind ≠ .loopEnd none ∧ ∀ block, (net.state n).kind ≠ .blockStart block none
  decision : ∀ n ∈ net.decisions.toList, n < net.states.size
  target : ∀ n, ∀ t ∈ net.out n, t.target < net.states.size
  label : ∀ n, ∀ t ∈ net.out n, t.label.Bounded
  set : ∀ s ∈ net.referredSets, s.Bounded
  stop : ∀ n, (net.state n).kind.isRuleStop = true → net.out n = []

/-- The errors that are not about symbols: those of the precedences that calls ask for, and those of the actions. -/
def Otherwise (net : Network) (e : EncodeError) : Prop :=
  (∃ n, ∃ t ∈ net.out n, ∃ r p follow, t.label = .rule r p follow ∧ Encode.word p = .error e) ∨
    Encode.actions net = .error e

namespace Bounded

open Encode

variable {net : Network} {others : EncodeError → Prop}

theorem fits_state (bounded : net.Bounded) (n : Nat) : Fails others False (Encode.state (net.state n)) := by
  have few := bounded.fewStates
  have owner : Fails others False (optional (net.state n).rule) := fits_optional (bounded.owner n)
  have link {stop : Nat} (inside : stop < net.states.size) : Fails others False (word (linkValue (some stop))) :=
    fits_signed (by omega)
  unfold Encode.state
  cases kind : (net.state n).kind with
  | invalid => exact fails_ok _
  | loopEnd back =>
    cases back with
    | none => exact absurd kind (bounded.linked n).1
    | some back =>
      have inside := bounded.loopLink n back (by rw [kind]; rfl)
      exact owner.after fun _ _ => (link inside).before fun _ _ => fails_ok _
  | blockStart block stop =>
    cases stop with
    | none => exact absurd kind ((bounded.linked n).2 block)
    | some stop =>
      have inside := bounded.blockLink n stop (by rw [kind]; rfl)
      exact owner.after fun _ _ => (link inside).before fun _ _ => fails_ok _
  | _ => exact owner.before fun _ _ => fails_ok _

theorem fits_states (bounded : net.Bounded) : Fails others False (Encode.states net) := by
  have each : ∀ s ∈ net.states.toList, Fails others False (Encode.state s) := by
    rw [states_toList]
    intro s member
    obtain ⟨n, -, rfl⟩ := List.mem_map.1 member
    exact bounded.fits_state n
  exact (Fails.counted bounded.fewStates each).congr (by simp)

/-- There are no more numbers of states than states. -/
theorem fits_numbersOf (bounded : net.Bounded) (p : State → Bool) : Fails others False (indices (numbersOf net p)) := by
  have few := bounded.fewStates
  have length : (numbersOf net p).length ≤ net.states.size := by
    rw [numbersOf, List.length_map, ← Array.length_toList]
    exact List.length_filter_le _ _
  apply fits_indices (by omega)
  intro n member
  obtain ⟨s, among, rfl⟩ := List.mem_map.1 member
  have there := (List.mem_filter.1 among).1
  rw [states_toList] at there
  obtain ⟨m, inside, rfl⟩ := List.mem_map.1 there
  rw [List.mem_range] at inside
  rw [bounded.number m inside]
  omega

theorem fits_rules (bounded : net.Bounded) : Fails others False (Encode.rules net) := by
  have each : ∀ r ∈ List.range net.numRules, Fails others False (Encode.rule net r) := by
    intro r member
    have few := bounded.fewStates
    have inside : net.ruleStart r < net.states.size := by
      by_contra outside
      have isStart := bounded.ruleStart r (List.mem_range.1 member)
      rw [state_of_le (Nat.not_lt.1 outside)] at isStart
      cases isStart
    unfold Encode.rule
    apply (fits_index (by omega)).after
    intro start _
    split
    · have small : 0 ≤ net.ruleTypes.getD r 0 ∧ net.ruleTypes.getD r 0 < 0xFFFF := by
        rw [Array.getD_eq_getD_getElem?]
        cases found : net.ruleTypes[r]? with
        | none => decide
        | some type => exact bounded.tokenType type (Array.mem_toList_iff.2 (Array.mem_of_getElem? found))
      exact (fits_signedWord small.1 small.2).before fun _ _ => fails_ok _
    · exact fails_ok _
  exact (Fails.counted bounded.fewRules each).congr (by simp)

theorem fits_modes (bounded : net.Bounded) : Fails others False (indices net.modeStarts.toList) := by
  apply fits_indices bounded.fewModes
  intro n member
  have few := bounded.fewStates
  have isEntry := bounded.modeStart n member
  by_contra outside
  rw [state_of_le (by omega)] at isEntry
  cases isEntry

theorem fits_decisions (bounded : net.Bounded) : Fails others False (indices net.decisions.toList) := by
  apply fits_indices bounded.fewDecisions
  intro n member
  have := bounded.decision n member
  have few := bounded.fewStates
  omega

/-- What is written is what leaves the states. -/
theorem mem_written (bounded : net.Bounded) {t : Transition} :
    (∃ e ∈ writtenTransitions net, e.2 = t) ↔ ∃ n, t ∈ net.out n := by
  constructor
  · rintro ⟨e, member, rfl⟩
    obtain ⟨n, -, -, -, leaves⟩ := Decode.written_cases member
    exact ⟨n, leaves⟩
  · rintro ⟨n, member⟩
    have inner : (net.state n).kind.isRuleStop = false := by
      rw [← Bool.not_eq_true]
      intro isStop
      rw [bounded.stop n isStop] at member
      cases member
    exact ⟨((net.state n).number, t), written_of_out inner member, rfl⟩

/-- A set that a transition refers to has its place in the table. -/
theorem listed (bounded : net.Bounded) {n : Nat} {t : Transition} (leaves : t ∈ net.out n) {s : SymbolSet}
    (refers : SetTable.referred? t.label = some s) : ∃ i < 0xFFFF, (SetTable.collect net).indexOf s = .ok i := by
  obtain ⟨i, inside, found⟩ := indexOf_of_refers leaves refers
  exact ⟨i, Nat.lt_trans inside bounded.fewSets, found⟩

theorem fails_transitions (bounded : net.Bounded) :
    Fails net.Otherwise (∃ n, ∃ t ∈ net.out n, SetTable.referred? t.label = none ∧ t.label.greatest? = some 0xFFFF)
      (Encode.transitions net (.collect net)) := by
  have few := bounded.fewStates
  have each : ∀ e ∈ writtenTransitions net, Fails net.Otherwise
      (SetTable.referred? e.2.label = none ∧ e.2.label.greatest? = some 0xFFFF)
      (Encode.transition (.collect net) e.1 e.2) := by
    intro e member
    obtain ⟨n, inside, -, source, leaves⟩ := Decode.written_cases member
    have source_lt : e.1 < 0xFFFF := by
      rw [source, bounded.number n inside]
      omega
    apply fails_transition source_lt _ (bounded.label n e.2 leaves) fun s => bounded.listed leaves
    · intro r p follow label e' refused
      exact .inl ⟨n, e.2, leaves, r, p, follow, label, refused⟩
    · exact Nat.lt_trans (bounded.target n e.2 leaves) few
  apply (Fails.counted bounded.fewEdges each).congr
  constructor
  · rintro ⟨e, member, isReserved⟩
    obtain ⟨n, leaves⟩ := bounded.mem_written.1 ⟨e, member, rfl⟩
    exact ⟨n, e.2, leaves, isReserved⟩
  · rintro ⟨n, t, leaves, isReserved⟩
    obtain ⟨e, member, rfl⟩ := bounded.mem_written.2 ⟨n, leaves⟩
    exact ⟨e, member, isReserved⟩

/-- The greatest symbol that some label names is the reserved one: it is that of a set, or it is named alone. -/
theorem greatest_iff : (∃ n, ∃ t ∈ net.out n, t.label.greatest? = some 0xFFFF) ↔
    (∃ s ∈ net.referredSets, s.max? = some 0xFFFF) ∨
      ∃ n, ∃ t ∈ net.out n, SetTable.referred? t.label = none ∧ t.label.greatest? = some 0xFFFF := by
  have ofSet {label : Label} {s : SymbolSet} (refers : SetTable.referred? label = some s) :
      label.greatest? = s.max? := by
    cases label <;> simp_all [SetTable.referred?, Label.greatest?]
  constructor
  · rintro ⟨n, t, leaves, isReserved⟩
    cases refers : SetTable.referred? t.label with
    | none => exact .inr ⟨n, t, leaves, refers, isReserved⟩
    | some s => exact .inl ⟨s, mem_referredSets.2 ⟨n, t, leaves, refers⟩, (ofSet refers).symm.trans isReserved⟩
  · rintro (⟨s, member, isReserved⟩ | ⟨n, t, leaves, -, isReserved⟩)
    · obtain ⟨n, t, leaves, refers⟩ := mem_referredSets.1 member
      exact ⟨n, t, leaves, (ofSet refers).trans isReserved⟩
    · exact ⟨n, t, leaves, isReserved⟩

/-- A bounded network is refused for a symbol exactly when a label names the reserved symbol as its greatest. -/
theorem fails_encode (bounded : net.Bounded) :
    Fails net.Otherwise (∃ n, ∃ t ∈ net.out n, t.label.greatest? = some 0xFFFF) net.encode := by
  have sets : Fails net.Otherwise (∃ s ∈ net.referredSets, s.max? = some 0xFFFF) (Encode.sets (.collect net)) :=
    fails_sets net.lists_collect bounded.fewSets bounded.set
  have actions : Fails net.Otherwise False (Encode.actions net) := fails_others fun _ => .inr
  apply Fails.congr _ greatest_iff.symm
  unfold Network.encode
  apply (fits_word bounded.maxTokenType.1 bounded.maxTokenType.2).after
  intro maxType _
  apply bounded.fits_states.after
  intro states _
  apply (bounded.fits_numbersOf _).after
  intro nonGreedy _
  apply (bounded.fits_numbersOf _).after
  intro precedence _
  apply bounded.fits_rules.after
  intro rules _
  apply bounded.fits_modes.after
  intro modes _
  apply sets.bind
  intro sets _
  apply bounded.fails_transitions.before
  intro transitions _
  apply bounded.fits_decisions.after
  intro decisions _
  exact actions.before fun _ _ => fails_ok _

end Bounded

end Network

end AdaptiveLL
