import AdaptiveLL.Network.Decode
import AdaptiveLL.Network.Encode
import Mathlib.Data.List.Forall2

/-!
# Reading back what was written

A step of reading `Reads` some words as a value with a property when, set before these words, it can
only give such a value and stop right behind them. A whole reader is put together from its steps: what
reads one item reads a list of items, and what reads two parts reads one behind the other. Nothing is
said here about readers that refuse.
-/

set_option autoImplicit false

namespace AdaptiveLL

/-- A computation of two steps succeeds when both do. -/
theorem except_bind_ok {ε α β : Type} {x : Except ε α} {f : α → Except ε β} {b : β} :
    x >>= f = .ok b ↔ ∃ a, x = .ok a ∧ f a = .ok b := by
  cases x with
  | error e => exact ⟨nofun, by rintro ⟨a, h, -⟩; cases h⟩
  | ok a => exact ⟨fun h => ⟨a, rfl, h⟩, by rintro ⟨a', h, h'⟩; cases h; exact h'⟩

theorem except_ok_getD {ε α : Type} [Inhabited α] {x : Except ε α}
    (succeeds : x.toOption.isSome = true) : x = .ok (x.toOption.getD default) := by
  cases x with
  | error cause => cases succeeds
  | ok a => rfl

theorem except_ok_of_some {ε α : Type} {x : Except ε α} {a : α} (found : x.toOption = some a) : x = .ok a := by
  cases x with
  | error cause => cases found
  | ok b => exact congrArg Except.ok (Option.some.inj found)

/-- A computation for each of some values succeeds when all of them do. -/
theorem except_forM_ok {ε α : Type} {f : α → Except ε Unit} {xs : List α} {u : Unit}
    (run : xs.forM f = .ok u) : ∀ x ∈ xs, f x = .ok () := by
  induction xs with
  | nil => simp
  | cons x xs ih =>
    obtain ⟨_, first, rest⟩ := except_bind_ok.1 run
    intro y member
    rcases List.mem_cons.1 member with rfl | later
    · exact first
    · exact ih rest y later

/-- What every step of a computation preserves holds at its end. -/
theorem foldlM_preserves {ε α β : Type} {f : β → α → Except ε β} {P : β → Prop} {b b' : β}
    (xs : List α) (before : P b) (preserves : ∀ b x b', P b → f b x = .ok b' → P b')
    (run : xs.foldlM f b = .ok b') : P b' := by
  induction xs generalizing b with
  | nil =>
    cases run
    exact before
  | cons x xs ih =>
    rw [List.foldlM_cons, except_bind_ok] at run
    obtain ⟨mid, first, rest⟩ := run
    exact ih (preserves b x mid before first) rest

/-- The same of a computation that goes through the numbers below a bound, where what is preserved may depend on
how far it went. -/
theorem foldlM_range_preserves {ε β : Type} {f : β → Nat → Except ε β} {P : Nat → β → Prop} {b b' : β} {n : Nat}
    (before : P 0 b) (preserves : ∀ k < n, ∀ b b', P k b → f b k = .ok b' → P (k + 1) b')
    (run : (List.range n).foldlM f b = .ok b') : P n b' := by
  induction n generalizing b' with
  | zero =>
    cases run
    exact before
  | succ n ih =>
    rw [List.range_succ, List.foldlM_append, except_bind_ok] at run
    obtain ⟨mid, first, last⟩ := run
    rw [List.foldlM_cons, except_bind_ok] at last
    obtain ⟨_, last, same⟩ := last
    cases same
    exact preserves n (Nat.lt_succ_self n) mid _
      (ih (fun k below => preserves k (Nat.lt_succ_of_lt below)) first) last

namespace Decode

variable {α β : Type}

/-- Set before the words, the step can only give a value with the property and stop behind them. -/
def Reads (step : Decode α) (ws : List Word) (P : α → Prop) : Prop :=
  ∀ tail read a cursor, step.run ⟨ws ++ tail, read⟩ = .ok (a, cursor) → P a ∧ cursor.rest = tail

theorem bind_ok {x : Decode α} {f : α → Decode β} {cursor : WordCursor} {r : β × WordCursor} :
    (x >>= f).run cursor = .ok r ↔
      ∃ a mid, x.run cursor = .ok (a, mid) ∧ (f a).run mid = .ok r := by
  rw [StateT.run_bind, except_bind_ok]
  constructor
  · rintro ⟨⟨a, mid⟩, first, second⟩
    exact ⟨a, mid, first, second⟩
  · rintro ⟨a, mid, first, second⟩
    exact ⟨(a, mid), first, second⟩

theorem Reads.bind {x : Decode α} {f : α → Decode β} {w v : List Word} {P : α → Prop}
    {Q : β → Prop} (first : x.Reads w P) (second : ∀ a, P a → (f a).Reads v Q) :
    (x >>= f).Reads (w ++ v) Q := by
  intro tail read b cursor run
  obtain ⟨a, mid, ran, rest⟩ := bind_ok.1 run
  rw [List.append_assoc] at ran
  obtain ⟨holds, stop⟩ := first _ _ _ _ ran
  refine second a holds tail mid.read b cursor ?_
  rw [← stop]
  exact rest

theorem Reads.pure {a : α} {P : α → Prop} (holds : P a) : (pure a : Decode α).Reads [] P := by
  intro tail read b cursor run
  cases run
  exact ⟨holds, rfl⟩

/-- Behind the last words the reader only computes. -/
theorem Reads.last {x : Decode α} {f : α → Decode β} {ws : List Word} {P : α → Prop}
    {Q : β → Prop} (first : x.Reads ws P) (second : ∀ a, P a → (f a).Reads [] Q) :
    (x >>= f).Reads ws Q := by
  have whole := first.bind second
  rwa [List.append_nil] at whole

/-- The last thing a reader does is to give its value. -/
theorem Reads.map {x : Decode α} {f : α → β} {ws : List Word} {P : α → Prop} {Q : β → Prop}
    (first : x.Reads ws P) (imp : ∀ a, P a → Q (f a)) :
    (do return f (← x) : Decode β).Reads ws Q :=
  first.last fun a holds => .pure (imp a holds)

theorem Reads.imp {x : Decode α} {ws : List Word} {P Q : α → Prop} (reads : x.Reads ws P)
    (imp : ∀ a, P a → Q a) : x.Reads ws Q :=
  fun tail read a cursor run =>
    ⟨imp a (reads tail read a cursor run).1, (reads tail read a cursor run).2⟩

/-- A reader that does not read. -/
theorem reads_check (holds : Bool) (cause : Malformation) :
    (check holds cause).Reads [] fun _ => holds = true := by
  intro tail read b cursor run
  cases holds with
  | false => cases run
  | true => cases run; exact ⟨rfl, rfl⟩

theorem reads_refuse {ws : List Word} {P : α → Prop} (cause : Malformation) :
    (refuse cause : Decode α).Reads ws P := by
  intro tail read b cursor run
  cases run

theorem reads_lift {x : Except LoadError α} : (liftM x : Decode α).Reads [] fun a => x = .ok a := by
  intro tail read b cursor run
  cases x with
  | error e => cases run
  | ok a => cases run; exact ⟨rfl, rfl⟩

theorem reads_word (w : Word) : word.Reads [w] (· = w) := by
  intro tail read a cursor run
  cases run
  exact ⟨rfl, rfl⟩

theorem reads_index (w : Word) : index.Reads [w] (· = w.toNat) :=
  (reads_word w).map fun _ same => by rw [same]

theorem reads_optional (w : Word) :
    optional.Reads [w] (· = if w = noneWord then none else some w.toNat) :=
  (reads_word w).map fun _ same => by rw [same]

theorem reads_signedWord (w : Word) : signedWord.Reads [w] (· = wordValue w) :=
  (reads_word w).map fun _ same => by rw [same]

/-! ## Lists -/

/-- The same step reads items that are written one behind the other. -/
theorem reads_times {γ : Type} {step : Decode α} {R : γ → α → Prop}
    {f : γ → Except EncodeError (List Word)} {xs : List γ} {ws : List Word}
    (written : Encode.concat f xs = .ok ws)
    (each : ∀ x ∈ xs, ∀ part, f x = .ok part → step.Reads part (R x)) :
    (times xs.length step).Reads ws (List.Forall₂ R xs) := by
  induction xs generalizing ws with
  | nil =>
    cases written
    exact .pure .nil
  | cons x xs ih =>
    obtain ⟨parts, all, flat⟩ := except_bind_ok.1 written
    rw [List.mapM_cons, except_bind_ok] at all
    obtain ⟨part, here, rest⟩ := all
    obtain ⟨later, restParts, returned⟩ := except_bind_ok.1 rest
    cases returned
    cases flat
    have restWritten : Encode.concat f xs = .ok later.flatten :=
      except_bind_ok.2 ⟨later, restParts, rfl⟩
    rw [List.flatten_cons]
    refine (each x (by simp) part here).bind fun a holds => ?_
    exact (ih restWritten fun x' member => each x' (by simp [member])).map
      fun as all => .cons holds all

/-- A list is read by its length and its items. -/
theorem reads_list {γ : Type} {d : Decode α} {R : γ → α → Prop}
    {f : γ → Except EncodeError (List Word)} {xs : List γ} {n : Word} {ws : List Word}
    (length : n.toNat = xs.length) (written : Encode.concat f xs = .ok ws)
    (each : ∀ x ∈ xs, ∀ part, f x = .ok part → d.Reads part (R x)) :
    (list d).Reads (n :: ws) (List.Forall₂ R xs) := by
  refine (reads_index n).bind (v := ws) fun k same => ?_
  rw [same, length]
  exact reads_times written each

/-- Checks read nothing. -/
theorem reads_checks {γ : Type} (xs : List γ) (holds : γ → Bool) (cause : γ → Malformation) :
    (xs.forM fun x => check (holds x) (cause x)).Reads [] fun _ => True := by
  induction xs with
  | nil => exact .pure trivial
  | cons x xs ih => exact (reads_check _ _).bind (v := []) fun _ _ => ih

/-- Steps that only compute read nothing, and what each of them preserves holds behind them. -/
theorem reads_foldlM {γ : Type} {f : β → γ → Except LoadError β} {Inv : β → Prop} {b : β}
    (xs : List γ) (before : Inv b) (preserves : ∀ b x b', Inv b → f b x = .ok b' → Inv b') :
    (xs.foldlM (fun b x => (liftM (f b x) : Decode β)) b).Reads [] Inv := by
  induction xs generalizing b with
  | nil => exact .pure before
  | cons x xs ih =>
    rw [List.foldlM_cons]
    exact reads_lift.bind (v := []) fun b' ran => ih (preserves b x b' before ran)

end Decode

namespace Encode

/-! ## Numbers -/

theorem word_ok {v : Int} {w : Word} (written : word v = .ok w) :
    (w.toNat : Int) = v ∧ v < 0xFFFF := by
  unfold word at written
  split at written
  · rename_i bounds
    cases written
    have small : v.toNat < 65536 := by omega
    refine ⟨?_, bounds.2⟩
    rw [UInt16.toNat_ofNat_of_lt' (by simpa [UInt16.size] using small)]
    omega
  · cases written

theorem signed64_of_lt {n : Nat} (small : n < 9223372036854775808) : signed64 n = n := by
  unfold signed64
  rw [Int.bmod_eq_of_le (by omega) (by omega)]

theorem index_ok {n : Nat} {w : Word} (written : index n = .ok w) : w.toNat = n ∧ n < 0xFFFF := by
  unfold index at written
  split at written
  · rename_i bound
    obtain ⟨same, small⟩ := word_ok written
    -- A number of 64 bits that is negative as a signed one has no word.
    rcases Nat.lt_or_ge n 9223372036854775808 with low | high
    · rw [signed64_of_lt low] at same small
      omega
    · exfalso
      have negative : signed64 n = (n : Int) - 18446744073709551616 := by
        unfold signed64
        have shifted := Int.bmod_eq_of_le (n := (n : Int) - 18446744073709551616)
          (m := 18446744073709551616) (by omega) (by omega)
        rw [← shifted]
        exact (Int.sub_bmod_right _ _).symm
      rw [negative] at same
      omega
  · cases written

theorem ne_noneWord_of_index {n : Nat} {w : Word} (written : index n = .ok w) : w ≠ noneWord := by
  rintro rfl
  have := (index_ok written).2
  have same := (index_ok written).1
  simp [noneWord] at same
  omega

theorem optional_ok {n : Option Nat} {w : Word} (written : optional n = .ok w) :
    (if w = noneWord then none else some w.toNat) = n := by
  cases n with
  | none =>
    cases written
    rfl
  | some n =>
    have written : index n = .ok w := written
    rw [if_neg (ne_noneWord_of_index written), (index_ok written).1]

theorem signedWord_ok {v : Int} {w : Word} (written : signedWord v = .ok w) : wordValue w = v := by
  unfold signedWord at written
  split at written
  · rename_i minus
    cases written
    rw [minus]
    rfl
  · obtain ⟨same, small⟩ := word_ok written
    have other : w ≠ noneWord := by
      rintro rfl
      simp [noneWord] at same
      omega
    rw [wordValue, if_neg other, same]

/-- Indices one behind the other are items of one word each. -/
theorem concat_index {ns : List Nat} {ws : List Word} (items : ns.mapM index = .ok ws) :
    concat (fun n => do return [← index n]) ns = .ok ws := by
  induction ns generalizing ws with
  | nil =>
    cases items
    rfl
  | cons n ns ih =>
    rw [List.mapM_cons, except_bind_ok] at items
    obtain ⟨w, here, rest⟩ := items
    obtain ⟨later, restItems, returned⟩ := except_bind_ok.1 rest
    cases returned
    obtain ⟨parts, all, flat⟩ := except_bind_ok.1 (ih restItems)
    cases flat
    refine except_bind_ok.2 ⟨[w] :: parts, ?_, rfl⟩
    rw [List.mapM_cons]
    exact except_bind_ok.2 ⟨[w], except_bind_ok.2 ⟨w, here, rfl⟩,
      except_bind_ok.2 ⟨parts, all, rfl⟩⟩

theorem indices_ok {ns : List Nat} {ws : List Word} (written : indices ns = .ok ws) :
    ∃ n ws', ws = n :: ws' ∧ n.toNat = ns.length ∧
      concat (fun n => do return [← index n]) ns = .ok ws' := by
  obtain ⟨n, length, rest⟩ := except_bind_ok.1 written
  obtain ⟨ws', items, returned⟩ := except_bind_ok.1 rest
  cases returned
  exact ⟨n, ws', rfl, (index_ok length).1, concat_index items⟩

/-- The sections that the words of a network consist of. -/
inductive Sections (net : Network) (words : List Word) : Prop
  | intro {maxType : Word} {stateWords nonGreedyWords precedenceWords ruleWords modeWords setWords
      edgeWords decisionWords actionWords : List Word}
      (maxTypeWord : word net.maxTokenType = .ok maxType)
      (stateItems : states net = .ok stateWords)
      (nonGreedyItems : indices (numbersOf net (·.nonGreedy)) = .ok nonGreedyWords)
      (precedenceItems : indices (numbersOf net (·.kind.isLeftRecursiveStart)) = .ok precedenceWords)
      (ruleItems : rules net = .ok ruleWords)
      (modeItems : indices net.modeStarts.toList = .ok modeWords)
      (setItems : sets (.collect net) = .ok setWords)
      (edgeItems : transitions net (.collect net) = .ok edgeWords)
      (decisionItems : indices net.decisions.toList = .ok decisionWords)
      (actionItems : actions net = .ok actionWords)
      (whole : words = (formatVersion :: identifierWords Format.current.identifier) ++
        ([net.kind.code, maxType] ++ ((stateWords ++ (nonGreedyWords ++ precedenceWords)) ++
          (ruleWords ++ (modeWords ++ (setWords ++ (edgeWords ++ (decisionWords ++ actionWords))))))))

theorem sections_of_encode {net : Network} {words : List Word} (encoded : net.encode = .ok words) :
    Sections net words := by
  obtain ⟨maxType, maxTypeWord, rest⟩ := except_bind_ok.1 encoded
  obtain ⟨stateWords, stateItems, rest⟩ := except_bind_ok.1 rest
  obtain ⟨nonGreedyWords, nonGreedyItems, rest⟩ := except_bind_ok.1 rest
  obtain ⟨precedenceWords, precedenceItems, rest⟩ := except_bind_ok.1 rest
  obtain ⟨ruleWords, ruleItems, rest⟩ := except_bind_ok.1 rest
  obtain ⟨modeWords, modeItems, rest⟩ := except_bind_ok.1 rest
  obtain ⟨setWords, setItems, rest⟩ := except_bind_ok.1 rest
  obtain ⟨edgeWords, edgeItems, rest⟩ := except_bind_ok.1 rest
  obtain ⟨decisionWords, decisionItems, rest⟩ := except_bind_ok.1 rest
  obtain ⟨actionWords, actionItems, returned⟩ := except_bind_ok.1 rest
  refine ⟨maxTypeWord, stateItems, nonGreedyItems, precedenceItems, ruleItems, modeItems, setItems,
    edgeItems, decisionItems, actionItems, ?_⟩
  rw [← Except.ok.inj returned]
  simp

end Encode

/-- Checked indices are read as they were written. -/
theorem Decode.reads_indices {ns : List Nat} {ws : List Word} {holds : Nat → Bool}
    {cause : Nat → Malformation} (written : Encode.indices ns = .ok ws) :
    (list do
      let n ← index
      check (holds n) (cause n)
      return n).Reads ws (· = ns) := by
  obtain ⟨n, ws', rfl, length, items⟩ := Encode.indices_ok written
  refine (reads_list (R := (· = ·)) length items fun k _ part here => ?_).imp fun ks all => ?_
  · obtain ⟨w, word, returned⟩ := except_bind_ok.1 here
    cases returned
    refine (reads_index w).bind (v := []) fun k' same => ?_
    refine (reads_check _ _).bind (v := []) fun _ _ => .pure ?_
    rw [same, (Encode.index_ok word).1]
  · rw [List.forall₂_eq_eq_eq] at all
    exact all.symm

end AdaptiveLL
