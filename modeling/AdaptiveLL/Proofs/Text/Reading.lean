import AdaptiveLL.CharStream
import Mathlib.Tactic.Common

/-!
# Reading along a text

A stream moves along its text and never changes it. `Reads` says that a stream stands somewhere in a
given text, at most at its end; consuming and seeking keep that. Each place of the text is in a line
and a column, which are counted from the code points before it.
-/

set_option autoImplicit false

namespace AdaptiveLL.CharStream

variable {s text : CharStream}

theorem la_one (s : CharStream) : s.la 1 = s.symbolAt s.pos := by
  have place : (s.pos : Int) + 1 - 1 = s.pos := by omega
  rw [la, if_pos (by decide), place]

theorem symbolAt_natCast (s : CharStream) (i : Nat) :
    s.symbolAt i = (s.data[i]?.map fun c => (c.toNat : Int)).getD endOfInput := by
  rw [symbolAt, if_neg (by omega), Int.toNat_natCast]
  cases s.data[i]? <;> rfl

theorem la_of_lt (inside : s.pos < s.data.size) : s.la 1 = s.data[s.pos].toNat := by
  rw [la_one, symbolAt_natCast, Array.getElem?_eq_getElem inside]
  rfl

/-- The end of the input is seen at the end only. -/
theorem la_eq_eof_iff : s.la 1 = endOfInput ↔ s.size ≤ s.pos := by
  constructor
  · intro atEof
    by_contra inside
    rw [la_of_lt (Nat.lt_of_not_le inside)] at atEof
    cases atEof
  · intro atEnd
    rw [la_one, symbolAt_natCast, Array.getElem?_eq_none atEnd]
    rfl

/-- The stream stands somewhere in the text. -/
structure Reads (text s : CharStream) : Prop where
  same : s = { text with pos := s.pos }
  inside : s.pos ≤ text.size

theorem Reads.refl (inside : s.pos ≤ s.size) : Reads s s := ⟨rfl, inside⟩

theorem Reads.size (reads : Reads text s) : s.size = text.size := by
  rw [reads.same]
  rfl

theorem Reads.symbolAt (reads : Reads text s) (i : Nat) : s.symbolAt i = text.symbolAt i := by
  rw [reads.same]
  rfl

theorem Reads.la (reads : Reads text s) : s.la 1 = text.symbolAt s.pos := by
  rw [la_one, reads.symbolAt]

/-- Before the end there is a code point to move past. -/
theorem Reads.consume (reads : Reads text s) (inside : s.pos < text.size) :
    Reads text s.consume ∧ s.consume.pos = s.pos + 1 := by
  have inside' : s.pos < s.size := by rw [reads.size]; exact inside
  rw [CharStream.consume, if_pos inside']
  refine ⟨⟨?_, inside⟩, rfl⟩
  rw [reads.same]

theorem Reads.seek (reads : Reads text s) {i : Nat} (inside : i ≤ text.size) :
    s.seek i = { text with pos := i } := by
  rw [CharStream.seek, reads.size, Nat.min_eq_left inside, reads.same]

theorem Reads.text? (reads : Reads text s) (keeps : text.keepsText = true) (start stop : Nat) :
    s.text? start stop = some (text.slice start stop) := by
  rw [reads.same]
  exact if_pos keeps

/-! ## Lines and columns -/

/-- The code points before a place. -/
def before (s : CharStream) (i : Nat) : List Char := s.data.toList.take i

/-- The line of a place: one more than there are line breaks before it. -/
def lineAt (s : CharStream) (i : Nat) : Nat := 1 + (s.before i).count '\n'

/-- The column of a place: the number of code points behind the last line break before it. -/
def columnAt (s : CharStream) (i : Nat) : Nat := ((s.before i).reverse.takeWhile (· ≠ '\n')).length

@[simp] theorem lineAt_zero (s : CharStream) : s.lineAt 0 = 1 := rfl

@[simp] theorem columnAt_zero (s : CharStream) : s.columnAt 0 = 0 := rfl

theorem before_succ {i : Nat} (inside : i < s.data.size) : s.before (i + 1) = s.before i ++ [s.data[i]] := by
  rw [before, before, List.take_add_one, Array.getElem?_toList, Array.getElem?_eq_getElem inside]
  rfl

/-- Behind a line break a new line begins. -/
theorem place_newline {i : Nat} (inside : i < s.data.size) (newline : s.data[i] = '\n') :
    s.lineAt (i + 1) = s.lineAt i + 1 ∧ s.columnAt (i + 1) = 0 := by
  rw [lineAt, lineAt, columnAt, before_succ inside, newline]
  simp [Nat.add_assoc]

/-- Behind any other code point the line goes on. -/
theorem place_same_line {i : Nat} (inside : i < s.data.size) (other : s.data[i] ≠ '\n') :
    s.lineAt (i + 1) = s.lineAt i ∧ s.columnAt (i + 1) = s.columnAt i + 1 := by
  rw [lineAt, lineAt, columnAt, columnAt, before_succ inside]
  simp [other]

/-! ## The text of a span -/

/-- The texts of two spans, one behind the other, make the text of the whole. -/
theorem slice_append {i j k : Nat} (first : i ≤ j) (second : j ≤ k) (inside : k ≤ s.size) :
    s.slice i j ++ s.slice j k = s.slice i k := by
  have cut : (s.data.extract i j).toList ++ (s.data.extract j k).toList = (s.data.extract i k).toList := by
    rw [← Array.toList_append, Array.extract_append_extract, Nat.min_eq_left first, Nat.max_eq_right second]
  rw [slice, slice, slice, Nat.min_eq_left (Nat.le_trans second inside), Nat.min_eq_left inside,
    ← String.ofList_append, cut]

theorem slice_self (s : CharStream) (i : Nat) : s.slice i i = "" := by
  rw [slice, Array.extract_empty_of_stop_le_start (Nat.min_le_left _ _)]

theorem slice_all (s : CharStream) : s.slice 0 s.size = String.ofList s.data.toList := by
  rw [slice, Nat.min_self, size, Array.extract_size]

end AdaptiveLL.CharStream
