import AdaptiveLL.Text.Escape

/-!
# Sets of symbols

A symbol is a whole number: a code point for a lexer, a token type for a parser, `-1` for the end
of the input. A set of symbols is a list of inclusive intervals, and every operation here keeps the
list canonical: the intervals are not empty, they ascend, and between two of them at least one
symbol is missing. Two sets with the same members are then the same list.
-/

set_option autoImplicit false

namespace AdaptiveLL

/-- A set of symbols as ascending, disjoint, non-adjacent inclusive intervals. -/
structure SymbolSet where
  intervals : List (Int × Int) := []
  deriving DecidableEq, Hashable, Inhabited

namespace SymbolSet

/-! ## Building sets -/

/-- The set without members. -/
def empty : SymbolSet := {}

/-- Puts the interval from `lo` to `hi` into a canonical list, joining it with every interval that
it overlaps or touches. -/
def insertInterval (lo hi : Int) : List (Int × Int) → List (Int × Int)
  | [] => [(lo, hi)]
  | (a, b) :: rest =>
    if b + 1 < lo then (a, b) :: insertInterval lo hi rest
    else if hi + 1 < a then (lo, hi) :: (a, b) :: rest
    else insertInterval (min lo a) (max hi b) rest

/-- Adds every symbol from `lo` to `hi`; nothing when `hi` is below `lo`. -/
def addRange (s : SymbolSet) (lo hi : Int) : SymbolSet :=
  if hi < lo then s else ⟨insertInterval lo hi s.intervals⟩

/-- Adds one symbol. -/
def add (s : SymbolSet) (v : Int) : SymbolSet := s.addRange v v

/-- The set of the symbols from `lo` to `hi`. -/
def ofRange (lo hi : Int) : SymbolSet := empty.addRange lo hi

/-- The set of one symbol. -/
def singleton (v : Int) : SymbolSet := ofRange v v

/-- The union of the given ranges. -/
def ofRanges (ranges : List (Int × Int)) : SymbolSet :=
  ranges.foldl (fun s r => s.addRange r.1 r.2) empty

/-- The set of the code points of a text. -/
def ofChars (chars : String) : SymbolSet :=
  chars.toList.foldl (fun s c => s.add c.toNat) empty

/-- Adds every member of another set. -/
def union (s t : SymbolSet) : SymbolSet :=
  t.intervals.foldl (fun s r => s.addRange r.1 r.2) s

/-- What is left of one interval when the symbols from `lo` to `hi` are taken away. -/
def cutInterval (lo hi : Int) (r : Int × Int) : List (Int × Int) :=
  if r.2 < lo ∨ hi < r.1 then [r]
  else
    (if r.1 < lo then [(r.1, lo - 1)] else []) ++ (if hi < r.2 then [(hi + 1, r.2)] else [])

/-- Takes one symbol away. -/
def remove (s : SymbolSet) (v : Int) : SymbolSet :=
  ⟨s.intervals.flatMap (cutInterval v v)⟩

/-- Takes every member of another set away. -/
def subtract (s t : SymbolSet) : SymbolSet :=
  t.intervals.foldl (fun s r => ⟨s.intervals.flatMap (cutInterval r.1 r.2)⟩) s

/-- The gaps of a canonical list between `next` and `hi`. -/
def gaps (hi : Int) : Int → List (Int × Int) → List (Int × Int)
  | next, [] => if next ≤ hi then [(next, hi)] else []
  | next, (a, b) :: rest =>
    if b < next then gaps hi next rest
    else if hi < a then if next ≤ hi then [(next, hi)] else []
    else (if next < a then [(next, a - 1)] else []) ++ gaps hi (b + 1) rest

/-- The symbols from `lo` to `hi` that are not members. -/
def complement (s : SymbolSet) (lo hi : Int) : SymbolSet := ⟨gaps hi lo s.intervals⟩

/-! ## Questions about sets -/

/-- Is the symbol a member? -/
def contains (s : SymbolSet) (v : Int) : Bool :=
  s.intervals.any fun r => decide (r.1 ≤ v ∧ v ≤ r.2)

/-- Has the set no members? -/
def isEmpty (s : SymbolSet) : Bool := s.intervals.isEmpty

/-- The number of symbols in an interval. -/
def intervalSize (r : Int × Int) : Nat := (r.2 - r.1 + 1).toNat

/-- The number of members. -/
def size (s : SymbolSet) : Nat := s.intervals.foldl (fun k i => k + intervalSize i) 0

/-- The least member. -/
def min? (s : SymbolSet) : Option Int := s.intervals.head?.map (·.1)

/-- The greatest member. -/
def max? (s : SymbolSet) : Option Int := s.intervals.getLast?.map (·.2)

/-- The first `n` members of the listed intervals. -/
def takeMembers : Nat → List (Int × Int) → List Int
  | _, [] => []
  | n, r :: rest =>
    let k := min n (intervalSize r)
    (List.range k).map (fun i : Nat => r.1 + (i : Int)) ++ (if n ≤ k then [] else takeMembers (n - k) rest)

/-- The first `n` members, ascending. -/
def take (s : SymbolSet) (n : Nat) : List Int := takeMembers n s.intervals

/-! ## Written forms -/

/-- A single part stands alone; none or several stand in braces. -/
def writeParts : List String → String
  | [part] => part
  | parts => Text.braced parts

/-- One symbol, or two ends with dots between them. -/
def writeInterval (r : Int × Int) : String :=
  if r.1 = r.2 then toString r.1 else toString r.1 ++ ".." ++ toString r.2

/-- The intervals of the set. -/
def toText (s : SymbolSet) : String := writeParts (s.intervals.map writeInterval)

/-- The members of the set by their names; a long set shows its first 64. -/
def namesText (name : Int → String) (s : SymbolSet) : String := writeParts ((s.take 64).map name)

end SymbolSet

end AdaptiveLL
