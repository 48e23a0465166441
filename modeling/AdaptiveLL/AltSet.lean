import AdaptiveLL.Text.Escape

/-!
# Sets of alternatives

Alternatives of a decision are numbered from 1, and rules from 0. A set of such numbers is an
ascending list without repetitions, so that equal sets are equal lists and the least member is the
first.
-/

set_option autoImplicit false

namespace AdaptiveLL

/-- A finite set of numbers, ascending and without repetitions. -/
structure AltSet where
  members : List Nat := []
  deriving DecidableEq, Hashable, Inhabited

namespace AltSet

/-- The set without members. -/
def empty : AltSet := {}

/-- Puts a number into an ascending list, unless it is there. -/
def insertAscending (n : Nat) : List Nat → List Nat
  | [] => [n]
  | m :: rest =>
    if n < m then n :: m :: rest
    else if n = m then m :: rest
    else m :: insertAscending n rest

/-- Adds a number. -/
def insert (s : AltSet) (n : Nat) : AltSet := ⟨insertAscending n s.members⟩

/-- Takes a number away. -/
def remove (s : AltSet) (n : Nat) : AltSet := ⟨s.members.filter (· ≠ n)⟩

/-- Is the number a member? -/
def contains (s : AltSet) (n : Nat) : Bool := s.members.contains n

/-- The set of the listed numbers. -/
def ofList (ns : List Nat) : AltSet := ns.foldl insert empty

/-- The set of one number. -/
def singleton (n : Nat) : AltSet := empty.insert n

/-- Adds every member of another set. -/
def union (s t : AltSet) : AltSet := t.members.foldl insert s

/-- The number of members. -/
def size (s : AltSet) : Nat := s.members.length

/-- Has the set no members? -/
def isEmpty (s : AltSet) : Bool := s.members.isEmpty

/-- The least member. -/
def min? (s : AltSet) : Option Nat := s.members.head?

/-- The members in braces. -/
def toText (s : AltSet) : String :=
  Text.braced (s.members.map toString)

end AltSet

/-- The number that no alternative of a decision has. -/
def invalidAlt : Nat := 0

end AdaptiveLL
