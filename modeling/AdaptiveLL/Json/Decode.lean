import AdaptiveLL.Json.Basic

/-!
# Reading records from JSON

A record is read from an object by the names of its members, or from an array by position. An
object may hold members that the record does not know, but no known member twice; an array may
leave out trailing members that have a default, and may hold no more items than there are members. The
fields that a case of a choice carries are read by name only. Whole numbers are refused outside the
range of their field.
-/

set_option autoImplicit false

namespace AdaptiveLL.Json

/-- A truth value. -/
def bool? : Json → Option Bool
  | .bool b => some b
  | _ => none

/-- A text. -/
def str? : Json → Option String
  | .str s => some s
  | _ => none

/-- A whole number from `lo` to `hi`. -/
def intIn? (lo hi : Int) : Json → Option Int
  | .int n => if lo ≤ n ∧ n ≤ hi then some n else none
  | _ => none

/-- A signed number of 32 bits. -/
def int32? : Json → Option Int := intIn? (-2147483648) 2147483647

/-- A signed number of 64 bits. -/
def int64? : Json → Option Int := intIn? (-9223372036854775808) 9223372036854775807

/-- An unsigned number of 64 bits. -/
def nat? (j : Json) : Option Nat := (intIn? 0 18446744073709551615 j).map Int.toNat

/-- An unsigned number of 16 bits. -/
def word? (j : Json) : Option UInt16 := (intIn? 0 65535 j).map fun n => UInt16.ofNat n.toNat

/-- A value that may be absent, written as `null`. -/
def opt? {α : Type} (decode : Json → Option α) : Json → Option (Option α)
  | .null => some none
  | j => (decode j).map some

/-- The number that stands for no state: the greatest one of 64 bits. -/
def noState : Nat := 0xFFFFFFFFFFFFFFFF

/-- The number of a state, unless it stands for no state. -/
def stateOf (n : Nat) : Option Nat := if n = noState then none else some n

/-- The number of a state to which there may be no link. -/
def link? (j : Json) : Option (Option Nat) := (opt? nat? j).map (·.bind stateOf)

/-- A list of values. -/
def list? {α : Type} (decode : Json → Option α) : Json → Option (List α)
  | .arr xs => xs.mapM decode
  | _ => none

/-- A value that has a default when it is `null`. -/
def orDefault {α : Type} (fallback : α) (decode : Json → Option α) (j : Json) : Option α :=
  (opt? decode j).map (·.getD fallback)

/-- A mark: a truth value that is false when it is `null`. -/
def mark? : Json → Option Bool := orDefault false bool?

/-- A list of unsigned numbers; `null` reads as the empty list. -/
def nats? : Json → Option (List Nat) := orDefault [] (list? nat?)

/-- A case of a choice and what it carries: a bare name carries nothing. -/
def case? : Json → Option (String × Json)
  | .str name => some (name, .null)
  | .obj [(name, value)] => some (name, value)
  | _ => none

/-- A case that carries nothing. -/
def bareCase? {α : Type} (cases : List (String × α)) (j : Json) : Option α := do
  let (name, carried) ← j.case?
  if carried.isNull then (cases.find? (·.1 == name)).map (·.2) else none

/-- The members of a record, found by name. -/
structure Record where
  /-- Was the record written as an array? -/
  positional : Bool
  member : String → Option Json

/-- Does some name of the list occur twice among the members? -/
def repeats (names : List String) (members : List (String × Json)) : Bool :=
  names.any fun name => (members.filter (·.1 == name)).length > 1

/-- Reads the members of a record whose fields have these names, in this order. -/
def record? (names : List String) : Json → Option Record
  | .obj members =>
    if repeats names members then none
    else some ⟨false, fun name => (members.find? (·.1 == name)).map (·.2)⟩
  | .arr xs =>
    if xs.length ≤ names.length then
      some ⟨true, fun name => ((names.zip xs).find? (·.1 == name)).map (·.2)⟩
    else none
  | _ => none

/-- Reads the members of a record that a case of a choice carries: it is written by name. -/
def carried? (names : List String) : Json → Option Record
  | .obj members => record? names (.obj members)
  | _ => none

namespace Record

variable {α : Type}

/-- A field that has to be there. -/
def required (r : Record) (name : String) (decode : Json → Option α) : Option α :=
  r.member name >>= decode

/-- A field that may be `null`, and that an object may leave out. -/
def optional (r : Record) (name : String) (decode : Json → Option α) : Option (Option α) :=
  match r.member name with
  | none => if r.positional then none else some none
  | some j => opt? decode j

/-- A field with a default. -/
def withDefault (r : Record) (name : String) (fallback : α) (decode : Json → Option α) : Option α :=
  match r.member name with
  | none => some fallback
  | some j => decode j

end Record

end AdaptiveLL.Json
