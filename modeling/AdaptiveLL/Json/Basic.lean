/-!
# JSON values

Compiled grammars, options, counters and parse trees travel as JSON. A value keeps the members of
an object in the order in which they were written, and it keeps apart the numbers written as whole
numbers from all others: a reader of a whole number refuses `1.0`. A string may spell half of a
surrogate pair, which is no character; such a value can be passed over, but nothing can be read from it.
-/

set_option autoImplicit false

namespace AdaptiveLL

/-- A JSON value. -/
inductive Json where
  | null
  | bool (b : Bool)
  /-- A number written without fraction and exponent. -/
  | int (n : Int)
  /-- Any other number, as it was written. -/
  | real (text : String)
  | str (s : String)
  /-- A string that is no text, or an object with a name that is no text. -/
  | illFormed
  | arr (items : List Json)
  /-- The members in the order of writing; a name may occur twice. -/
  | obj (members : List (String × Json))
  deriving Inhabited

namespace Json

/-- The value of the last member of that name. -/
def member? (j : Json) (name : String) : Option Json :=
  match j with
  | .obj members => (members.reverse.find? (·.1 == name)).map (·.2)
  | _ => none

/-- The value of the last member of that name; a missing member reads as `null`. -/
def get (j : Json) (name : String) : Json :=
  (j.member? name).getD .null

/-- The items of an array; any other value has none. -/
def items : Json → List Json
  | .arr xs => xs
  | _ => []

/-- The item of an array at a place; a missing item reads as `null`. -/
def nth (j : Json) (i : Nat) : Json := j.items.getD i .null

/-- Does the value stand for "nothing"? -/
def isNull : Json → Bool
  | .null => true
  | _ => false

/-- A whole number. -/
def ofNat (n : Nat) : Json := .int n

/-- An optional value, `null` when there is none. -/
def ofOption {α : Type} (f : α → Json) : Option α → Json
  | none => .null
  | some a => f a

/-- An array of whole numbers. -/
def ofNats (ns : List Nat) : Json := .arr (ns.map ofNat)

/-- An array of written items. -/
def ofList {α : Type} (f : α → Json) (xs : List α) : Json := .arr (xs.map f)

end Json

end AdaptiveLL
