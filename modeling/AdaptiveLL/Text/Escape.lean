/-!
# Text inside messages

Messages and rendered trees show line breaks, returns and tabs as two characters, so that one
message stays on one line (`escapeWhitespace`). Lists inside messages are separated by a comma and
a blank (`commaSeparated`), and a record is shown by its name with its fields in braces.
-/

set_option autoImplicit false

namespace AdaptiveLL.Text

/-- The text of one character in which line breaks, returns and tabs are spelled out. -/
def visibleChar : Char → List Char
  | '\n' => ['\\', 'n']
  | '\r' => ['\\', 'r']
  | '\t' => ['\\', 't']
  | c => [c]

/-- Spells out line breaks, returns and tabs; every other character stands for itself. -/
def escapeWhitespace (s : String) : String :=
  String.ofList (s.toList.flatMap visibleChar)

/-- Joins the parts with a comma and a blank between two of them. -/
def commaSeparated (parts : List String) : String :=
  ", ".intercalate parts

/-- A list in brackets. -/
def bracketed (parts : List String) : String :=
  "[" ++ commaSeparated parts ++ "]"

/-- A list in braces. -/
def braced (parts : List String) : String :=
  "\x7b" ++ commaSeparated parts ++ "\x7d"

/-- A record shown by its name, with `field: value` pairs in braces. -/
def recordOf (name : String) (fields : List (String × String)) : String :=
  name ++ " \x7b " ++ commaSeparated (fields.map fun f => f.1 ++ ": " ++ f.2) ++ " \x7d"

end AdaptiveLL.Text
