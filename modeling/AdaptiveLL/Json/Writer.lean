import AdaptiveLL.Json.Basic

/-!
# Writing JSON

The compact written form: no blanks, members in their order, characters beyond ASCII as they are.
Inside a string only the quote, the backslash and the control characters are escaped; the control
characters with a short escape use it and the others are written with four hexadecimal digits. What
is no text is written as `null`.
-/

set_option autoImplicit false

namespace AdaptiveLL.Json

/-- A hexadecimal digit, in lower case. -/
def hexDigit (n : Nat) : Char := Nat.digitChar (n % 16)

/-- The written form of one character of a string. -/
def escapeChar (c : Char) : List Char :=
  match c with
  | '"' => ['\\', '"']
  | '\\' => ['\\', '\\']
  | '\n' => ['\\', 'n']
  | '\r' => ['\\', 'r']
  | '\t' => ['\\', 't']
  | c =>
    if c.toNat = 8 then ['\\', 'b']
    else if c.toNat = 12 then ['\\', 'f']
    else if c.toNat < 32 then ['\\', 'u', '0', '0', hexDigit (c.toNat / 16), hexDigit c.toNat]
    else [c]

/-- A string in quotes. -/
def quote (s : String) : String :=
  "\"" ++ String.ofList (s.toList.flatMap escapeChar) ++ "\""

mutual

/-- Writes a value behind a text, in compact form. -/
def appendTo (out : String) : Json → String
  | .null => out ++ "null"
  | .bool b => out ++ if b then "true" else "false"
  | .int n => out ++ toString n
  | .real text => out ++ text
  | .str s => out ++ quote s
  | .illFormed => out ++ "null"
  | .arr xs => appendItems (out ++ "[") xs ++ "]"
  | .obj ms => appendMembers (out ++ "\x7b") ms ++ "\x7d"

/-- Writes items behind a text, separated by commas. -/
def appendItems (out : String) : List Json → String
  | [] => out
  | [x] => appendTo out x
  | x :: y :: rest => appendItems (appendTo out x ++ ",") (y :: rest)

/-- Writes members behind a text, separated by commas. -/
def appendMembers (out : String) : List (String × Json) → String
  | [] => out
  | [m] => appendMember out m
  | m :: n :: rest => appendMembers (appendMember out m ++ ",") (n :: rest)

/-- Writes one member behind a text, its name first. -/
def appendMember (out : String) : String × Json → String
  | (name, value) => appendTo (out ++ quote name ++ ":") value

end

/-- The compact written form of a value. -/
def compact (j : Json) : String := appendTo "" j

/-! ## One value in a line -/

/-- The written form of the characters at which some readers break lines: the next-line character and
the separators of lines and paragraphs. Every other character stands for itself. -/
def lineChar (c : Char) : List Char :=
  let n := c.toNat
  if n = 0x85 ∨ n = 0x2028 ∨ n = 0x2029 then
    ['\\', 'u', hexDigit (n / 4096), hexDigit (n / 256), hexDigit (n / 16), hexDigit n]
  else [c]

/-- The compact written form, on one line for every reader. -/
def line (j : Json) : String := String.ofList (j.compact.toList.flatMap lineChar)

end AdaptiveLL.Json
