import AdaptiveLL.Text.Printable

/-!
# Quoted text

A name inside a message stands in double quotes. The quote, the backslash and the common control
characters are escaped with a backslash, and a character without a shape of its own is written as its
code point in hexadecimal.
-/

set_option autoImplicit false

namespace AdaptiveLL.Text

/-- The code point of a character in braces, in hexadecimal. -/
def codePoint (c : Char) : List Char :=
  ['\\', 'u', '\x7b'] ++ Nat.toDigits 16 c.toNat ++ ['\x7d']

/-- One character of a quoted text. -/
def quotedChar (c : Char) : List Char :=
  match c with
  | '"' => ['\\', '"']
  | '\\' => ['\\', '\\']
  | '\n' => ['\\', 'n']
  | '\r' => ['\\', 'r']
  | '\t' => ['\\', 't']
  | '\x00' => ['\\', '0']
  | c => if isPrintable c then [c] else codePoint c

/-- The text in double quotes. -/
def quoted (s : String) : String :=
  "\"" ++ String.ofList (s.toList.flatMap quotedChar) ++ "\""

end AdaptiveLL.Text
