import AdaptiveLL.Token

/-!
# Streams of code points

A stream holds a whole text and a position in it. Looking ahead or behind never leaves the text:
past either end stands the end of the input. A stream may be unable to give its text back (for
instance because it was read from a pipe); tokens of such a stream have no text of their own.
-/

set_option autoImplicit false

namespace AdaptiveLL

/-- A text with a position in it. -/
structure CharStream where
  data : Array Char
  pos : Nat := 0
  name : String := "<unknown>"
  /-- Can the stream give back the text of a span? -/
  keepsText : Bool := true
  deriving Inhabited

namespace CharStream

/-- A stream at the start of a text. -/
def ofString (text : String) : CharStream := { data := text.toList.toArray }

/-- The number of code points. -/
def size (s : CharStream) : Nat := s.data.size

/-- The code point at a place, or the end of the input. -/
def symbolAt (s : CharStream) (i : Int) : Int :=
  if i < 0 then endOfInput
  else match s.data[i.toNat]? with
    | some c => c.toNat
    | none => endOfInput

/-- The code point `k` places ahead: 1 is the next one, -1 the one before. -/
def la (s : CharStream) (k : Int) : Int :=
  if k > 0 then s.symbolAt (s.pos + k - 1)
  else if k < 0 then s.symbolAt (s.pos + k)
  else 0

/-- Moves past the next code point; stays at the end. -/
def consume (s : CharStream) : CharStream :=
  if s.pos < s.size then { s with pos := s.pos + 1 } else s

/-- Moves to a place, at most to the end. -/
def seek (s : CharStream) (i : Nat) : CharStream := { s with pos := min i s.size }

/-- The code points from `start` up to `stop`, cut at the end of the text. -/
def slice (s : CharStream) (start stop : Nat) : String :=
  String.ofList (s.data.extract start (min stop s.size)).toList

/-- The text of a span, if the stream can still give it. -/
def text? (s : CharStream) (start stop : Nat) : Option String :=
  if s.keepsText then some (s.slice start stop) else none

end CharStream

end AdaptiveLL
