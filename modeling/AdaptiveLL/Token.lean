import AdaptiveLL.Json.Decode
import AdaptiveLL.Signed
import AdaptiveLL.Text.Escape

/-!
# Tokens

A token is a span of the source text with a type, a channel and a position. A token may carry its
own text; otherwise the text is that of its span in the source.
-/

set_option autoImplicit false

namespace AdaptiveLL

/-! ## Reserved symbols and channels -/

/-- The symbol that stands for the end of the input. -/
def endOfInput : Int := -1

/-- The symbol by which a lookahead set says that the end of the rule can be reached. -/
def epsilonSymbol : Int := -2

/-- The type of a token that has none yet. -/
def invalidType : Int := 0

/-- The least type that a grammar gives to its tokens. -/
def minTokenType : Int := 1

/-- The channel that parsers read unless told otherwise. -/
def defaultChannel : Int := 0

/-- The channel for text that parsers do not see, such as comments. -/
def hiddenChannel : Int := 1

/-! ## Tokens -/

/-- A token. The span runs from `start` up to and without `stop`, in code points. -/
structure Token where
  type : Int
  channel : Int
  start : Nat
  stop : Nat
  line : Nat
  column : Nat
  /-- The place in the token stream; none before it is buffered and for tokens made up by error
  recovery. -/
  index : Option Nat
  /-- The text copied from the source or set by an action. -/
  text : Option String
  deriving DecidableEq, Inhabited

namespace Token

/-- Does the token stand for the end of the input? -/
def isEof (t : Token) : Bool := t.type == endOfInput

/-- The number of code points of the span. -/
def length (t : Token) : Nat := t.stop - t.start

/-- The token in one line: place, span, text, type, channel and position. The place and the end of the
span are signed numbers of 64 bits, so that "no place" and the end of an empty span at the start can
be written. -/
def toText (t : Token) : String :=
  let text := match t.text with
    | some s => Text.escapeWhitespace s
    | none => "<no text>"
  let index := match t.index with
    | some i => signed64 i
    | none => -1
  let last := signed64 ((t.stop : Int) - 1)
  let channel := if t.channel > 0 then ",channel=" ++ toString t.channel else ""
  "[@" ++ toString index ++ "," ++ toString t.start ++ ":" ++ toString last ++ "='" ++
    text ++ "',<" ++ toString t.type ++ ">" ++ channel ++ "," ++ toString t.line ++ ":" ++
    toString t.column ++ "]"

/-! ## Tokens as JSON -/

/-- The token as a JSON record. -/
def toJson (t : Token) : Json :=
  .obj [("ttype", .int t.type), ("channel", .int t.channel),
    ("span", .obj [("start", .ofNat t.start), ("end", .ofNat t.stop)]),
    ("line", .ofNat t.line), ("column", .ofNat t.column),
    ("index", .ofOption .ofNat t.index), ("text", .ofOption .str t.text)]

/-- Reads a span. It has two members and no others. -/
def spanOfJson? (j : Json) : Option (Nat × Nat) := do
  let known : Bool := match j with
    | .obj members => members.all fun m => m.1 == "start" || m.1 == "end"
    | _ => true
  if !known then none
  let r ← j.record? ["start", "end"]
  return (← r.required "start" Json.nat?, ← r.required "end" Json.nat?)

/-- Reads a token from its JSON record. -/
def ofJson? (j : Json) : Option Token := do
  let r ← j.record? ["ttype", "channel", "span", "line", "column", "index", "text"]
  let type ← r.required "ttype" Json.int32?
  let channel ← r.required "channel" Json.int32?
  let (start, stop) ← r.required "span" spanOfJson?
  let line ← r.required "line" Json.nat?
  let column ← r.required "column" Json.nat?
  let index ← r.optional "index" Json.nat?
  let text ← r.optional "text" Json.str?
  return { type, channel, start, stop, line, column, index, text }

end Token

end AdaptiveLL
