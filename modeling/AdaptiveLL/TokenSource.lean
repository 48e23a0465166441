import AdaptiveLL.Lexer.Basic

/-!
# Sources of tokens

Tokens come from a lexer or from a list. A list is followed by tokens for the end of the input; a
token for the end inside the list is given again and again.

The state of the user code travels with the source: the code of a lexer changes it while tokens are
made, and the code of the parser that reads them works on the same state.
-/

set_option autoImplicit false

namespace AdaptiveLL

/-! ## Lists of tokens -/

/-- A list of tokens that is given one by one, with the text that their spans refer to. -/
structure TokenList where
  tokens : Array Token
  pos : Nat := 0
  text : Option String := none
  deriving Inhabited

namespace TokenList

/-- The token behind the end of the list. -/
def eof (s : TokenList) : Token :=
  let (start, line, column) := match s.tokens.back? with
    | some t => (t.stop, t.line, t.column + t.length)
    | none => (0, 1, 0)
  { type := endOfInput, channel := defaultChannel, start, stop := start, line, column
    index := none, text := some "<EOF>" }

/-- The token that comes next. -/
def current (s : TokenList) : Token := (s.tokens[s.pos]?).getD s.eof

/-- Gives the next token. -/
def next (s : TokenList) : Token × TokenList :=
  match s.tokens[s.pos]? with
  | some t => (t, if t.isEof then s else { s with pos := s.pos + 1 })
  | none => (s.eof, s)

/-- The text of a span. -/
def text? (s : TokenList) (start stop : Nat) : Option String :=
  s.text.map fun text => String.ofList ((text.toList.drop start).take (stop - start))

end TokenList

/-! ## Sources -/

/-- Where tokens come from. -/
inductive TokenSource (η : Type) where
  | lexer (lexer : Lexer η)
  | list (list : TokenList) (hooks : η)

namespace TokenSource

variable {η : Type}

/-- The state of the user code. -/
def hooks : TokenSource η → η
  | .lexer l => l.matcher.hooks
  | .list _ h => h

/-- Changes the state of the user code. -/
def setHooks (s : TokenSource η) (h : η) : TokenSource η :=
  match s with
  | .lexer l => .lexer { l with matcher := { l.matcher with hooks := h } }
  | .list s _ => .list s h

/-- Gives the next token. -/
def nextToken (fuel : Nat) : StateT (TokenSource η) Session Token := fun
  | .lexer l => do
    let (t, l) ← (Lexer.nextToken fuel).run l
    return (t, .lexer l)
  | .list s h =>
    let (t, s) := s.next
    return (t, .list s h)

/-- The line of the next token. -/
def line : TokenSource η → Nat
  | .lexer l => l.matcher.line
  | .list s _ => s.current.line

/-- The column of the next token. -/
def column : TokenSource η → Nat
  | .lexer l => l.matcher.column
  | .list s _ => s.current.column

/-- The name of the source. -/
def name : TokenSource η → String
  | .lexer l => l.input.name
  | .list _ _ => "List"

/-- The text of a span, if the source can give it. -/
def text? (s : TokenSource η) (start stop : Nat) : Option String :=
  match s with
  | .lexer l => l.input.text? start stop
  | .list s _ => s.text? start stop

end TokenSource

end AdaptiveLL
