import AdaptiveLL.Grammar.Info
import AdaptiveLL.Lexer.Match
import AdaptiveLL.Logger

/-!
# Lexers

A lexer turns a stream of code points into tokens. It matches one token after the other in its current
mode and runs the actions of each match; a match may be dropped (`skip`) or kept to be extended by the
next one (`more`). A code point that no rule matches is reported and passed over. At the end of the
input the lexer gives tokens for the end, as often as it is asked.
-/

set_option autoImplicit false

namespace AdaptiveLL

/-- A lexer over a stream, with user code whose state has type `η`. -/
structure Lexer (η : Type) where
  net : Network
  info : GrammarInfo
  hooks : LexerHooks η
  matcher : Lexer.Matcher η
  /-- Do tokens copy their text from the stream? -/
  copyText : Bool := false
  state : LexerState := {}
  hitEof : Bool := false
  logger : Logger := {}
  /-- The generation of learned automata that the lexer works on. -/
  generation : Nat := 0

namespace Lexer

variable {η : Type}

/-- A step of a lexer. -/
abbrev LexM (η : Type) := StateT (Lexer η) Session

/-- The stream of the lexer. -/
def input (l : Lexer η) : CharStream := l.matcher.input

/-- Returns to the start of the input in the first mode. -/
def reset (l : Lexer η) : Lexer η :=
  { l with
    matcher := { l.matcher with input := l.input.seek 0 }.reset
    state := {}
    hitEof := false }

/-- The text of the current token: the one set by an action, or what was matched so far. -/
def text (l : Lexer η) : String :=
  match l.state.text with
  | some t => t
  | none => (l.input.text? l.state.startIndex l.input.pos).getD ""

/-! ## Making tokens -/

/-- A token of a span. Without a text of its own it copies that of the span, if tokens do. -/
def makeToken (l : Lexer η) (type channel : Int) (text : Option String) (start line column : Nat) :
    Token :=
  { type, channel, start, stop := l.input.pos, line, column, index := none
    text := text.or (if l.copyText then l.input.text? start l.input.pos else none) }

/-- The token that was built. -/
def emit : LexM η Token :=
  modifyGet fun l =>
    (l.makeToken l.state.type l.state.channel l.state.text l.state.startIndex l.state.startLine
      l.state.startColumn, { l with state := { l.state with text := none } })

/-- A token for the end of the input. -/
def emitEof : LexM η Token := do
  let l ← get
  return l.makeToken endOfInput defaultChannel (some "<EOF>") l.input.pos l.matcher.line
    l.matcher.column

/-! ## Errors -/

/-- The report of an error: it quotes the text from the start of the token to the code point at which
no rule could go on. -/
def errorEvent (l : Lexer η) (e : RecognitionError) : Event :=
  let stop := min (l.input.pos + 1) l.input.size
  let text := (l.input.text? l.state.startIndex stop).getD ""
  .syntaxError none l.state.startLine l.state.startColumn
    s!"token recognition error at: '{Text.escapeWhitespace text}'" (some e)

/-- Reports an error and passes over one code point. -/
def recover (e : RecognitionError) : LexM η Unit := do
  let l ← get
  modifyThe Journal (·.push (.report .lexer (l.errorEvent e)))
  if l.input.la 1 ≠ endOfInput then modify fun l => { l with matcher := l.matcher.consume }

/-! ## Tokens -/

/-- Matches a token in the current mode. -/
def matchOne (fuel : Nat) : LexM η (Except RecognitionError TokenMatch) := do
  let l ← get
  match (matchToken l.net l.hooks fuel l.state.mode).run l.matcher with
  | some (result, matcher) =>
    set { l with matcher }
    return result
  | none => failure

/-- Runs the actions of a match. A failed action is noted in the log. -/
def runMatchActions (actions : List LexerAction) : LexM η Unit := do
  let l ← get
  let (r, result) := runActions l.hooks l.matcher.startIndex actions
    { state := l.state, input := l.input, hooks := l.matcher.hooks }
  let l := { l with state := r.state, matcher := { l.matcher with input := r.input, hooks := r.hooks } }
  match result with
  | .ok () => set l
  | .error e =>
    let (shown, logger) := l.logger.warn ("lexer action failed: " ++ e.message)
    modifyThe Journal (·.echo shown)
    set { l with logger }

/-- Begins a token where the input stands. -/
def beginToken (l : Lexer η) : Lexer η :=
  { l with state := { l.state with
      channel := defaultChannel
      startIndex := l.input.pos
      startLine := l.matcher.line
      startColumn := l.matcher.column
      text := none } }

/-- One match with its actions, or one error. The type that the match gives to the token yields to the
one set by an action. -/
def attempt (fuel : Nat) : LexM η Unit := do
  modify fun l => { l with state := { l.state with type := invalidType } }
  let type ← match ← matchOne fuel with
    | .ok m => do
      runMatchActions m.actions
      pure m.type
    | .error e => do
      recover e
      pure skipType
  modify fun l => { l with
    hitEof := l.hitEof || l.input.la 1 == endOfInput
    state := if l.state.type = invalidType then { l.state with type } else l.state }

/-- Matches as long as the text is to be extended; says whether a token was built, not dropped. -/
def extend (fuel : Nat) : Nat → LexM η Bool
  | 0 => failure
  | rounds + 1 => do
    attempt fuel
    let type := (← get).state.type
    if type = skipType then return false
    else if type = moreType then extend fuel rounds
    else return true

/-- The next token. -/
def nextTokenFrom (fuel : Nat) : Nat → LexM η Token
  | 0 => failure
  | rounds + 1 => do
    if (← get).hitEof then emitEof
    else
      modify beginToken
      if ← extend fuel fuel then emit else nextTokenFrom fuel rounds

/-- The next token. -/
def nextToken (fuel : Nat) : LexM η Token := nextTokenFrom fuel fuel

/-- The tokens up to the end of the input, without it; `done` holds those read, reversed. -/
def allTokensFrom (fuel : Nat) : Nat → List Token → LexM η (List Token)
  | 0, _ => failure
  | rounds + 1, done => do
    let t ← nextToken fuel
    if t.isEof then return done.reverse else allTokensFrom fuel rounds (t :: done)

/-- The tokens up to the end of the input, without it. -/
def allTokens (fuel : Nat) : LexM η (List Token) := allTokensFrom fuel fuel []

end Lexer

end AdaptiveLL
