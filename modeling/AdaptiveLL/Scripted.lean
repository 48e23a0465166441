import AdaptiveLL.Parser.Basic
import AdaptiveLL.View.Network

/-!
# Scripted user code

User code that is written down as a table, to try out a grammar before its code exists. A row says for
which predicates or actions it stands and what they answer or do; the first row that fits counts. A
predicate without a row holds, an action without a row does nothing. Every call is noted, those of a
lexer and of a parser over its tokens in one list.
-/

set_option autoImplicit false

namespace AdaptiveLL

/-! ## Scripts -/

/-- Which rules and which of their predicates or actions a row stands for; none stands for all. -/
structure ScriptPattern where
  rule : Option Nat
  index : Option Nat
  deriving DecidableEq, Inhabited

/-- Does a row stand for a predicate or action of a rule? -/
def ScriptPattern.fits (p : ScriptPattern) (rule index : Nat) : Bool :=
  p.rule.all (· == rule) && p.index.all (· == index)

/-- What a predicate answers. -/
inductive ScriptAnswer where
  | fixed (answer : Bool)
  /-- Each call takes the next answer, and the last one stays. -/
  | inTurn (answers : List Bool)
  /-- Lexers only: is the code point at a distance among those listed? -/
  | lookahead (distance : Int) (symbols : List Int)
  /-- Lexers only: does the input stand before a place? -/
  | before (place : Nat)
  deriving DecidableEq, Inhabited

/-- What an action of a lexer does. -/
inductive ScriptCommand where
  | setText (text : String)
  | run (action : LexerAction)
  deriving DecidableEq, Inhabited

/-- A table of user code. -/
structure Script where
  predicates : List (ScriptPattern × ScriptAnswer) := []
  actions : List (ScriptPattern × List ScriptCommand) := []
  deriving DecidableEq, Inhabited

namespace Script

/-- Reads the pattern of a row. -/
def pattern? (rule index : Json) : Option ScriptPattern := do
  return { rule := ← rule.opt? Json.nat?, index := ← index.opt? Json.nat? }

/-- Reads what a predicate answers; `null` is a mark that is not set. -/
def answer? : Json → Option ScriptAnswer
  | .null => some (.fixed false)
  | .bool b => some (.fixed b)
  | .arr bs => (bs.mapM Json.mark?).map .inTurn
  | j =>
    match j.member? "before" with
    | some place => place.nat?.map .before
    | none => do
      return .lookahead (← (j.get "la").int64?) (← (j.get "is").orDefault [] (Json.list? Json.int32?))

/-- Reads what an action does. -/
def command? : Json → Option ScriptCommand
  | .arr [.str "text", .str text] => some (.setText text)
  | j => (LexerAction.ofView? j).map .run

/-- Reads a row. -/
def row? {α : Type} (decode : Json → Option α) (j : Json) : Option (ScriptPattern × α) := do
  return (← pattern? (j.nth 0) (j.nth 1), ← decode (j.nth 2))

/-- Reads a table; one that is left out has no rows. -/
def ofJson? (j : Json) : Option Script := do
  return {
    predicates := ← (j.get "preds").orDefault [] (Json.list? (row? answer?))
    actions := ← (j.get "actions").orDefault []
      (Json.list? (row? (Json.orDefault [] (Json.list? command?)))) }

end Script

/-! ## Running a script -/

/-- A call of user code. The place is that of the input of a lexer. -/
inductive ScriptCall where
  | predicate (rule pred : Nat) (place : Option Nat) (answer : Bool)
  | action (rule action : Nat) (place : Option Nat)
  deriving DecidableEq, Inhabited

/-- The parts of a call. -/
def ScriptCall.view : ScriptCall → Json
  | .predicate rule pred place answer =>
    .arr ([.str "pred", .ofNat rule, .ofNat pred] ++ (place.map .ofNat).toList ++ [.bool answer])
  | .action rule a place => .arr ([.str "act", .ofNat rule, .ofNat a] ++ (place.map .ofNat).toList)

/-- A script with the answers that it has given in turn. -/
structure ScriptRun where
  script : Script := {}
  /-- The rows that were asked in turn, one entry for each call. -/
  asked : List Nat := []
  deriving Inhabited

namespace ScriptRun

/-- The answer to a predicate. A parser has no input of code points to look at. -/
def answer (r : ScriptRun) (input : Option CharStream) (rule pred : Nat) : Bool × ScriptRun :=
  match r.script.predicates.zipIdx.find? fun row => row.1.1.fits rule pred with
  | none => (true, r)
  | some ((_, .fixed b), _) => (b, r)
  | some ((_, .inTurn bs), i) =>
    (bs.getD (min (r.asked.count i) (bs.length - 1)) true, { r with asked := i :: r.asked })
  | some ((_, .lookahead k symbols), _) => (input.all fun s => symbols.contains (s.la k), r)
  | some ((_, .before place), _) => (input.all fun s => decide (s.pos < place), r)

/-- The commands of an action. -/
def commands (r : ScriptRun) (rule action : Nat) : List ScriptCommand :=
  ((r.script.actions.find? fun row => row.1.fits rule action).map (·.2)).getD []

end ScriptRun

/-- The scripts of a lexer and of a parser over its tokens, with the calls that they have got. -/
structure ScriptedCode where
  lexer : ScriptRun := {}
  parser : ScriptRun := {}
  /-- The calls since they were last taken, the latest first. -/
  calls : List ScriptCall := []
  deriving Inhabited

namespace ScriptedCode

/-- Notes a call. -/
def note (s : ScriptedCode) (c : ScriptCall) : ScriptedCode := { s with calls := c :: s.calls }

/-- The calls in order. -/
def log (s : ScriptedCode) : List ScriptCall := s.calls.reverse

/-- The scripts after their calls were taken. -/
def clearLog (s : ScriptedCode) : ScriptedCode := { s with calls := [] }

end ScriptedCode

/-- Changes the token that is being built as an action without user code does; one that fails changes
nothing. -/
def LexerState.apply (s : LexerState) (a : LexerAction) : LexerState :=
  (a.run LexerHooks.silent { state := s, input := .ofString "", hooks := () }).1.state

/-- Changes the token that is being built. -/
def ScriptCommand.change (s : LexerState) : ScriptCommand → LexerState
  | .setText text => { s with text := some text }
  | .run a => s.apply a

/-- Scripts as the user code of a lexer. -/
def LexerHooks.scripted : LexerHooks ScriptedCode where
  predicate input rule pred s :=
    let (b, lexer) := s.lexer.answer (some input) rule pred
    (b, { s with lexer }.note (.predicate rule pred (some input.pos) b))
  action state input rule action s :=
    ((s.lexer.commands rule action).foldl ScriptCommand.change state,
      s.note (.action rule action (some input.pos)))

/-- Scripts as the user code of a parser. -/
def ParserHooks.scripted : ParserHooks ScriptedCode where
  predicate rule pred s :=
    let (b, parser) := s.parser.answer none rule pred
    (b, { s with parser }.note (.predicate rule pred none b))
  action rule action s := s.note (.action rule action none)

end AdaptiveLL
