import AdaptiveLL.Sample.Recognizers

/-!
# The command line

The program shows the tokens of a file, its parse tree and what the recognizers reported and counted.
It takes the sample grammars, or two files with compiled grammars and the rule to begin with.

A run is a function of the arguments and of the files that they name. It is abandoned when a file
cannot be read or holds no grammar that fits.
-/

set_option autoImplicit false

namespace AdaptiveLL.Cli

/-- What a run shows and the code with which it ends. -/
structure Outcome where
  exit : Nat
  out : String := ""
  err : String := ""
  deriving DecidableEq, Inhabited

/-- The end of a run that was given up, with what it had shown. -/
def abandoned (out : String) : Outcome := { exit := 101, out }

/-- The end of a run with the wrong number of arguments. -/
def usage (program : String) : Outcome where
  exit := 1
  err := "Usage: " ++ program ++ " <input> [<lexer.json> <parser.json> <start_rule>]\n" ++
    "Without grammar files, the built-in expression grammar is used.\n"

/-- What a run works on. -/
structure Task where
  input : String
  lexer : CompiledGrammar
  parser : CompiledGrammar
  rule : String

/-- The lines of a text, each ended by a line break. -/
def asLines (lines : List String) : String := String.join (lines.map (· ++ "\n"))

/-- The grammar in a file. -/
def grammarIn? (files : String → Option String) (name : String) : Option CompiledGrammar :=
  files name >>= CompiledGrammar.read?

/-- The task with the sample grammars. -/
def sampleTask? (files : String → Option String) (input : String) : Option Task := do
  return {
    input := ← files input
    lexer := ← Sample.exprLexer.compile.toOption
    parser := ← Sample.exprParser.compile.toOption
    rule := "prog" }

/-- The task with grammars from files. -/
def fileTask? (files : String → Option String) (input lexer parser rule : String) : Option Task := do
  return {
    input := ← files input
    lexer := ← grammarIn? files lexer
    parser := ← grammarIn? files parser
    rule }

/-- The line of a token. -/
def tokenLine (info : GrammarInfo) (t : Token) : String :=
  "TOKEN " ++ info.displayName t.type ++ " " ++ t.toText

/-- The last lines: tree, reports of the parser and counters. -/
def reportLines {η : Type} (lexerStats : Stats) (p : Parser η) (events : List Event) (root : Nat) :
    List String :=
  [p.renderTree root] ++ events.map (fun e => "EVENT " ++ e.toText) ++
    ["Lexer stats: " ++ lexerStats.toJson.compact,
      "Parser stats: " ++ p.sim.stats.toJson.compact,
      "DFA states: " ++ toString p.sim.cache.totalStates ++ "; syntax errors: " ++
        toString p.syntaxErrors]

/-- Shows the tokens, then parses. -/
def recognize (fuel : Nat) (task : Task) : Option Outcome := do
  let options : Options := { copyText := true }
  let .ok lexerGrammar := LoadedGrammar.ofCompiled task.lexer options | abandoned ""
  let .ok parserGrammar := LoadedGrammar.ofCompiled task.parser options | abandoned ""
  let .ok lexer := lexerGrammar.lexer .silent () (.ofString task.input) | abandoned ""
  let ((tokens, lexer), journal) ← ((Lexer.allTokens fuel).run lexer).run #[]
  let shown := asLines (tokens.map (tokenLine task.lexer.info))
  let stream : TokenStream Unit := { source := .lexer lexer.reset }
  let .ok parser := parserGrammar.parser .silent stream | abandoned shown
  let ((result, parser), journal) ← ((Parser.parseRule fuel task.rule).run parser).run journal
  match result with
  | .ok root =>
    let lines := reportLines lexer.matcher.stats parser (journal.reports (· == .parser)) root
    return { exit := 0, out := shown ++ asLines lines, err := journal.consoleText }
  | .error e =>
    return {
      exit := 2, out := shown
      err := journal.consoleText ++ "Parse failed: " ++ e.message ++ "\n" }

/-- A run of the program with a number of arguments. -/
def run (fuel : Nat) (files : String → Option String) (program : String) (args : List String) :
    Option Outcome :=
  let attempt (task : Option Task) : Option Outcome :=
    match task with
    | some task => recognize fuel task
    | none => some (abandoned "")
  match args with
  | [input] => attempt (sampleTask? files input)
  | [input, lexer, parser, rule] => attempt (fileTask? files input lexer parser rule)
  | _ => some (usage program)

end AdaptiveLL.Cli
