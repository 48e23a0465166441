import AdaptiveLL.LoadedGrammar
import AdaptiveLL.Sample.Grammars

/-!
# Trying out the sample grammars

A lexer for the expression language together with a parser over its tokens. Both keep what they learn
from one text to the next, and neither shows anything on the console.
-/

set_option autoImplicit false

namespace AdaptiveLL.Sample

/-- A lexer and a parser over its tokens. -/
structure Recognizers where
  lexer : LoadedGrammar
  parser : LoadedGrammar

/-- What came of parsing a text. -/
structure Outcome where
  tree : String
  syntaxErrors : Nat
  /-- The reports of lexer and parser, in order. -/
  events : List Event

/-- The syntax errors of an outcome, one line each. -/
def Outcome.errorLines (o : Outcome) : List String := o.events.filterMap (·.consoleLine?)

namespace Recognizers

/-- The lexer of the expression language with a parser over its tokens. -/
def ofGrammar? (parser : Grammar) (options : Options) : Option Recognizers := do
  let load (g : Grammar) : Option LoadedGrammar := do
    let compiled ← g.compile.toOption
    let loaded ← (LoadedGrammar.ofCompiled compiled options).toOption
    return loaded.quiet
  return { lexer := ← load exprLexer, parser := ← load parser }

/-- A lexer for a text, without user code of its own. -/
def lexerFor {η : Type} (r : Recognizers) (h : η) (text : String) : Option (Lexer η) :=
  (r.lexer.lexer .silent h (.ofString text)).toOption

/-- The tokens of a text, each with its name and its text, separated by blanks. -/
def tokens (fuel : Nat) (r : Recognizers) (text : String) : Option (String × Recognizers) := do
  let ((tokens, lexer), _) ← ((Lexer.allTokens fuel).run (← r.lexerFor () text)).run #[]
  let shown := tokens.map fun t =>
    (r.lexer.info.symbolicName t.type).getD (toString t.type) ++ ":" ++
      t.text.getD (lexer.input.slice t.start t.stop)
  return (" ".intercalate shown, { r with lexer := r.lexer.learnFromLexer lexer })

/-- Parses a text, beginning with a rule. There is no outcome for a rule that the grammar does not
have. -/
def parse {η : Type} (fuel : Nat) (r : Recognizers) (hooks : ParserHooks η) (h : η)
    (rule text : String) : Option (Outcome × Recognizers) := do
  let stream : TokenStream η := { source := .lexer (← r.lexerFor h text) }
  let parser ← (r.parser.parser hooks stream).toOption
  let ((result, parser), journal) ← ((Parser.parseRule fuel rule).run parser).run #[]
  let root ← result.toOption
  return ({
      tree := parser.renderTree root
      syntaxErrors := parser.syntaxErrors
      events := journal.reports fun _ => true },
    { lexer := r.lexer.learnFromSource parser.stream.source
      parser := r.parser.learnFromParser parser })

end Recognizers

/-! ## Checks -/

/-- Does a text have these tokens? -/
def hasTokens (fuel : Nat) (text expected : String) : Bool :=
  match do (← Recognizers.ofGrammar? exprParser {}).tokens fuel text with
  | some (shown, _) => shown == expected
  | none => false

/-- Is a text parsed without errors into this tree? -/
def parsesTo (fuel : Nat) (rule text expected : String) : Bool :=
  match do (← Recognizers.ofGrammar? exprParser {}).parse fuel .silent () rule text with
  | some (o, _) => o.errorLines.isEmpty && o.tree == expected
  | none => false

end AdaptiveLL.Sample
