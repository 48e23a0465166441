import AdaptiveLL.Grammar.Element
import AdaptiveLL.Grammar.Info
import AdaptiveLL.Network.Basic

/-!
# Grammar definitions

A grammar is written down as a list of rules, grouped into modes for a lexer. Every rule of a lexer
that is no fragment defines the next token type.
-/

set_option autoImplicit false

namespace AdaptiveLL

/-- A rule of a grammar. -/
structure RuleDef where
  name : String
  body : Element
  leftRecursive : Bool := false
  /-- Can only other rules refer to it? -/
  fragment : Bool := false
  mode : Nat := 0
  version : Int := 0
  deriving Inhabited

/-- A grammar. Parsers take the names of their tokens from the vocabulary. -/
structure Grammar where
  name : String
  kind : GrammarKind
  vocabulary : GrammarInfo := {}
  rules : List RuleDef := []
  modes : List String := []
  deriving Inhabited

namespace Grammar

/-! ## Writing grammars down -/

/-- A lexer without rules. -/
def lexer (name : String) : Grammar := { name, kind := .lexer, modes := ["DEFAULT_MODE"] }

/-- A parser without rules, over the tokens of a lexer. -/
def parser (name : String) (vocabulary : GrammarInfo) : Grammar :=
  { name, kind := .parser, vocabulary }

/-- Adds a rule to the current mode. -/
def addRule (g : Grammar) (r : RuleDef) : Grammar :=
  { g with rules := g.rules ++ [{ r with mode := g.modes.length - 1 }] }

/-- Adds a rule. -/
def rule (g : Grammar) (name : String) (body : Element) : Grammar := g.addRule { name, body }

/-- Adds a rule to which only other rules can refer. -/
def fragment (g : Grammar) (name : String) (body : Element) : Grammar :=
  g.addRule { name, body, fragment := true }

/-- Starts a mode; the rules that follow belong to it. -/
def mode (g : Grammar) (name : String) : Grammar := { g with modes := g.modes ++ [name] }

/-- Adds a left-recursive rule, its operators listed from the tightest to the loosest. -/
def leftRecursive (g : Grammar) (name : String) (primaries : List Element) (ops : List Operator) :
    Grammar :=
  g.addRule { name, body := Operator.body name primaries ops, leftRecursive := true }

/-- Gives the first rule of a name its version. -/
def setVersion (g : Grammar) (name : String) (version : Int) : Grammar :=
  match g.rules.findIdx? (·.name == name) with
  | some i => { g with rules := g.rules.modify i ({ · with version }) }
  | none => g

/-! ## What follows from the rules -/

/-- Is it a lexer? -/
def isLexer (g : Grammar) : Bool := g.kind == .lexer

/-- The token types of the rules, counted from `next` on; fragments have none. -/
def typesFrom : Int → List RuleDef → List Int
  | _, [] => []
  | next, r :: rest =>
    if r.fragment then invalidType :: typesFrom next rest else next :: typesFrom (next + 1) rest

/-- The token type of each rule of a lexer. -/
def tokenTypes (g : Grammar) : List Int := typesFrom minTokenType g.rules

/-- The quoted literal that a rule consists of. -/
def literal? : Element → Option String
  | .literal text => some ("'" ++ text ++ "'")
  | _ => none

/-- The names of the token types of a lexer: none for type 0, then those of its rules in order. -/
def tokenNames (g : Grammar) (name : RuleDef → Option String) : List (Option String) :=
  none :: (g.rules.filter (!·.fragment)).map name

/-- The names of a grammar. -/
def info (g : Grammar) : GrammarInfo :=
  let base : GrammarInfo := {
    name := g.name
    ruleNames := g.rules.map (·.name)
    ruleVersions := g.rules.map (·.version)
    channelNames := ["DEFAULT_TOKEN_CHANNEL", "HIDDEN"] }
  if g.isLexer then
    { base with
      literalNames := g.tokenNames (literal? ·.body)
      symbolicNames := g.tokenNames (some ·.name)
      modeNames := g.modes }
  else
    { base with
      literalNames := g.vocabulary.literalNames
      symbolicNames := g.vocabulary.symbolicNames }

end Grammar

end AdaptiveLL
