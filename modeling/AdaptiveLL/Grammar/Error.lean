import AdaptiveLL.Network.Error
import AdaptiveLL.Text.Quoted

/-!
# Faults of grammars

Why a grammar cannot be compiled.
-/

set_option autoImplicit false

namespace AdaptiveLL

/-- Why a grammar cannot be compiled. -/
inductive BuildError where
  | noRules (grammar : String)
  | undefinedRule (name grammar : String)
  /-- A loop whose body can match nothing would never end. -/
  | emptyLoop (rule : String)
  | tokenInLexer
  | undefinedToken (rule token : String)
  | emptyRange (lo hi : Int)
  | precedenceInLexer
  | commandInParser
  | noAlternatives
  | unknownMode (grammar : String) (action : LexerAction)
  | encode (cause : EncodeError)
  deriving DecidableEq

/-- The message of a refused grammar. -/
def BuildError.message : BuildError → String
  | .noRules g => s!"grammar {g} has no rules"
  | .undefinedRule name g => s!"undefined rule {Text.quoted name} in grammar {g}"
  | .emptyLoop rule =>
    s!"rule {rule} contains a closure with at least one alternative that can match an empty string"
  | .tokenInLexer => "token references are only valid in parsers"
  | .undefinedToken rule token => s!"rule {rule} refers to undefined token {Text.quoted token}"
  | .emptyRange lo hi => s!"empty range {lo}..{hi}"
  | .precedenceInLexer => "precedence predicates are not supported in lexers"
  | .commandInParser => "lexer commands are only valid in lexers"
  | .noAlternatives => "empty alternative list"
  | .unknownMode g a => s!"grammar {g}: {a.toText} names an unknown mode"
  | .encode cause => cause.message

end AdaptiveLL
