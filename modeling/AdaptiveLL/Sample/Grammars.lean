import AdaptiveLL.Grammar.Layout

/-!
# Sample grammars

A small expression language with its tokens, and two parsers over the same tokens that show
ambiguity, sensitivity to context and predicates.
-/

set_option autoImplicit false

namespace AdaptiveLL.Sample

open Element

/-- The tokens of the expression language. Keywords stand before identifiers, so that they win. -/
def exprLexer : Grammar :=
  (Grammar.lexer "ExprLexer")
    |>.rule "IF" (.literal "if")
    |>.rule "ID" (plus (chars 'a' 'z'))
    |>.rule "INT" (plus (chars '0' '9'))
    |>.rule "EQ" (.literal "=")
    |>.rule "EQEQ" (.literal "==")
    |>.rule "PLUS" (.literal "+")
    |>.rule "MINUS" (.literal "-")
    |>.rule "STAR" (.literal "*")
    |>.rule "SLASH" (.literal "/")
    |>.rule "CARET" (.literal "^")
    |>.rule "LPAREN" (.literal "(")
    |>.rule "RPAREN" (.literal ")")
    |>.rule "SEMI" (.literal ";")
    |>.rule "WS" (.seq [plus (oneOf " \t\r\n"), .command .skip])
    |>.rule "COMMENT" (.seq [.literal "#", star (noneOf "\n"), .command (.channel hiddenChannel)])

/-- The names of the tokens of the expression language. -/
def vocabulary : GrammarInfo := exprLexer.info

/-- Statements over expressions. Powers bind tightest and group to the right, then products, then
sums. -/
def exprParser : Grammar :=
  (Grammar.parser "Expr" vocabulary)
    |>.rule "prog" (.seq [plus (ref "stat"), .eof])
    |>.rule "stat" (.alt [
      .seq [.token "ID", .literal "=", ref "expr", .literal ";"],
      .seq [.token "IF", ref "expr", ref "stat"],
      .seq [ref "expr", .literal ";"]])
    |>.leftRecursive "expr"
      [.token "INT", .token "ID", .seq [.literal "(", ref "expr", .literal ")"]]
      [.binary (.literal "^") .right,
        .binary (.alt [.literal "*", .literal "/"]) .left,
        .binary (.alt [.literal "+", .literal "-"]) .left]

/-- Both alternatives of `s` match the same input, and the decision in `cse` needs the calling rule to
tell its alternatives apart. -/
def ambiguousParser : Grammar :=
  (Grammar.parser "Ambig" vocabulary)
    |>.rule "s" (.alt [ref "a", ref "b"])
    |>.rule "a" (.token "ID")
    |>.rule "b" (.token "ID")
    |>.rule "cs" (.alt [.seq [.literal "=", ref "csa"], .seq [.literal "(", ref "csb"]])
    |>.rule "csa" (.seq [ref "cse", .token "ID"])
    |>.rule "csb" (.seq [ref "cse", .token "INT", .token "ID"])
    |>.rule "cse" (.alt [.token "INT", .seq []])

/-- Two predicates choose between the equal alternatives of `p`, and the first alternative of `sum`
is the beginning of the second. -/
def guardedParser : Grammar :=
  (Grammar.parser "Guarded" vocabulary)
    |>.rule "p" (.alt [.seq [pred 0, ref "a"], .seq [pred 1, ref "b"]])
    |>.rule "a" (.token "ID")
    |>.rule "b" (.token "ID")
    |>.rule "sums" (.seq [ref "sum", .eof])
    |>.rule "sum" (.alt [.token "INT", .seq [.token "INT", .literal "+", .token "INT"]])

/-- The sample grammars by name. -/
def named : String → Option Grammar
  | "expr_lexer" => some exprLexer
  | "expr_parser" => some exprParser
  | "ambig_parser" => some ambiguousParser
  | "guarded_parser" => some guardedParser
  | _ => none

end AdaptiveLL.Sample
