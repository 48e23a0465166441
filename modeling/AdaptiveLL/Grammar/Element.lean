import AdaptiveLL.Lexer.Action
import AdaptiveLL.SymbolSet

/-!
# Rule bodies

The body of a rule is a tree of elements: symbols and sets of symbols, references to tokens and
rules, predicates and actions, sequences, alternatives and repetitions.
-/

set_option autoImplicit false

namespace AdaptiveLL

/-- How often the body of a repetition may occur. -/
inductive Quantifier where
  /-- At most once. -/
  | optional
  /-- Any number of times. -/
  | star
  /-- At least once. -/
  | plus
  deriving DecidableEq, Inhabited

/-- A piece of a rule body. -/
inductive Element where
  /-- One symbol: a token type for a parser, a code point for a lexer. -/
  | symbol (v : Int)
  /-- A token by its name, for parsers. -/
  | token (name : String)
  /-- The characters of a text for a lexer; for a parser the token that has this literal. -/
  | literal (text : String)
  | range (lo hi : Int)
  | set (symbols : SymbolSet)
  | notSet (symbols : SymbolSet)
  | wildcard
  | eof
  | rule (name : String) (precedence : Int)
  | predicate (pred : Nat) (ctxDependent : Bool)
  | precedence (precedence : Int)
  /-- A custom action of the rule. -/
  | action (index : Nat)
  /-- A command for the lexer. -/
  | command (action : LexerAction)
  | seq (elements : List Element)
  | alt (elements : List Element)
  /-- A repetition. A greedy one goes on as long as it can, any other stops as soon as it can. -/
  | repeated (quantifier : Quantifier) (greedy : Bool) (body : Element)
  deriving Inhabited

namespace Element

/-- A reference to a rule. -/
def ref (name : String) : Element := .rule name 0

/-- A character from `a` to `b`. -/
def chars (a b : Char) : Element := .range a.toNat b.toNat

/-- One of the characters of a text. -/
def oneOf (chars : String) : Element := .set (.ofChars chars)

/-- Any character that is not in the text. -/
def noneOf (chars : String) : Element := .notSet (.ofChars chars)

/-- At most one occurrence, if possible one. -/
def opt (body : Element) : Element := .repeated .optional true body

/-- Any number of occurrences, as many as possible. -/
def star (body : Element) : Element := .repeated .star true body

/-- At least one occurrence, as many as possible. -/
def plus (body : Element) : Element := .repeated .plus true body

/-- A predicate of the rule. -/
def pred (i : Nat) : Element := .predicate i false

end Element

/-! ## Operators of left-recursive rules -/

/-- To which side equal operators group. -/
inductive Assoc where
  | left
  | right
  deriving DecidableEq, Inhabited

/-- An alternative of a left-recursive rule that begins with the rule itself. -/
inductive Operator where
  /-- Operand, operator, operand. -/
  | binary (op : Element) (assoc : Assoc)
  /-- Operand, operator. -/
  | suffix (op : Element)
  deriving Inhabited

namespace Operator

/-- What follows the first operand, guarded by the precedence of the operator. The second operand of
an operator that groups to the left may hold only tighter operators. -/
def tail (rule : String) (precedence : Int) : Operator → Element
  | .binary op assoc =>
    let next := match assoc with
      | .left => precedence + 1
      | .right => precedence
    .seq [.precedence precedence, op, .rule rule next]
  | .suffix op => .seq [.precedence precedence, op]

/-- The tails of the operators of a rule, listed from the tightest to the loosest. -/
def tails (rule : String) (ops : List Operator) : List Element :=
  ops.zipIdx.map fun (op, i) => op.tail rule ((ops.length : Int) - i)

/-- The body of a left-recursive rule: a primary, then operators as long as their precedence
allows. -/
def body (rule : String) (primaries : List Element) (ops : List Operator) : Element :=
  .seq [.alt primaries, .star (.alt (tails rule ops))]

end Operator

end AdaptiveLL
