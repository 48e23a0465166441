import AdaptiveLL.Network.Error
import AdaptiveLL.Signed

/-!
# The words of a written network

The numbers that stand for kinds of grammars, states, transitions and lexer actions, and the
identifiers of the generations of the format. Each generation adds a feature and keeps those before
it.
-/

set_option autoImplicit false

namespace AdaptiveLL

/-- A unit of the written form. -/
abbrev Word := UInt16

/-- The word that stands for "none" or for -1. -/
def noneWord : Word := 0xFFFF

/-! ## Generations of the format -/

/-- The version number that every written network begins with. -/
def formatVersion : Word := 3

/-- The generations of the format, oldest first. -/
inductive Format where
  | base
  /-- Adds precedence predicates and the list of left-recursive rules. -/
  | precedence
  /-- Adds the table of lexer actions. -/
  | lexerActions
  /-- Adds sets of symbols beyond 16 bits. -/
  | wideSets
  deriving DecidableEq, Inhabited

namespace Format

/-- The generations, oldest first. -/
def all : List Format := [.base, .precedence, .lexerActions, .wideSets]

/-- The generation that is written. -/
def current : Format := .wideSets

/-- The 128-bit identifier of a generation. -/
def identifier : Format → Nat
  | .base => 0x33761B2D78BB4A438B0B4F5BEE8AACF3
  | .precedence => 0x1DA0C57D6C06438A9B2710BCB3CE0F61
  | .lexerActions => 0xAADB8D7EAEEF4415AD2B8204D6CF042E
  | .wideSets => 0x596277843BE5417AB9EB8131A7286974

/-- The generation of an identifier. -/
def ofIdentifier? (id : Nat) : Option Format := all.find? (·.identifier == id)

/-- Does the format list left-recursive rules? -/
def hasPrecedence : Format → Bool
  | .base => false
  | _ => true

/-- Does the format hold a table of lexer actions? -/
def hasLexerActions : Format → Bool
  | .base | .precedence => false
  | _ => true

/-- Does the format hold sets of symbols beyond 16 bits? -/
def hasWideSets : Format → Bool
  | .wideSets => true
  | _ => false

end Format

/-- The eight words of an identifier, the lowest 16 bits first. -/
def identifierWords (id : Nat) : List Word :=
  (List.range 8).map fun i => UInt16.ofNat (id >>> (16 * i))

/-- The identifier that words spell, the lowest 16 bits first. -/
def identifierOfWords (ws : List Word) : Nat :=
  ws.foldr (fun w id => id * 65536 + w.toNat) 0

/-- The lowest `n` hexadecimal digits of a number. -/
def hexDigits : Nat → Nat → List Char
  | 0, _ => []
  | n + 1, v => hexDigits n (v / 16) ++ [Nat.digitChar (v % 16)]

/-- The usual spelling of an identifier: hexadecimal digits in groups of 8, 4, 4, 4 and 12. -/
def identifierText (id : Nat) : String :=
  let group (shift count : Nat) := String.ofList (hexDigits count (id >>> shift))
  "-".intercalate [group 96 8, group 80 4, group 64 4, group 48 4, group 0 12]

/-! ## Numbers -/

/-- The number that stands for an optional one: -1 when there is none. -/
def linkValue : Option Nat → Int
  | some n => signed64 n
  | none => -1

/-- The number that a word stands for where -1 is allowed. -/
def wordValue (w : Word) : Int := if w = noneWord then -1 else w.toNat

/-! ## Codes -/

/-- The word of a kind of grammar. -/
def GrammarKind.code : GrammarKind → Word
  | .lexer => 0
  | .parser => 1

/-- The kind of grammar of a word. -/
def GrammarKind.ofCode? (w : Word) : Option GrammarKind :=
  if w = 0 then some .lexer else if w = 1 then some .parser else none

/-- The word of a kind of state. -/
def StateKind.code : StateKind → Word
  | .invalid => 0
  | .basic => 1
  | .ruleStart _ _ => 2
  | .blockStart .basic _ => 3
  | .blockStart .plus _ => 4
  | .blockStart .star _ => 5
  | .tokenStart => 6
  | .ruleStop => 7
  | .blockEnd _ => 8
  | .starLoopBack => 9
  | .starLoopEntry _ _ => 10
  | .plusLoopBack => 11
  | .loopEnd _ => 12

/-- The word of a kind of transition. -/
def Label.code : Label → Word
  | .epsilon _ => 1
  | .range _ _ => 2
  | .rule _ _ _ => 3
  | .predicate _ _ _ => 4
  | .atom _ => 5
  | .action _ _ _ => 6
  | .set _ => 7
  | .notSet _ => 8
  | .wildcard => 9
  | .precedence _ => 10

namespace LexerAction

/-- The word of a kind of action; a pinned action has that of the action it pins. -/
def code : LexerAction → Word
  | .channel _ => 0
  | .custom _ _ => 1
  | .mode _ => 2
  | .more => 3
  | .popMode => 4
  | .pushMode _ => 5
  | .skip => 6
  | .type _ => 7
  | .indexed _ a => a.code

/-- The word and the two operands of an action. Pinned actions are never written. -/
def encode (a : LexerAction) : Except EncodeError (Word × Int × Int) :=
  match a with
  | .channel c => .ok (a.code, c, 0)
  | .custom rule action => .ok (a.code, signed32 rule, signed32 action)
  | .mode m | .pushMode m => .ok (a.code, signed32 m, 0)
  | .more | .popMode | .skip => .ok (a.code, 0, 0)
  | .type t => .ok (a.code, t, 0)
  | .indexed _ _ => .error .indexedAction

/-- An operand that has to be an index. -/
def indexOperand (code : Word) (v : Int) : Except Malformation Nat :=
  if v < 0 then .error (.actionOperand v code.toNat) else .ok v.toNat

/-- The action of a word and two operands. -/
def decode (code : Word) (a b : Int) : Except Malformation LexerAction :=
  match code.toNat with
  | 0 => .ok (.channel a)
  | 1 => do return .custom (← indexOperand code a) (← indexOperand code b)
  | 2 => do return .mode (← indexOperand code a)
  | 3 => .ok .more
  | 4 => .ok .popMode
  | 5 => do return .pushMode (← indexOperand code a)
  | 6 => .ok .skip
  | 7 => .ok (.type a)
  | n => .error (.actionType n)

end LexerAction

/-! ## Shifted words

Words embedded in program text are shifted by 2, all but the first. -/

/-- Shifts every word but the first. -/
def shiftWords : List Word → List Word
  | [] => []
  | w :: rest => w :: rest.map (· + 2)

/-- Undoes `shiftWords`. -/
def unshiftWords : List Word → List Word
  | [] => []
  | w :: rest => w :: rest.map (· - 2)

end AdaptiveLL
