import AdaptiveLL.Network.Basic

/-!
# Faults of written networks

A network is written as a sequence of 16-bit words. Reading fails because the words come from another
version of the format, or because they are malformed; each way to be malformed is a cause of its own,
and the wording is in one place. Writing fails when a number has no word.
-/

set_option autoImplicit false

namespace AdaptiveLL

/-- Why words are not a network. -/
inductive Malformation where
  /-- The words end too early. -/
  | endOfData (words : Nat)
  | trailingWords (count : Nat)
  | grammarType
  | stateType (type : Nat)
  | blockEndRange (state : Nat)
  | loopBackRange (state : Nat)
  | nonGreedyRange (state : Nat)
  | precedenceState (state : Nat)
  | ruleStart (state : Nat)
  | ruleStopWithoutRule (state : Nat)
  | ruleStopRule (state rule : Nat)
  | modeStart (state : Nat)
  | edgeRange (source target : Nat)
  | callTarget (state : Nat)
  | callRule (rule : Nat)
  | setRange (set : Nat)
  | transitionType (type : Nat)
  | sharedBlockEnd (state : Nat)
  | notBlockEnd (state : Nat)
  | decisionState (state : Nat)
  | actionOperand (value : Int) (type : Nat)
  | actionType (type : Nat)
  | actionMode (action : LexerAction)
  | mixedTransitions (state : Nat)
  | startWithoutStop (state : Nat)
  | blockWithoutEnd (state : Nat)
  | endWithoutBlock (state : Nat)
  | unlinkedLoopEntry (state : Nat)
  | unlinkedLoopEnd (state : Nat)
  | strayLoopBack (state : Nat)
  | undecidedLoop (state : Nat)
  | undecidedState (state : Nat)
  | branchingState (state : Nat)
  | precedenceInLexer (state : Nat)
  /-- A fault found elsewhere, in its own words. -/
  | stated (text : String)
  deriving DecidableEq

/-- The wording of a cause. -/
def Malformation.text : Malformation → String
  | .endOfData n => s!"unexpected end of data at word {n}"
  | .trailingWords n => s!"{n} trailing words after the automaton"
  | .grammarType => "unknown grammar type"
  | .stateType t => s!"unknown state type {t}"
  | .blockEndRange s => s!"block end {s} out of range"
  | .loopBackRange s => s!"loop back {s} out of range"
  | .nonGreedyRange s => s!"non-greedy state {s} out of range"
  | .precedenceState s => s!"precedence state {s} is not a rule start"
  | .ruleStart s => s!"rule start {s} is not a rule start state"
  | .ruleStopWithoutRule s => s!"rule stop {s} has no rule"
  | .ruleStopRule s r => s!"rule stop {s} names unknown rule {r}"
  | .modeStart s => s!"mode start {s} is not a token start state"
  | .edgeRange a b => s!"edge {a} -> {b} out of range"
  | .callTarget s => s!"rule transition target {s} is not a rule start"
  | .callRule r => s!"rule transition names unknown rule {r}"
  | .setRange i => s!"set {i} out of range"
  | .transitionType t => s!"unknown transition type {t}"
  | .sharedBlockEnd s => s!"block end {s} has two starts"
  | .notBlockEnd s => s!"state {s} is not a block end"
  | .decisionState s => s!"decision state {s} is not a decision state"
  | .actionOperand v t => s!"negative operand {v} for lexer action {t}"
  | .actionType t => s!"unknown lexer action type {t}"
  | .actionMode a => s!"lexer action {a.toText} names unknown mode"
  | .mixedTransitions s => s!"state {s} mixes consuming and non-consuming transitions"
  | .startWithoutStop s => s!"rule start {s} has no stop state"
  | .blockWithoutEnd s => s!"block start {s} has no end state"
  | .endWithoutBlock s => s!"block end {s} has no start state"
  | .unlinkedLoopEntry s => s!"star loop entry {s} is not linked"
  | .unlinkedLoopEnd s => s!"loop end {s} has no loop back"
  | .strayLoopBack s => s!"star loop back {s} must lead to its loop entry"
  | .undecidedLoop s => s!"plus loop back {s} is not a decision"
  | .undecidedState s => s!"state {s} has several alternatives but no decision"
  | .branchingState s => s!"non-decision state {s} has several transitions"
  | .precedenceInLexer s => s!"precedence predicates are not supported in lexers (state {s})"
  | .stated text => text

/-- Why words were refused. -/
inductive LoadError where
  | versionMismatch (found expected : String)
  | malformed (cause : Malformation)
  deriving DecidableEq

/-- The message of a refusal. -/
def LoadError.message : LoadError → String
  | .versionMismatch found expected =>
    s!"Could not deserialize ATN with {found} (expected {expected})."
  | .malformed cause => "malformed ATN: " ++ cause.text

/-- Why a network cannot be written. -/
inductive EncodeError where
  | wordRange (value : Int)
  | indexedAction
  | unknownSet (symbols : SymbolSet)
  deriving DecidableEq

/-- The message of a failed writing. -/
def EncodeError.message : EncodeError → String
  | .wordRange v => s!"value {v} does not fit in a serialized word"
  | .indexedAction => "indexed lexer actions are not serializable"
  | .unknownSet s => s!"set {s.toText} was not collected"

end AdaptiveLL
