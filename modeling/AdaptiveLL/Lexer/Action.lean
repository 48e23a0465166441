import AdaptiveLL.CharStream

/-!
# Lexer actions

The commands of a lexer rule run once its token has been matched. Plain commands change the state
of the token that is being built; a custom action calls user code, which may look at the input, so
the place in the input matters to it. While the lexer looks for the longest match, a custom action
is pinned to the number of code points matched before it (`pin`); when the token is complete, the
actions run in order (`runActions`), each custom one with the input at its own place, and the input
ends where it began.
-/

set_option autoImplicit false

namespace AdaptiveLL

/-! ## Actions -/

/-- A command of a lexer rule. -/
inductive LexerAction where
  | channel (channel : Int)
  /-- Calls user code. -/
  | custom (rule action : Nat)
  | mode (mode : Nat)
  | more
  | popMode
  | pushMode (mode : Nat)
  | skip
  | type (type : Int)
  /-- An action that runs with the input `offset` code points past the start of the token. -/
  | indexed (offset : Nat) (action : LexerAction)
  deriving DecidableEq, Hashable, Inhabited

namespace LexerAction

/-- Does the place of the input matter to the action? -/
def isPositionDependent : LexerAction → Bool
  | .custom _ _ | .indexed _ _ => true
  | _ => false

/-- Is it a custom action that has no place of its own yet? -/
def isCustom : LexerAction → Bool
  | .custom _ _ => true
  | _ => false

/-- Pins a custom action to an offset; every other action stays as it is. -/
def pin (offset : Nat) (a : LexerAction) : LexerAction :=
  if a.isCustom then .indexed offset a else a

/-- The mode that the action leads to, when it names one. -/
def mode? : LexerAction → Option Nat
  | .mode m | .pushMode m => some m
  | _ => none

/-- The action as messages show it. -/
def toText : LexerAction → String
  | .channel c => "Channel(" ++ toString c ++ ")"
  | .custom r a =>
    "Custom \x7b rule_index: " ++ toString r ++ ", action_index: " ++ toString a ++ " \x7d"
  | .mode m => "Mode(" ++ toString m ++ ")"
  | .more => "More"
  | .popMode => "PopMode"
  | .pushMode m => "PushMode(" ++ toString m ++ ")"
  | .skip => "Skip"
  | .type t => "Type(" ++ toString t ++ ")"
  | .indexed offset a =>
    "Indexed \x7b offset: " ++ toString offset ++ ", action: " ++ a.toText ++ " \x7d"

end LexerAction

/-! ## The token being built -/

/-- The token type by which `skip` drops a token. -/
def skipType : Int := -3

/-- The token type by which `more` keeps the text for the next match. -/
def moreType : Int := -2

/-- The state of the token that is being built, and the modes of the lexer. -/
structure LexerState where
  type : Int := invalidType
  channel : Int := defaultChannel
  mode : Nat := 0
  /-- The modes to return to, the last one entered first. -/
  modeStack : List Nat := []
  startIndex : Nat := 0
  startLine : Nat := 1
  startColumn : Nat := 0
  /-- A text that replaces the matched one. -/
  text : Option String := none
  deriving DecidableEq, Inhabited

/-- What can go wrong while an action runs. -/
inductive ActionError where
  | emptyModeStack
  deriving DecidableEq

/-- The message of a failed action. -/
def ActionError.message : ActionError → String
  | .emptyModeStack => "pop_mode with an empty mode stack"

namespace LexerState

/-- Enters a mode, to be left by `popMode`. -/
def pushMode (s : LexerState) (m : Nat) : LexerState :=
  { s with modeStack := s.mode :: s.modeStack, mode := m }

/-- Returns to the mode that the last `pushMode` left. -/
def popMode (s : LexerState) : Except ActionError LexerState :=
  match s.modeStack with
  | m :: rest => .ok { s with mode := m, modeStack := rest }
  | [] => .error .emptyModeStack

end LexerState

/-! ## User code -/

/-- The user code of a lexer grammar, with a state of its own. Predicates and actions see the input
at the place that matters to them. -/
structure LexerHooks (η : Type) where
  predicate : (input : CharStream) → (rule pred : Nat) → η → Bool × η
  action : LexerState → (input : CharStream) → (rule action : Nat) → η → LexerState × η

/-- The hooks of a grammar without user code: every predicate holds and no action does anything. -/
def LexerHooks.silent {η : Type} : LexerHooks η where
  predicate _ _ _ h := (true, h)
  action s _ _ _ h := (s, h)

/-! ## Running actions -/

/-- What running actions may change. -/
structure ActionRun (η : Type) where
  state : LexerState
  input : CharStream
  hooks : η

namespace ActionRun

variable {η : Type}

/-- Changes the state of the token. -/
def onState (r : ActionRun η) (f : LexerState → LexerState) : ActionRun η :=
  { r with state := f r.state }

/-- Moves the input. -/
def seek (r : ActionRun η) (i : Nat) : ActionRun η := { r with input := r.input.seek i }

end ActionRun

variable {η : Type}

/-- Runs one action where the input stands. A failed action changes nothing. -/
def LexerAction.run (hooks : LexerHooks η) (r : ActionRun η) :
    LexerAction → ActionRun η × Except ActionError Unit
  | .channel c => (r.onState ({ · with channel := c }), .ok ())
  | .custom rule action =>
    let (state, h) := hooks.action r.state r.input rule action r.hooks
    ({ r with state, hooks := h }, .ok ())
  | .mode m => (r.onState ({ · with mode := m }), .ok ())
  | .more => (r.onState ({ · with type := moreType }), .ok ())
  | .popMode =>
    match r.state.popMode with
    | .ok state => ({ r with state }, .ok ())
    | .error e => (r, .error e)
  | .pushMode m => (r.onState (·.pushMode m), .ok ())
  | .skip => (r.onState ({ · with type := skipType }), .ok ())
  | .type t => (r.onState ({ · with type := t }), .ok ())
  | .indexed _ a => a.run hooks r

/-- Moves the input to the place of an action, in a token that starts at `start` and ends at `stop`.
The flag says whether the input has been moved away from `stop`. -/
def LexerAction.place (start stop : Nat) (r : ActionRun η) (moved : Bool) :
    LexerAction → ActionRun η × Bool
  | .indexed offset _ => (r.seek (start + offset), start + offset ≠ stop)
  | .custom _ _ => (r.seek stop, false)
  | _ => (r, moved)

/-- Runs the actions in order up to the first that fails, then moves the input back to `stop` if it
was moved away. -/
def runActionList (hooks : LexerHooks η) (start stop : Nat) :
    List LexerAction → Bool → ActionRun η → ActionRun η × Except ActionError Unit
  | [], moved, r => (if moved then r.seek stop else r, .ok ())
  | a :: rest, moved, r =>
    let (r, moved) := a.place start stop r moved
    match a.run hooks r with
    | (r, .ok ()) => runActionList hooks start stop rest moved r
    | (r, .error e) => (r.seek stop, .error e)

/-- Runs the actions of a token that starts at `start` and ends where the input stands. -/
def runActions (hooks : LexerHooks η) (start : Nat) (actions : List LexerAction)
    (r : ActionRun η) : ActionRun η × Except ActionError Unit :=
  runActionList hooks start r.input.pos actions false r

/-- Pins every custom action that has no place yet to the offset. -/
def pinActions (offset : Nat) (actions : List LexerAction) : List LexerAction :=
  actions.map (·.pin offset)

end AdaptiveLL
