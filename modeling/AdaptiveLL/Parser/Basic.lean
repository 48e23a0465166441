import AdaptiveLL.ParseTree
import AdaptiveLL.Prediction.Adaptive

/-!
# Parsers

A parser walks the network of a grammar along a stream of tokens, predicts each decision and builds
the tree of the rules that it goes through. The node of the rule in progress and its ancestors are the
call stack.

The tree of a left-recursive rule grows from the inside: each further operator makes what was built so
far the first child of a new node of the same rule, which takes its place under the caller
(`wrapContext`), and only the last of these nodes is attached to the caller (`leaveRecursion`).
-/

set_option autoImplicit false

namespace AdaptiveLL

/-! ## User code -/

/-- The user code of a parser grammar, with a state that it shares with the user code of the lexer. -/
structure ParserHooks (η : Type) where
  predicate : (rule pred : Nat) → η → Bool × η
  action : (rule action : Nat) → η → η

/-- The hooks of a grammar without user code: every predicate holds and no action does anything. -/
def ParserHooks.silent {η : Type} : ParserHooks η where
  predicate _ _ h := (true, h)
  action _ _ h := h

/-! ## Parsers -/

/-- What a parser remembers of an error until it matches a token again. -/
structure Recovery where
  /-- Was an error reported, so that further ones are not? -/
  active : Bool := false
  /-- The place of the last recovery. -/
  lastIndex : Option Nat := none
  /-- The states of the recoveries since the last match. -/
  lastStates : List Nat := []
  deriving DecidableEq, Inhabited

/-- The caller of a left-recursive rule: its node and the calling state. -/
structure Caller where
  node : Option Nat
  invoking : Option Nat
  deriving DecidableEq, Inhabited

/-- A parser. The type `η` is that of the state of the user code. -/
structure Parser (η : Type) where
  net : Network
  info : GrammarInfo
  hooks : ParserHooks η
  sim : Simulator η
  buildTrees : Bool := true
  tree : ParseTree := {}
  /-- The node of the rule in progress. -/
  ctx : Nat := 0
  state : Nat := 0
  /-- The precedences of the left-recursive calls in progress, innermost first. -/
  precedences : List Int := [0]
  /-- The callers of the left-recursive rules in progress, innermost first. -/
  callers : List Caller := []
  recovery : Recovery := {}
  syntaxErrors : Nat := 0
  matchedEof : Bool := false
  logger : Logger := {}
  /-- The generation of learned automata that the parser works on. -/
  generation : Nat := 0

namespace Parser

variable {η : Type}

/-- A step of a parser. -/
abbrev ParseM (η : Type) := StateT (Parser η) Session

/-- A step of a parser that may find a syntax error. -/
abbrev WalkM (η : Type) := ExceptT RecognitionError (ParseM η)

/-- A step that meets no syntax error, as a part of a walk. -/
def sure {α : Type} (step : ParseM η α) : WalkM η α := ExceptT.lift step

/-- The stream of tokens. -/
def stream (p : Parser η) : TokenStream η := p.sim.stream

/-- Changes the state of the user code. -/
def setUserState (p : Parser η) (h : η) : Parser η :=
  { p with sim := { p.sim with stream := p.stream.setHooks h } }

/-- The states that called the rules in progress, outermost first. -/
def callStack (p : Parser η) : List Nat := p.tree.callStack p.ctx

/-- The precedence of the innermost call in progress. -/
def precedence (p : Parser η) : Int := p.precedences.headD (-1)

/-- The text of a token in a written tree. -/
def leafText (p : Parser η) (t : Token) : String :=
  if t.isEof then "<EOF>" else p.stream.tokenText t

/-- The subtree at a node as nested lists. -/
def renderTree (p : Parser η) (id : Nat) : String :=
  p.tree.render p.info.ruleNames p.leafText id

/-! ## Steps on the parts -/

/-- A step of the predictions. -/
def onSimulator {α : Type} (step : Simulator.PredictM η α) : ParseM η α := do
  let p ← get
  let (a, sim) ← step.run p.sim
  set { p with sim }
  return a

/-- A step on the tokens. -/
def onStream {α : Type} (step : TokenStream.StreamM η α) : ParseM η α :=
  onSimulator (Simulator.onStream step)

/-- Changes the tree. -/
def onTree (f : ParseTree → ParseTree) : ParseM η Unit := modify fun p => { p with tree := f p.tree }

/-- Adds a rule node. -/
def addRule (rule : Nat) (parent invoking : Option Nat) : ParseM η Nat :=
  modifyGet fun p =>
    let (id, tree) := p.tree.addRule rule parent invoking
    (id, { p with tree })

/-- Asks a predicate of the user. -/
def askPredicate (rule pred : Nat) : ParseM η Bool :=
  modifyGet fun p =>
    let (answer, h) := p.hooks.predicate rule pred p.stream.hooks
    (answer, p.setUserState h)

/-- Runs an action of the user. -/
def runAction (rule action : Nat) : ParseM η Unit :=
  modify fun p => p.setUserState (p.hooks.action rule action p.stream.hooks)

/-- The type of the token `k` places ahead. -/
def la (fuel : Nat) (k : Int) : ParseM η Int := onStream (TokenStream.la fuel k)

/-- The place of the token `k` places ahead. -/
def tokenIndex (fuel : Nat) (k : Int) : ParseM η (Option Nat) := do
  return (← onStream (TokenStream.lt fuel k)).bind (·.index)

/-- Stands for the current token of a stream without tokens. -/
def noToken : Token where
  type := endOfInput
  channel := defaultChannel
  start := 0
  stop := 0
  line := 0
  column := 0
  index := none
  text := some "<EOF>"

/-- The current token. -/
def currentToken (fuel : Nat) : ParseM η Token := do
  return (← onStream (TokenStream.lt fuel 1)).getD noToken

/-- Passes the current token into the tree: as an error node during recovery. -/
def consume (fuel : Nat) : ParseM η Unit := do
  let t ← currentToken fuel
  if !t.isEof then onStream (TokenStream.consume fuel)
  let p ← get
  if p.buildTrees then
    onTree fun tree => (tree.addLeaf p.ctx (if p.recovery.active then .error t else .token t)).2

/-! ## Rules -/

/-- Enters a rule and attaches its node. -/
def enterRule (fuel node state : Nat) : ParseM η Unit := do
  modify ({ · with state, ctx := node })
  let start ← tokenIndex fuel 1
  onTree (·.modify node ({ · with start }))
  let p ← get
  if p.buildTrees then
    match p.tree.parent? node with
    | some parent => onTree (·.addChild parent node)
    | none => pure ()

/-- Leaves a rule: back to the calling state and to the node of the caller. -/
def exitRule (fuel : Nat) : ParseM η Unit := do
  let stop ← tokenIndex fuel (-1)
  modify fun p =>
    let n := p.tree.node p.ctx
    { p with
      tree := p.tree.modify p.ctx ({ · with stop })
      state := n.invoking.getD p.state
      ctx := n.parent.getD p.ctx }

/-- Enters a left-recursive rule at a precedence. -/
def enterRecursion (fuel node state : Nat) (precedence : Int) : ParseM η Unit := do
  modify fun p =>
    let n := p.tree.node node
    { p with
      callers := ⟨n.parent, n.invoking⟩ :: p.callers
      state
      precedences := precedence :: p.precedences
      ctx := node }
  let start ← tokenIndex fuel 1
  onTree (·.modify node ({ · with start }))

/-- Makes the node in progress the first child of a new node of the same left-recursive rule. -/
def wrapContext (fuel outer state : Nat) : ParseM η Unit := do
  let inner := (← get).ctx
  let stop ← tokenIndex fuel (-1)
  onTree (·.modify inner ({ · with parent := some outer, invoking := some state, stop }))
  modify fun p =>
    let start := (p.tree.node inner).start
    { p with ctx := outer, tree := p.tree.modify outer ({ · with start }) }
  if (← get).buildTrees then onTree (·.addChild outer inner)

/-- Leaves a left-recursive rule and attaches its last node to the caller. -/
def leaveRecursion (fuel : Nat) (parent : Option Nat) : ParseM η Unit := do
  modify fun p => { p with precedences := p.precedences.tail }
  let stop ← tokenIndex fuel (-1)
  let p ← get
  onTree (·.modify p.ctx ({ · with stop, parent }))
  match parent with
  | none => pure ()
  | some caller =>
    modify ({ · with ctx := caller })
    if p.buildTrees then onTree (·.addChild caller p.ctx)

/-- Takes the innermost caller of a left-recursive rule. -/
def popCaller : ParseM η (Option Caller) :=
  modifyGet fun p => (p.callers.head?, { p with callers := p.callers.tail })

end Parser

end AdaptiveLL
