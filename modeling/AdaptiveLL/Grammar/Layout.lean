import AdaptiveLL.Grammar.Compiled
import AdaptiveLL.Grammar.Nullable
import AdaptiveLL.Network.Encode

/-!
# Compiling grammars

`Grammar.layOut` lays the rules of a grammar out as a network. Each element becomes a segment with a
left and a right end; a block stands around alternatives, and a loop adds an entry or a way back, at
which the decision between one more round and the exit is made. The greedy order puts the round
first, the other order the exit. `Grammar.compile` checks the grammar, lays it out and writes the
words.
-/

set_option autoImplicit false

namespace AdaptiveLL

/-- The two ends of a laid out element. -/
structure Segment where
  left : Nat
  right : Nat
  deriving DecidableEq, Inhabited

/-- A step of the layout. -/
abbrev Layout := StateT Network (Except BuildError)

namespace Layout

/-! ## States and edges -/

/-- Adds a state. -/
def addState (rule : Option Nat) (kind : StateKind) : Layout Nat :=
  modifyGet (·.addState rule kind)

/-- Adds a transition behind the others of a state. -/
def addTransition (n : Nat) (t : Transition) : Layout Unit :=
  modify (·.modifyState n (·.addTransition t))

/-- Joins two states by a transition that asks for nothing. -/
def join (a b : Nat) : Layout Unit := addTransition a (.epsilon b)

/-- Makes a state a decision. -/
def decide (n : Nat) : Layout Unit := modify fun net => (net.defineDecision n).2

/-- Changes the kind of a state. -/
def setKind (n : Nat) (kind : StateKind) : Layout Unit := modify (·.modifyState n ({ · with kind }))

/-- Marks a decision as greedy or not. -/
def setGreedy (n : Nat) (greedy : Bool) : Layout Unit :=
  modify (·.modifyState n ({ · with nonGreedy := !greedy }))

/-- Two new states joined by a transition. -/
def edge (rule : Nat) (label : Label) : Layout Segment := do
  let left ← addState rule .basic
  let right ← addState rule .basic
  addTransition left ⟨right, label⟩
  return ⟨left, right⟩

/-- One symbol. A symbol beyond 16 bits has a written form only as a set. -/
def atom (rule : Nat) (v : Int) : Layout Segment :=
  edge rule (if v > 0xFFFF then .set (.singleton v) else .atom v)

/-- One symbol of a range. -/
def range (rule : Nat) (lo hi : Int) : Layout Segment :=
  if lo = hi then atom rule lo
  else edge rule (if hi > 0xFFFF then .set (.ofRange lo hi) else .range lo hi)

/-- The symbols of a text, one after the other, behind a state that is already there. -/
def chars (rule : Nat) : Nat → List Char → Layout Nat
  | last, [] => pure last
  | last, c :: rest => do
    let s ← atom rule c.toNat
    join last s.left
    chars rule s.right rest

/-- Joins the segments of a sequence. -/
def joinAll : List Segment → Layout Unit
  | a :: b :: rest => do
    join a.right b.left
    joinAll (b :: rest)
  | _ => pure ()

/-- An action of the lexer; equal actions share one place in the table. -/
def lexerAction (rule : Nat) (a : LexerAction) : Layout Segment := do
  let net ← get
  let i ← match net.actions.findIdx? (· == a) with
    | some i => pure i
    | none => do
      set { net with actions := net.actions.push a }
      pure net.actions.size
  edge rule (.action rule (some i) false)

/-- The token type of a name. -/
def tokenType (g : Grammar) (rule : Nat) (name : String) : Layout Nat :=
  match g.vocabulary.tokenType name with
  | some t => pure t
  | none => throw (.undefinedToken (g.info.ruleName rule) name)

/-! ## Blocks and loops -/

/-- The start and the end of a block around alternatives; with several of them, a decision. -/
def block (rule : Nat) (kind : BlockKind) (alts : List Segment) : Layout Segment := do
  let start ← addState rule (.blockStart kind none)
  if alts.length > 1 then decide start
  let stop ← addState rule (.blockEnd (some start))
  setKind start (.blockStart kind (some stop))
  alts.forM fun a => do
    join start a.left
    join a.right stop
  return ⟨start, stop⟩

/-- Joins a decision with the two ways that it decides between: one more round, or the exit. -/
def choice (n round exit : Nat) (greedy : Bool) : Layout Unit :=
  if greedy then do
    join n round
    join n exit
  else do
    join n exit
    join n round

/-- Alternatives that may be passed by. -/
def optionalBlock (rule : Nat) (greedy : Bool) (alts : List Segment) : Layout Segment := do
  let b ← block rule .basic alts
  if ((← get).state b.left).decision.isNone then decide b.left
  setGreedy b.left greedy
  modify (·.modifyState b.left fun s =>
    if greedy then s.addTransition (.epsilon b.right) else s.insertTransition 0 (.epsilon b.right))
  return b

/-- A loop that is entered before its first round. -/
def starLoop (rule : Nat) (greedy : Bool) (alts : List Segment) : Layout Segment := do
  let b ← block rule .star alts
  let entry ← addState rule (.starLoopEntry none false)
  decide entry
  setGreedy entry greedy
  let back ← addState rule .starLoopBack
  let stop ← addState rule (.loopEnd (some back))
  setKind entry (.starLoopEntry (some back) false)
  choice entry b.left stop greedy
  join b.right back
  join back entry
  return ⟨entry, stop⟩

/-- A loop that is left or repeated after each round. -/
def plusLoop (rule : Nat) (greedy : Bool) (alts : List Segment) : Layout Segment := do
  let b ← block rule .plus alts
  let back ← addState rule .plusLoopBack
  decide back
  setGreedy back greedy
  let stop ← addState rule (.loopEnd (some back))
  join b.right back
  choice back b.left stop greedy
  return ⟨b.left, stop⟩

/-- A repetition of alternatives. -/
def repetition (rule : Nat) (q : Quantifier) (greedy : Bool) (alts : List Segment) :
    Layout Segment :=
  match q with
  | .optional => optionalBlock rule greedy alts
  | .star => starLoop rule greedy alts
  | .plus => plusLoop rule greedy alts

/-! ## Elements -/

/-- An element that holds no others. -/
def leaf (g : Grammar) (rule : Nat) : Element → Layout Segment
  | .symbol v => atom rule v
  | .token name => do
    if g.isLexer then throw .tokenInLexer
    atom rule (← tokenType g rule name)
  | .literal text => do
    if g.isLexer then
      let left ← addState rule .basic
      return ⟨left, ← chars rule left text.toList⟩
    else atom rule (← tokenType g rule ("'" ++ text ++ "'"))
  | .range lo hi => do
    if hi < lo then throw (.emptyRange lo hi)
    range rule lo hi
  | .set s => edge rule (.set s)
  | .notSet s => edge rule (.notSet s)
  | .wildcard => edge rule .wildcard
  | .eof => atom rule endOfInput
  | .rule name precedence => do
    let callee ← g.ruleIndex name
    let left ← addState rule .basic
    let right ← addState rule .basic
    addTransition left ⟨(← get).ruleStart callee, .rule callee precedence right⟩
    return ⟨left, right⟩
  | .predicate pred ctx => edge rule (.predicate rule pred ctx)
  | .precedence p => do
    if g.isLexer then throw .precedenceInLexer
    edge rule (.precedence p)
  | .action i =>
    if g.isLexer then lexerAction rule (.custom rule i) else edge rule (.action rule (some i) false)
  | .command a => do
    if !g.isLexer then throw .commandInParser
    lexerAction rule a
  | .seq _ | .alt _ | .repeated _ _ _ => edge rule (.epsilon none)

mutual

/-- Lays out an element of a rule. -/
def element (g : Grammar) (rule : Nat) : Element → Layout Segment
  | .seq es => do
    match ← elements g rule es with
    | [] => edge rule (.epsilon none)
    | first :: rest =>
      joinAll (first :: rest)
      return ⟨first.left, ((first :: rest).getLast?.getD first).right⟩
  | .alt es => do
    if es.isEmpty then throw .noAlternatives
    match ← elements g rule es with
    | [only] => return only
    | alts => block rule .basic alts
  | .repeated q greedy (.alt es) => do
    if es.isEmpty then throw .noAlternatives
    repetition rule q greedy (← elements g rule es)
  | .repeated q greedy body => do repetition rule q greedy [← element g rule body]
  | e => leaf g rule e

/-- Lays out elements in order. -/
def elements (g : Grammar) (rule : Nat) : List Element → Layout (List Segment)
  | [] => pure []
  | e :: rest => do
    let s ← element g rule e
    return s :: (← elements g rule rest)

end

/-! ## Rules and modes -/

/-- The start and the stop state of a rule. -/
def ruleEnds (r : RuleDef × Nat) : Layout Unit := do
  let start ← addState r.2 (.ruleStart none r.1.leftRecursive)
  let stop ← addState r.2 .ruleStop
  setKind start (.ruleStart (some stop) r.1.leftRecursive)
  modify fun net => { net with
    ruleStarts := net.ruleStarts.push start, ruleStops := net.ruleStops.push (some stop) }

/-- The entry of a mode. -/
def modeStart : Layout Unit := do
  let n ← addState none .tokenStart
  modify fun net => { net with modeStarts := net.modeStarts.push n }
  decide n

/-- The entries of the modes of a lexer, each with the token rules of its mode. -/
def modes (g : Grammar) : Layout Unit := do
  modify fun net => { net with ruleTypes := g.tokenTypes.toArray }
  g.modes.forM fun _ => modeStart
  g.rules.zipIdx.forM fun (r, i) => do
    if !r.fragment then
      let net ← get
      join (net.modeStarts.getD r.mode 0) (net.ruleStart i)

/-- The body of a rule between its start and its stop state. -/
def ruleBody (g : Grammar) (r : RuleDef × Nat) : Layout Unit := do
  let body ← element g r.2 r.1.body
  let net ← get
  join (net.ruleStart r.2) body.left
  join body.right ((net.ruleStop? r.2).getD 0)

/-- All rules of a grammar. -/
def grammar (g : Grammar) : Layout Unit := do
  g.rules.zipIdx.forM ruleEnds
  if g.isLexer then modes g
  g.rules.zipIdx.forM (ruleBody g)
  modify fun net => { net with states := net.states.map State.refresh }

end Layout

namespace Grammar

/-- The network of a grammar. -/
def layOut (g : Grammar) : Except BuildError Network := do
  let names := if g.isLexer then g.info else g.vocabulary
  let net : Network := { kind := g.kind, maxTokenType := max names.maxTokenType 0 }
  return (← (Layout.grammar g).run net).2

/-- Refuses an action that leads to an unknown mode. -/
def checkMode (g : Grammar) (a : LexerAction) : Except BuildError Unit :=
  if a.mode?.any (g.modes.length ≤ ·) then .error (.unknownMode g.name a) else .ok ()

/-- Checks a grammar, lays it out and writes its words. -/
def compile (g : Grammar) : Except BuildError CompiledGrammar := do
  if g.rules.isEmpty then throw (.noRules g.name)
  let known ← g.nullableRules
  g.rules.forM fun r => g.checkLoops known r.name r.body
  let net ← g.layOut
  net.actions.toList.forM g.checkMode
  match net.encode with
  | .ok words => return { kind := g.kind, info := g.info, words }
  | .error e => throw (.encode e)

end Grammar

end AdaptiveLL
