import AdaptiveLL.Network.Words

/-!
# Reading networks

`Network.decode` reads the words of any generation of the format. After the states come lists, each
preceded by its length, and every reference in them is checked when it is read. From what was read
the reader derives the transitions from the end of a rule back to the states that follow its calls,
the links between the ends of blocks and loops, and the marks on the loops of left-recursive rules.
No word may be left over.
-/

set_option autoImplicit false

namespace AdaptiveLL

/-! ## Reading words -/

/-- The words still to be read, and how many were read before them. -/
structure WordCursor where
  rest : List Word
  read : Nat := 0

/-- A step of reading. -/
abbrev Decode := StateT WordCursor (Except LoadError)

namespace Decode

/-- Refuses the words for a cause. -/
def refuse {α : Type} (cause : Malformation) : Decode α := throw (.malformed cause)

/-- Refuses the words unless a condition holds. -/
def check (holds : Bool) (cause : Malformation) : Decode Unit :=
  if holds then pure () else refuse cause

/-- The next word. -/
def word : Decode Word := do
  let cursor ← get
  match cursor.rest with
  | w :: rest => set { rest, read := cursor.read + 1 : WordCursor }; return w
  | [] => refuse (.endOfData cursor.read)

/-- The next word as an index or a count. -/
def index : Decode Nat := return (← word).toNat

/-- The next word as a number that may be -1. -/
def signedWord : Decode Int := return wordValue (← word)

/-- The next word as an index that may be absent. -/
def optional : Decode (Option Nat) := do
  let w ← word
  return if w = noneWord then none else some w.toNat

/-- The same step, several times. -/
def times {α : Type} : Nat → Decode α → Decode (List α)
  | 0, _ => pure []
  | n + 1, step => do
    let a ← step
    return a :: (← times n step)

/-- A list after its length. -/
def list {α : Type} (step : Decode α) : Decode (List α) := do
  let n ← index
  times n step

/-! ## The head -/

/-- The version and the generation of the format. -/
def format : Decode Format := do
  let version ← word
  if version ≠ formatVersion then
    throw (.versionMismatch s!"version {version.toNat}" s!"version {formatVersion.toNat}")
  let id := identifierOfWords (← times 8 word)
  match Format.ofIdentifier? id with
  | some f => return f
  | none =>
    throw (.versionMismatch ("UUID " ++ identifierText id)
      ("UUID " ++ identifierText Format.current.identifier ++ " or a legacy UUID"))

/-- The kind of the grammar and its greatest token type. -/
def grammar : Decode Network := do
  match GrammarKind.ofCode? (← word) with
  | none => refuse .grammarType
  | some kind => return { kind, maxTokenType := (← word).toNat }

/-! ## States -/

/-- The kind of a state, with the link that its code calls for. -/
def stateKind (code : Word) : Decode StateKind :=
  match code.toNat with
  | 1 => pure .basic
  | 2 => pure (.ruleStart none false)
  | 3 => return .blockStart .basic (some (← index))
  | 4 => return .blockStart .plus (some (← index))
  | 5 => return .blockStart .star (some (← index))
  | 6 => pure .tokenStart
  | 7 => pure .ruleStop
  | 8 => pure (.blockEnd none)
  | 9 => pure .starLoopBack
  | 10 => pure (.starLoopEntry none false)
  | 11 => pure .plusLoopBack
  | 12 => return .loopEnd (some (← index))
  | n => refuse (.stateType n)

/-- One state; the number comes from its place. -/
def state : Decode State := do
  let code ← word
  if code = 0 then return { number := 0, rule := none, kind := .invalid }
  let rule ← optional
  return { number := 0, rule, kind := ← stateKind code }

/-- The link of the start of a block to its end. -/
def blockLink? : StateKind → Option Nat
  | .blockStart _ link => link
  | _ => none

/-- The link of the end of a loop to its way back. -/
def loopLink? : StateKind → Option Nat
  | .loopEnd link => link
  | _ => none

/-- Marks the start of a rule as left-recursive. -/
def markLeftRecursive (s : State) : State :=
  match s.kind with
  | .ruleStart stop _ => { s with kind := .ruleStart stop true }
  | _ => s

/-- The states, then the non-greedy ones, then the starts of left-recursive rules. -/
def states (f : Format) (net : Network) : Decode Network := do
  let read ← list state
  let states := (read.zipIdx.map fun (s, i) => { s with number := i }).toArray
  let inRange (n : Nat) : Bool := n < states.size
  (read.filterMap (blockLink? ·.kind)).forM fun n => check (inRange n) (.blockEndRange n)
  (read.filterMap (loopLink? ·.kind)).forM fun n => check (inRange n) (.loopBackRange n)
  let nonGreedy ← list do
    let n ← index
    check (inRange n) (.nonGreedyRange n)
    return n
  let leftRecursive ← if f.hasPrecedence then list do
      let n ← index
      check ((states[n]?).any (·.kind.isRuleStart)) (.precedenceState n)
      return n
    else pure []
  let states := nonGreedy.foldl (fun states n => states.modify n ({ · with nonGreedy := true })) states
  let states := leftRecursive.foldl (fun states n => states.modify n markLeftRecursive) states
  return { net with states }

/-! ## Rules and modes -/

/-- The start state of a rule and, for lexers, its token type. -/
def rule (f : Format) (net : Network) : Decode (Nat × Int) := do
  let start ← index
  check (net.state start).kind.isRuleStart (.ruleStart start)
  if net.isLexer then
    let type ← signedWord
    if !f.hasLexerActions then let _ ← word
    return (start, type)
  else return (start, 0)

/-- Gives the start of a rule its stop state. -/
def linkStop (stop : Nat) (s : State) : State :=
  match s.kind with
  | .ruleStart _ leftRecursive => { s with kind := .ruleStart (some stop) leftRecursive }
  | _ => s

/-- Enters the stop state `n` into the table of rules. -/
def enterStop (net : Network) (n : Nat) : Except LoadError Network :=
  if (net.state n).kind.isRuleStop then
    match (net.state n).rule with
    | none => .error (.malformed (.ruleStopWithoutRule n))
    | some r =>
      if r < net.numRules then
        .ok { net.modifyState (net.ruleStart r) (linkStop n) with
          ruleStops := net.ruleStops.setIfInBounds r (some n) }
      else .error (.malformed (.ruleStopRule n r))
  else .ok net

/-- The rules, and the stop states that belong to them. -/
def rules (f : Format) (net : Network) : Decode Network := do
  let read ← list (rule f net)
  let net := { net with
    ruleStarts := (read.map (·.1)).toArray
    ruleStops := Array.replicate read.length none
    ruleTypes := if net.isLexer then (read.map (·.2)).toArray else #[] }
  (List.range net.states.size).foldlM (fun net n => enterStop net n) net

/-- The start states of the modes. -/
def modes (net : Network) : Decode Network := do
  let read ← list do
    let n ← index
    check ((net.state n).kind == .tokenStart) (.modeStart n)
    return n
  return { net with modeStarts := read.toArray }

/-! ## Sets -/

/-- A symbol of 16 bits. -/
def narrowSymbol : Decode Int := return (← word).toNat

/-- A symbol of 32 bits, the low half first. -/
def wideSymbol : Decode Int := do
  let low ← word
  let high ← word
  return signed32 (low.toNat + high.toNat * 65536 : Nat)

/-- A set: the number of its intervals, whether it holds the end of the input, the intervals. -/
def set (symbol : Decode Int) : Decode SymbolSet := do
  let n ← index
  let eof ← word
  let intervals ← times n do
    let lo ← symbol
    return (lo, ← symbol)
  let start := if eof ≠ 0 then SymbolSet.empty.add endOfInput else SymbolSet.empty
  return intervals.foldl (fun s r => s.addRange r.1 r.2) start

/-- The narrow sets and, where the format has them, the wide ones. -/
def sets (f : Format) (net : Network) : Decode Network := do
  let narrow ← list (set narrowSymbol)
  let wide ← if f.hasWideSets then list (set wideSymbol) else pure []
  return { net with sets := (narrow ++ wide).toArray }

/-! ## Transitions -/

/-- The transition of a code and three operands. -/
def label (net : Network) (target : Nat) (code a b c : Word) : Decode Transition :=
  let symbol : Int := if c ≠ 0 then endOfInput else a.toNat
  let index? : Option Nat := if b = noneWord then none else some b.toNat
  match code.toNat with
  | 1 => pure (.epsilon target)
  | 2 => pure ⟨target, .range symbol b.toNat⟩
  | 3 => do
    check (net.state a.toNat).kind.isRuleStart (.callTarget a.toNat)
    check (b.toNat < net.numRules) (.callRule b.toNat)
    return ⟨a.toNat, .rule b.toNat c.toNat target⟩
  | 4 => pure ⟨target, .predicate a.toNat b.toNat (c ≠ 0)⟩
  | 5 => pure ⟨target, .atom symbol⟩
  | 6 => pure ⟨target, .action a.toNat index? (c ≠ 0)⟩
  | 7 =>
    match net.sets[a.toNat]? with
    | some s => pure ⟨target, .set s⟩
    | none => refuse (.setRange a.toNat)
  | 8 =>
    match net.sets[a.toNat]? with
    | some s => pure ⟨target, .notSet s⟩
    | none => refuse (.setRange a.toNat)
  | 9 => pure ⟨target, .wildcard⟩
  | 10 => pure ⟨target, .precedence a.toNat⟩
  | n => refuse (.transitionType n)

/-- A transition with its source. -/
def transition (net : Network) : Decode (Nat × Transition) := do
  let source ← index
  let target ← index
  let code ← word
  let a ← word
  let b ← word
  let c ← word
  check (source < net.states.size && target < net.states.size) (.edgeRange source target)
  return (source, ← label net target code a b c)

/-- Adds a transition to its source. -/
def addEdge (net : Network) (e : Nat × Transition) : Network :=
  net.modifyState e.1 (·.addTransition e.2)

/-- The transitions that were written. -/
def transitions (net : Network) : Decode Network := do
  return (← list (transition net)).foldl addEdge net

/-! ## What follows from the rest -/

/-- The transition back from a call, with the stop state that it leaves. A return from a
left-recursive rule called at precedence 0 names the rule. -/
def returnEdge? (net : Network) (t : Transition) : Option (Nat × Transition) :=
  match t.label with
  | .rule r precedence follow =>
    let outermost := (net.state (net.ruleStart r)).kind.isLeftRecursiveStart && precedence == 0
    (net.ruleStop? r).map fun stop => (stop, ⟨follow, .epsilon (if outermost then some r else none)⟩)
  | _ => none

/-- Adds the transitions from the ends of rules back to the states that follow their calls. -/
def addReturns (net : Network) : Network :=
  (net.states.toList.flatMap fun s => s.transitions.filterMap (returnEdge? net)).foldl addEdge net

/-- Gives the entry of a loop its way back. -/
def linkLoopEntry (back : Nat) (s : State) : State :=
  match s.kind with
  | .starLoopEntry _ precedence => { s with kind := .starLoopEntry (some back) precedence }
  | _ => s

/-- Links the end of a block to its start, and the entry of a loop to its way back. -/
def linkBlock (net : Network) (n : Nat) : Except LoadError Network :=
  match (net.state n).kind with
  | .blockStart _ (some stop) =>
    match (net.state stop).kind with
    | .blockEnd none => .ok (net.modifyState stop ({ · with kind := .blockEnd (some n) }))
    | .blockEnd (some _) => .error (.malformed (.sharedBlockEnd stop))
    | _ => .error (.malformed (.notBlockEnd stop))
  | .starLoopBack =>
    .ok ((net.state n).transitions.foldl (fun net t => net.modifyState t.target (linkLoopEntry n)) net)
  | _ => .ok net

/-- Links all blocks and loops. -/
def linkBlocks (net : Network) : Except LoadError Network :=
  (List.range net.states.size).foldlM linkBlock net

/-! ## Decisions and actions -/

/-- The states that own decisions, in the order of the decisions. -/
def decisions (net : Network) : Decode Network := do
  let read ← list do
    let n ← index
    check (n < net.states.size && (net.state n).kind.isDecision) (.decisionState n)
    return n
  return read.foldl (fun net n => (net.defineDecision n).2) net

/-- A lexer action. -/
def action : Decode LexerAction := do
  let code ← word
  let a ← signedWord
  let b ← signedWord
  match LexerAction.decode code a b with
  | .ok action => return action
  | .error cause => refuse cause

/-- Formats without a table of actions name custom actions on the transitions. Such a transition
gets the place of its action in the table, which is built on the way. -/
def customAction (table : Array LexerAction) (t : Transition) : Array LexerAction × Transition :=
  match t.label with
  | .action rule action _ =>
    (table.push (.custom rule (action.getD 0)), ⟨t.target, .action rule (some table.size) false⟩)
  | _ => (table, t)

/-- The custom actions of a list of transitions. -/
def customTransitions (table : Array LexerAction) :
    List Transition → Array LexerAction × List Transition
  | [] => (table, [])
  | t :: rest =>
    let (table, t) := customAction table t
    let (table, rest) := customTransitions table rest
    (table, t :: rest)

/-- Builds the table of actions of a format that has none. -/
def customActions (net : Network) : Network :=
  let (table, states) := net.states.foldl (fun (table, states) s =>
    let (table, transitions) := customTransitions table s.transitions
    (table, states.push { s with transitions })) ((#[], #[]) : Array LexerAction × Array State)
  { net with actions := table, states }

/-- Does the action lead to an unknown mode? -/
def leadsAstray (net : Network) (a : LexerAction) : Bool :=
  a.mode?.any (net.modeStarts.size ≤ ·)

/-- The actions of a lexer. -/
def actions (f : Format) (net : Network) : Decode Network := do
  if !net.isLexer then return net
  let net ← if f.hasLexerActions then do
      let read ← list action
      pure { net with actions := read.toArray }
    else pure (customActions net)
  net.actions.toList.forM fun a => check (!leadsAstray net a) (.actionMode a)
  return net

/-! ## Marks -/

/-- Does the entry of a loop in a left-recursive rule leave straight to the end of the rule? -/
def exitsRule (net : Network) (s : State) : Bool :=
  let leftRecursive := (s.rule.bind fun r => net.ruleStarts[r]?).any
    fun start => (net.state start).kind.isLeftRecursiveStart
  leftRecursive && match s.transitions.getLast? with
    | none => false
    | some t =>
      let stop := net.state t.target
      stop.kind.isLoopEnd && stop.epsilonOnly &&
        (stop.transitions.head?).any fun t => (net.state t.target).kind.isRuleStop

/-- Marks the entry of a loop by which a left-recursive rule goes on or ends. -/
def markPrecedence (net : Network) (s : State) : State :=
  match s.kind with
  | .starLoopEntry back _ =>
    if exitsRule net s then { s with kind := .starLoopEntry back true } else s
  | _ => s

/-- Recomputes which states have no consuming transitions, then marks the precedence loops. -/
def mark (net : Network) : Network :=
  let net := { net with states := net.states.map State.refresh }
  { net with states := net.states.map (markPrecedence net) }

/-! ## The whole network -/

/-- Reads a network and derives what is not written. -/
def network : Decode Network := do
  let f ← format
  let net ← grammar
  let net ← states f net
  let net ← rules f net
  let net ← modes net
  let net ← sets f net
  let net ← transitions net
  let net ← linkBlocks (addReturns net)
  let net ← decisions net
  let net ← actions f net
  return mark net

end Decode

/-! ## Verification -/

namespace Network

/-- The fault of a state that has one, by the rules for its kind. -/
def kindFault? (net : Network) (s : State) : Option Malformation :=
  let fault (holds : Bool) (cause : Malformation) := if holds then none else some cause
  match s.kind with
  | .ruleStart stop _ => fault stop.isSome (.startWithoutStop s.number)
  | .blockStart _ stop => fault stop.isSome (.blockWithoutEnd s.number)
  | .blockEnd start => fault start.isSome (.endWithoutBlock s.number)
  | .starLoopEntry back _ =>
    fault (back.isSome && s.transitions.length == 2) (.unlinkedLoopEntry s.number)
  | .loopEnd back => fault back.isSome (.unlinkedLoopEnd s.number)
  | .starLoopBack =>
    fault (match s.transitions with
      | [t] => match (net.state t.target).kind with
        | .starLoopEntry _ _ => true
        | _ => false
      | _ => false) (.strayLoopBack s.number)
  | .plusLoopBack => fault s.decision.isSome (.undecidedLoop s.number)
  | _ => none

/-- The fault of a state that has several ways to go on. -/
def choiceFault? (s : State) : Option Malformation :=
  if s.transitions.length ≤ 1 then none
  else if s.kind.isDecision then
    if s.decision.isSome then none else some (.undecidedState s.number)
  else if s.kind.isRuleStop then none
  else some (.branchingState s.number)

/-- The first fault of a state. -/
def stateFault? (net : Network) (s : State) : Option Malformation :=
  if s.kind == .invalid then none
  else if !s.epsilonOnly && s.transitions.length > 1 then some (.mixedTransitions s.number)
  else (net.kindFault? s).or <| (choiceFault? s).or <|
    if net.isLexer && s.transitions.any (fun t => match t.label with
      | .precedence _ => true
      | _ => false) then some (.precedenceInLexer s.number)
    else none

/-- The first fault of a network. -/
def fault? (net : Network) : Option Malformation := net.states.toList.findSome? net.stateFault?

/-- Reads a network from its words; unless told otherwise, the structure is verified at the end. -/
def decode (words : List Word) (verify : Bool := true) : Except LoadError Network := do
  let (net, cursor) ← Decode.network.run { rest := words }
  if !cursor.rest.isEmpty then throw (.malformed (.trailingWords cursor.rest.length))
  if verify then
    match net.fault? with
    | some cause => throw (.malformed cause)
    | none => return net
  else return net

end Network

end AdaptiveLL
