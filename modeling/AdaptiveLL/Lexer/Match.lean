import AdaptiveLL.Dfa
import AdaptiveLL.Event
import AdaptiveLL.Options

/-!
# Matching one token

From the start state of a mode the lexer follows all rules of the mode at once, symbol by symbol, and
remembers the last place at which some rule was complete. When no rule can go on, the match ends
there: the longest match wins, and of several rules that match as much the first one. What is learned
on the way is kept in the automaton of the mode; states and edges that depend on the answer of a
predicate are not.

The closure of a configuration under transitions that consume nothing is computed by recursion
without a bound that the network gives, so it runs on fuel.
-/

set_option autoImplicit false

namespace AdaptiveLL

/-- The least code point. -/
def minChar : Int := 0

/-- The greatest code point. -/
def maxChar : Int := 0x10FFFF

namespace Lexer

variable {η : Type}

/-! ## Closure -/

/-- What stays fixed while a closure is computed. -/
structure ClosureEnv (η : Type) where
  net : Network
  hooks : LexerHooks η
  input : CharStream
  /-- Has the symbol before the closure been looked at but not consumed yet? -/
  lookingAhead : Bool
  /-- Is the end of the input consumed by transitions that ask for it? -/
  atEof : Bool

/-- The configurations reached so far, and the state of the user code. -/
structure Reached (η : Type) where
  configs : ConfigSet
  hooks : η

/-- A step of computing a closure. -/
abbrev ClosureM (η : Type) := StateT (Reached η) Option

/-- Adds a configuration. -/
def addConfig (c : Config) : ClosureM η Unit :=
  modify fun r => { r with configs := r.configs.insert c }

/-- Is the state a decision that prefers to stop early? -/
def isNonGreedy (net : Network) (n : Nat) : Bool :=
  (net.state n).kind.isDecision && (net.state n).nonGreedy

/-- The configuration at a state, with a mark if the state is a non-greedy decision. -/
def configAt (net : Network) (c : Config) (n : Nat) : Config :=
  { c.withState n with nonGreedy := c.nonGreedy || isNonGreedy net n }

/-- Asks a predicate. While the lexer looks ahead, the input is shown as if the symbol had been
consumed. -/
def askPredicate (env : ClosureEnv η) (rule pred : Nat) : ClosureM η Bool := do
  let input := if env.lookingAhead then env.input.consume else env.input
  modifyGet fun r =>
    let (answer, hooks) := env.hooks.predicate input rule pred r.hooks
    (answer, { r with hooks, configs := { r.configs with hasGuards := true } })

/-- Where a transition that consumes nothing leads. Actions are collected only where the rule of the
token itself can go on, not inside a rule that it calls. -/
def epsilonTarget (env : ClosureEnv η) (c : Config) (t : Transition) : ClosureM η (Option Config) :=
  match t.label with
  | .rule _ _ follow => return some { configAt env.net c t.target with context := c.context.push follow }
  | .precedence _ => return none
  | .predicate rule pred _ => do
    if ← askPredicate env rule pred then return some (configAt env.net c t.target) else return none
  | .action _ action _ =>
    let next := configAt env.net c t.target
    match action.bind fun i => env.net.actions[i]? with
    | some a =>
      return some (if c.context.hasEmptyPath then { next with actions := c.actions ++ [a] } else next)
    | none => return some next
  | .epsilon _ => return some (configAt env.net c t.target)
  | .atom _ | .range _ _ | .set _ =>
    return if env.atEof && t.label.accepts endOfInput minChar maxChar then
        some (configAt env.net c t.target)
      else none
  | .notSet _ | .wildcard => return none

/-- Adds the closure of a configuration. The flag says whether the alternative of the configuration
has reached the end of its rule, before and after. -/
def closure (env : ClosureEnv η) : Nat → Config → Bool → ClosureM η Bool
  | 0, _, _ => failure
  | fuel + 1, c, done => do
    let s := env.net.state c.state
    if s.kind.isRuleStop then
      if c.context.isEmpty then
        addConfig c
        return true
      let done ← if c.context.hasEmptyPath then do
          addConfig (c.withContext c.state .empty)
          pure true
        else pure done
      c.context.entries.foldlM (fun done (ret, parent) =>
        match ret with
        | none => pure done
        | some n =>
          let context := if parent = .nil then .empty else parent
          closure env fuel (c.withContext n context) done) done
    else
      if !s.epsilonOnly && (!done || !c.nonGreedy) then addConfig c
      s.transitions.foldlM (fun done t => do
        match ← epsilonTarget env c t with
        | some c => closure env fuel c done
        | none => pure done) done

/-! ## Sets of configurations -/

/-- What stays fixed while a token is matched. -/
structure MatchEnv (η : Type) where
  net : Network
  hooks : LexerHooks η
  mode : Nat
  fuel : Nat

/-- The lexer between two symbols. -/
structure Matcher (η : Type) where
  cache : DfaCache
  input : CharStream
  hooks : η
  /-- Where the last match began. -/
  startIndex : Nat := 0
  line : Nat := 1
  column : Nat := 0
  stats : Stats := {}

/-- A step of matching. -/
abbrev MatchM (η : Type) := StateT (Matcher η) Option

/-- The configurations at the start of a mode, numbered by alternative. -/
def startSet (env : MatchEnv η) (input : CharStream) (n : Nat) (hooks : η) : Option (Reached η) :=
  let closureEnv : ClosureEnv η :=
    { net := env.net, hooks := env.hooks, input, lookingAhead := false, atEof := false }
  (env.net.state n).transitions.zipIdx.foldlM (fun reached (t, i) => do
    let c : Config := { state := t.target, alt := i + 1, nonGreedy := isNonGreedy env.net t.target }
    return (← (closure closureEnv env.fuel c false).run reached).2) { configs := .ofLexer, hooks }

/-- Follows the transitions of a configuration that consume the symbol, up to one behind which the
alternative has reached the end of its rule. -/
def followTransitions (env : ClosureEnv η) (fuel : Nat) (symbol : Int) (offset : Nat) (c : Config)
    (done : Bool) : List Transition → ClosureM η Bool
  | [] => return false
  | t :: rest => do
    if t.label.accepts symbol minChar maxChar then
      let next := { configAt env.net c t.target with actions := pinActions offset c.actions }
      if ← closure env fuel next done then return true
    followTransitions env fuel symbol offset c done rest

/-- The configurations behind a symbol. When an alternative has reached the end of its rule, its later
configurations that passed through a non-greedy decision are dropped. -/
def followConfigs (env : ClosureEnv η) (fuel : Nat) (symbol : Int) (offset : Nat) :
    Nat → List Config → ClosureM η Unit
  | _, [] => return ()
  | doneAlt, c :: rest => do
    let done := c.alt == doneAlt
    if done && c.nonGreedy then followConfigs env fuel symbol offset doneAlt rest
    else
      let reached ← followTransitions env fuel symbol offset c done (env.net.state c.state).transitions
      followConfigs env fuel symbol offset (if reached then c.alt else doneAlt) rest

/-- The configurations behind a symbol. -/
def reachSet (env : MatchEnv η) (m : Matcher η) (configs : ConfigSet) (symbol : Int) :
    Option (Reached η) := do
  let closureEnv : ClosureEnv η :=
    { net := env.net, hooks := env.hooks, input := m.input, lookingAhead := true
      atEof := symbol == endOfInput }
  let follow := followConfigs closureEnv env.fuel symbol (m.input.pos - m.startIndex) invalidAlt
    configs.configs.toList
  return (← follow.run { configs := .ofLexer, hooks := m.hooks }).2

/-! ## The automaton of the mode -/

/-- The state of a set of configurations. The first of them that is at the end of a rule decides which
token is accepted. -/
def stateOf (net : Network) (configs : ConfigSet) : DfaState :=
  let s := DfaState.ofConfigs configs DfaCache.lexerWidth
  match configs.configs.find? fun c => (net.state c.state).kind.isRuleStop with
  | some c =>
    { s with
      accepts := true
      prediction := net.ruleTypes.getD ((net.state c.state).rule.getD 0) 0
      actions := c.actions }
  | none => s

/-- Registers the state of a set of configurations. -/
def register (env : MatchEnv η) (configs : ConfigSet) : MatchM η Nat :=
  modifyGet fun m =>
    let (n, cache) := m.cache.addState env.mode (stateOf env.net configs)
    (n, { m with cache })

/-- The automaton of the mode. -/
def dfa (env : MatchEnv η) : MatchM η Dfa := return (← get).cache.dfa env.mode

/-- Changes the automaton of the mode. -/
def modifyDfa (env : MatchEnv η) (f : Dfa → Dfa) : MatchM η Unit :=
  modify fun m => { m with cache := m.cache.modifyDfa env.mode f }

/-- Changes the counters. -/
def count (f : Stats → Stats) : MatchM η Unit := modify fun m => { m with stats := f m.stats }

/-- The place of the edge for a symbol, if there is one. -/
def edgePlace? (symbol : Int) : Option Nat :=
  if 0 ≤ symbol ∧ symbol < DfaCache.lexerWidth then some symbol.toNat else none

/-- Records an edge, if its symbol has a place. -/
def recordEdge (env : MatchEnv η) (n : Nat) (symbol : Int) (e : DfaEdge) : MatchM η Unit :=
  match edgePlace? symbol with
  | some i => modifyDfa env (·.setEdge n i e)
  | none => pure ()

/-- The state at which the mode begins. It is recorded unless it depends on predicates. -/
def startState (env : MatchEnv η) : MatchM η Nat := do
  match (← dfa env).start with
  | some n => return n
  | none =>
    let m ← get
    let reached ← startSet env m.input (env.net.modeStarts.getD env.mode 0) m.hooks
    modify fun m => { m with hooks := reached.hooks }
    let n ← register env reached.configs
    if reached.configs.hasGuards then return n
    let (n, d) := (← dfa env).setStart n
    modifyDfa env fun _ => d
    return n

/-- Simulates the network to find where a symbol leads. The edge is recorded unless it depends on
predicates. -/
def computeTarget (env : MatchEnv η) (n : Nat) (symbol : Int) : MatchM η DfaEdge := do
  let reached ← reachSet env (← get) ((← dfa env).state n).configs symbol
  modify fun m => { m with hooks := reached.hooks }
  let guarded := reached.configs.hasGuards
  if reached.configs.isEmpty then
    if !guarded then recordEdge env n symbol .dead
    return .dead
  let target ← register env { reached.configs with hasGuards := false }
  if !guarded then recordEdge env n symbol (.target target)
  return .target target

/-- Where a symbol leads, by the recorded edge if there is one. -/
def target (env : MatchEnv η) (n : Nat) (symbol : Int) : MatchM η DfaEdge := do
  match (edgePlace? symbol).bind ((← dfa env).state n).edge? with
  | some e =>
    count fun s => { s with dfaHits := s.dfaHits + 1 }
    return e
  | none =>
    count fun s => { s with networkSteps := s.networkSteps + 1 }
    computeTarget env n symbol

/-! ## The longest match -/

/-- The last place at which a rule was complete. -/
structure Accepted where
  index : Nat
  line : Nat
  column : Nat
  type : Int
  actions : List LexerAction

/-- A matched token: its type and the actions to run for it. -/
structure TokenMatch where
  type : Int
  actions : List LexerAction
  deriving DecidableEq

/-- Moves past a code point and counts lines and columns. -/
def Matcher.consume (m : Matcher η) : Matcher η :=
  if m.input.la 1 = '\n'.toNat then
    { m with input := m.input.consume, line := m.line + 1, column := 0 }
  else { m with input := m.input.consume, column := m.column + 1 }

/-- Notes the place if the state accepts. -/
def note (s : DfaState) (m : Matcher η) (last : Option Accepted) : Option Accepted :=
  if s.accepts then
    some { index := m.input.pos, line := m.line, column := m.column, type := s.prediction,
           actions := s.actions }
  else last

/-- Follows the symbols from a state until none leads on; gives the last symbol looked at and the last
place at which a rule was complete. -/
def run (env : MatchEnv η) : Nat → Nat → Option Accepted → MatchM η (Int × Option Accepted)
  | 0, _, _ => failure
  | fuel + 1, n, last => do
    let symbol := (← get).input.la 1
    match ← target env n symbol with
    | .dead => return (symbol, last)
    | .target next =>
      if symbol ≠ endOfInput then modify Matcher.consume
      let s := (← dfa env).state next
      let last := note s (← get) last
      if s.accepts && symbol = endOfInput then return (symbol, last)
      run env fuel next last

/-- Ends a match: at the last place at which a rule was complete, or with an error. At the end of the
input nothing is matched and the token is the end of the input. -/
def conclude (symbol : Int) (last : Option Accepted) :
    MatchM η (Except RecognitionError TokenMatch) :=
  modifyGet fun m =>
    match last with
    | some a =>
      (.ok ⟨a.type, a.actions⟩,
        { m with input := m.input.seek a.index, line := a.line, column := a.column })
    | none =>
      if symbol = endOfInput ∧ m.input.pos = m.startIndex then (.ok ⟨endOfInput, []⟩, m)
      else (.error (.noViableToken m.startIndex m.input.pos), m)

/-- Matches one token. After a match the input stands behind the token; after an error it stands where
no rule could go on. -/
def matchToken (net : Network) (hooks : LexerHooks η) (fuel mode : Nat) :
    MatchM η (Except RecognitionError TokenMatch) := do
  let env : MatchEnv η := { net, hooks, mode, fuel }
  modify fun m => { m with startIndex := m.input.pos }
  count fun s => { s with tokens := s.tokens + 1 }
  let n ← startState env
  let last := note ((← dfa env).state n) (← get) none
  let (symbol, last) ← run env fuel n last
  conclude symbol last

/-- Forgets the place of the last match and returns to the first line. -/
def Matcher.reset (m : Matcher η) : Matcher η := { m with startIndex := 0, line := 1, column := 0 }

end Lexer

end AdaptiveLL
