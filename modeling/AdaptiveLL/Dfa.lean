import AdaptiveLL.Config

/-!
# Learned automata

What the simulation of a network finds out is kept: each decision of a parser and each mode of a
lexer has a deterministic automaton whose states are sets of configurations. A set is registered
once; the state that was there first is the one that counts. The same holds of edges and of start
states: the first record stays.
-/

set_option autoImplicit false

namespace AdaptiveLL

/-! ## States -/

/-- An alternative with the guard under which it may be taken. -/
structure GuardedAlt where
  guard : Guard
  alt : Nat
  deriving DecidableEq, Inhabited

/-- The pair as diagnostics show it. -/
def GuardedAlt.toText (p : GuardedAlt) : String :=
  Text.recordOf "PredPrediction" [("pred", p.guard.toText), ("alt", toString p.alt)]

/-- Where a recorded edge leads. -/
inductive DfaEdge where
  /-- The symbol is known to lead nowhere. -/
  | dead
  | target (state : Nat)
  deriving DecidableEq, Inhabited

/-- A state of a learned automaton. -/
structure DfaState where
  number : Nat := 0
  configs : ConfigSet
  /-- The recorded edges by the place of their symbol. -/
  edges : Array (Option DfaEdge) := #[]
  accepts : Bool := false
  /-- The alternative for a parser, the token type for a lexer. -/
  prediction : Int := 0
  /-- Lexers only: the actions to run for the token. -/
  actions : List LexerAction := []
  /-- Did local context end in a conflict that the full context may settle? -/
  needsFullContext : Bool := false
  /-- The alternatives to choose from by their guards. -/
  predicates : Option (List GuardedAlt) := none
  /-- The identity under which the state is registered. -/
  identity : List Config := []
  deriving Inhabited

namespace DfaState

/-- A state without edges. -/
def ofConfigs (configs : ConfigSet) (width : Nat) : DfaState :=
  { configs, edges := Array.replicate width none }

/-- The recorded edge at a place. -/
def edge? (s : DfaState) (i : Nat) : Option DfaEdge := (s.edges[i]?).join

/-- Records an edge, unless the place is taken or does not exist. -/
def setEdge (s : DfaState) (i : Nat) (e : DfaEdge) : DfaState :=
  { s with edges := s.edges.modify i (·.or (some e)) }

/-- What the state predicts. -/
def predictionText (s : DfaState) : String :=
  match s.predicates with
  | some ps => Text.bracketed (ps.map GuardedAlt.toText)
  | none => toString s.prediction

/-- The number and the configurations, and for an accepting state what it predicts. -/
def toText (s : DfaState) : String :=
  toString s.number ++ ":" ++ s.configs.toText ++
    (if s.accepts then "=>" ++ s.predictionText else "")

/-- The short name of the state: a colon marks accepting states, a caret those that need the full
context. -/
def name (s : DfaState) : String :=
  (if s.accepts then ":s" else "s") ++ toString s.number ++
    (if s.accepts then "=>" ++ s.predictionText else "") ++ (if s.needsFullContext then "^" else "")

end DfaState

/-! ## Automata -/

/-- The automaton of one decision or mode. -/
structure Dfa where
  decision : Nat
  /-- The state of the network at which the decision is made. -/
  networkState : Nat
  /-- The number of places for edges. -/
  width : Nat
  /-- Does the start depend on the precedence of the rule call? -/
  precedence : Bool
  states : Array DfaState := #[]
  start : Option Nat := none
  precedenceStarts : List (Int × Nat) := []
  deriving Inhabited

namespace Dfa

/-- The state of a number. -/
def state (d : Dfa) (n : Nat) : DfaState := d.states.getD n default

/-- Records the start state, unless there is one, and gives the one that counts. -/
def setStart (d : Dfa) (n : Nat) : Nat × Dfa :=
  match d.start with
  | some m => (m, d)
  | none => (n, { d with start := some n })

/-- The start state for a precedence. -/
def precedenceStart? (d : Dfa) (p : Int) : Option Nat :=
  (d.precedenceStarts.find? (·.1 == p)).map (·.2)

/-- Records the start state for a precedence, unless there is one, and gives the one that counts. -/
def setPrecedenceStart (d : Dfa) (p : Int) (n : Nat) : Nat × Dfa :=
  match d.precedenceStart? p with
  | some m => (m, d)
  | none => (n, { d with precedenceStarts := d.precedenceStarts ++ [(p, n)] })

/-- The number of the state with these configurations. -/
def find? (d : Dfa) (identity : List Config) : Option Nat :=
  d.states.findIdx? (·.identity == identity)

/-- Registers a state, unless its configurations are registered, and gives the number of the one that
counts. The contexts of a new state are kept in the table. -/
def addState (d : Dfa) (s : DfaState) (table : Context.Table) : Nat × Dfa × Context.Table :=
  let identity := s.configs.identity
  match d.find? identity with
  | some n => (n, d, table)
  | none =>
    let (configs, table) := s.configs.intern table
    let identity := configs.identity
    match d.find? identity with
    | some n => (n, d, table)
    | none =>
      let n := d.states.size
      (n, { d with states := d.states.push { s with number := n, configs, identity } }, table)

/-- Records an edge between registered states. -/
def setEdge (d : Dfa) (n i : Nat) (e : DfaEdge) : Dfa :=
  { d with states := d.states.modify n (·.setEdge i e) }

/-- One line for each edge that leads somewhere, with `label` naming its place. -/
def toText (d : Dfa) (label : Nat → String) : String :=
  String.join (d.states.toList.flatMap fun s =>
    s.edges.toList.zipIdx.filterMap fun (e, i) =>
      match e with
      | some (.target n) => some (s.name ++ "-" ++ label i ++ "->" ++ (d.state n).name ++ "\n")
      | _ => none)

end Dfa

/-! ## The automata of a network -/

/-- The automata of all decisions or modes, and the contexts that their states share. -/
structure DfaCache where
  dfas : Array Dfa := #[]
  contexts : Context.Table := {}

namespace DfaCache

/-- Code points below this bound have edges in the automata of a lexer; for all others the network is
simulated each time. -/
def lexerWidth : Nat := 128

/-- Nothing is learned yet about a network. -/
def ofNetwork (net : Network) : DfaCache :=
  if net.isLexer then
    { dfas := net.modeStarts.mapIdx fun mode n =>
        { decision := mode, networkState := n, width := lexerWidth, precedence := false } }
  else
    { dfas := net.decisions.mapIdx fun d n =>
        { decision := d, networkState := n, width := (net.maxTokenType + 2).toNat
          precedence := (net.state n).kind.isPrecedenceLoop } }

/-- The automaton of a decision or mode. -/
def dfa (c : DfaCache) (i : Nat) : Dfa := c.dfas.getD i default

/-- Changes the automaton of a decision or mode. -/
def modifyDfa (c : DfaCache) (i : Nat) (f : Dfa → Dfa) : DfaCache :=
  { c with dfas := c.dfas.modify i f }

/-- The number of states of all automata. -/
def totalStates (c : DfaCache) : Nat := c.dfas.foldl (fun k d => k + d.states.size) 0

/-- Registers a state of an automaton. -/
def addState (c : DfaCache) (i : Nat) (s : DfaState) : Nat × DfaCache :=
  let (n, d, contexts) := (c.dfa i).addState s c.contexts
  (n, { dfas := c.dfas.setIfInBounds i d, contexts })

end DfaCache

end AdaptiveLL
