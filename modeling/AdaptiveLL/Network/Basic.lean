import AdaptiveLL.Lexer.Action
import AdaptiveLL.SymbolSet

/-!
# Transition networks

A grammar is compiled into an augmented transition network: a graph of numbered states in which
every rule has a start and a stop state, and a transition either consumes one symbol or none. Among
those that consume none are the calls of other rules, which name the state to follow after the
return. A state with several ways to go on is a decision; decisions are numbered, since what is
learned about them is kept per decision.
-/

set_option autoImplicit false

namespace AdaptiveLL

/-! ## Kinds of grammars, states and transitions -/

/-- Does the network recognize characters or tokens? -/
inductive GrammarKind where
  | lexer
  | parser
  deriving DecidableEq, Hashable, Inhabited

/-- The name of the kind. -/
def GrammarKind.name : GrammarKind → String
  | .lexer => "Lexer"
  | .parser => "Parser"

/-- The construct that a block belongs to. -/
inductive BlockKind where
  | basic
  | plus
  | star
  deriving DecidableEq, Hashable, Inhabited

/-- What a state stands for. Links to other states are absent until they are known. -/
inductive StateKind where
  /-- A number without a state. -/
  | invalid
  | basic
  | ruleStart (stop : Option Nat) (leftRecursive : Bool)
  | blockStart (block : BlockKind) (stop : Option Nat)
  | blockEnd (start : Option Nat)
  /-- The entry of a lexer mode, with one alternative for each of its token rules. -/
  | tokenStart
  | ruleStop
  | starLoopBack
  /-- The entry of a loop. The flag marks the loop of a left-recursive rule whose exit leads
  straight to the end of the rule. -/
  | starLoopEntry (loopBack : Option Nat) (precedence : Bool)
  | plusLoopBack
  | loopEnd (loopBack : Option Nat)
  deriving DecidableEq, Hashable, Inhabited

namespace StateKind

/-- May a state of this kind own a decision? -/
def isDecision : StateKind → Bool
  | .blockStart _ _ | .starLoopEntry _ _ | .plusLoopBack | .tokenStart => true
  | _ => false

/-- Is it the end of a rule? -/
def isRuleStop : StateKind → Bool
  | .ruleStop => true
  | _ => false

/-- Is it the start of a rule? -/
def isRuleStart : StateKind → Bool
  | .ruleStart _ _ => true
  | _ => false

/-- Is it the start of a left-recursive rule? -/
def isLeftRecursiveStart : StateKind → Bool
  | .ruleStart _ true => true
  | _ => false

/-- Is it the loop of a left-recursive rule? -/
def isPrecedenceLoop : StateKind → Bool
  | .starLoopEntry _ true => true
  | _ => false

/-- Is it the state behind a loop? -/
def isLoopEnd : StateKind → Bool
  | .loopEnd _ => true
  | _ => false

end StateKind

/-- What a transition asks for. -/
inductive Label where
  /-- Consumes nothing. On the return from a left-recursive rule that was called at precedence 0 it
  names that rule. -/
  | epsilon (outermostReturn : Option Nat)
  | range (lo hi : Int)
  /-- Calls a rule, to go on at `follow` after its end. -/
  | rule (rule : Nat) (precedence : Int) (follow : Nat)
  | predicate (rule pred : Nat) (ctxDependent : Bool)
  | atom (symbol : Int)
  | action (rule : Nat) (action : Option Nat) (ctxDependent : Bool)
  | set (symbols : SymbolSet)
  | notSet (symbols : SymbolSet)
  | wildcard
  | precedence (precedence : Int)
  deriving DecidableEq, Hashable, Inhabited

namespace Label

/-- Does the transition consume no symbol? -/
def isEpsilon : Label → Bool
  | .epsilon _ | .rule _ _ _ | .predicate _ _ _ | .action _ _ _ | .precedence _ => true
  | _ => false

/-- Does the transition consume the symbol? Complements and the wildcard range over the symbols from
`lo` to `hi`. -/
def accepts (l : Label) (symbol lo hi : Int) : Bool :=
  match l with
  | .atom a => a == symbol
  | .range a b => decide (a ≤ symbol ∧ symbol ≤ b)
  | .set s => s.contains symbol
  | .notSet s => decide (lo ≤ symbol ∧ symbol ≤ hi) && !s.contains symbol
  | .wildcard => decide (lo ≤ symbol ∧ symbol ≤ hi)
  | _ => false

/-- The symbols written on a consuming transition other than the wildcard; those of a complement are
the excluded ones. -/
def symbols? : Label → Option SymbolSet
  | .atom a => some (.singleton a)
  | .range a b => some (.ofRange a b)
  | .set s | .notSet s => some s
  | _ => none

/-- Does the label name the end of the input? -/
def isEof : Label → Bool
  | .atom a => a == endOfInput
  | .range a _ => a == endOfInput
  | _ => false

end Label

/-- A transition to a state. -/
structure Transition where
  target : Nat
  label : Label
  deriving DecidableEq, Hashable, Inhabited

/-- A transition that consumes nothing and asks for nothing. -/
def Transition.epsilon (target : Nat) : Transition := ⟨target, .epsilon none⟩

/-! ## States -/

/-- A state of a network. -/
structure State where
  number : Nat
  rule : Option Nat
  kind : StateKind
  transitions : List Transition := []
  /-- Does every transition consume nothing? False for a state without transitions. -/
  epsilonOnly : Bool := false
  decision : Option Nat := none
  nonGreedy : Bool := false
  deriving DecidableEq, Inhabited

namespace State

/-- Recomputes whether the state has transitions that all consume nothing. -/
def refresh (s : State) : State :=
  { s with epsilonOnly := !s.transitions.isEmpty && s.transitions.all (·.label.isEpsilon) }

/-- Adds a transition behind the others. -/
def addTransition (s : State) (t : Transition) : State :=
  { s with transitions := s.transitions ++ [t] }

/-- Inserts a transition at a place among the others. -/
def insertTransition (s : State) (i : Nat) (t : Transition) : State :=
  { s with transitions := s.transitions.insertIdx i t }

/-- The state to follow after the call that leaves this state first, if it is a call. -/
def follow? (s : State) : Option Nat :=
  match s.transitions with
  | ⟨_, .rule _ _ follow⟩ :: _ => some follow
  | _ => none

end State

/-! ## Networks -/

/-- A network with its tables of rules, decisions, modes and actions. -/
structure Network where
  kind : GrammarKind
  maxTokenType : Int
  states : Array State := #[]
  decisions : Array Nat := #[]
  ruleStarts : Array Nat := #[]
  ruleStops : Array (Option Nat) := #[]
  /-- Lexers only: the token type that each rule produces. -/
  ruleTypes : Array Int := #[]
  modeStarts : Array Nat := #[]
  actions : Array LexerAction := #[]
  /-- The sets that were written out with the network. -/
  sets : Array SymbolSet := #[]
  deriving DecidableEq, Inhabited

namespace Network

/-- The state of a number; a number outside the network reads as an invalid state. -/
def state (net : Network) (n : Nat) : State :=
  net.states.getD n { number := n, rule := none, kind := .invalid }

/-- Is it the network of a lexer? -/
def isLexer (net : Network) : Bool := net.kind == .lexer

/-- The number of rules. -/
def numRules (net : Network) : Nat := net.ruleStarts.size

/-- The start state of a rule. -/
def ruleStart (net : Network) (rule : Nat) : Nat := net.ruleStarts.getD rule 0

/-- The stop state of a rule, once known. -/
def ruleStop? (net : Network) (rule : Nat) : Option Nat := (net.ruleStops[rule]?).join

/-- The state that owns a decision. -/
def decisionState (net : Network) (d : Nat) : State := net.state (net.decisions.getD d 0)

/-- Changes one state. -/
def modifyState (net : Network) (n : Nat) (f : State → State) : Network :=
  { net with states := net.states.modify n f }

/-- Adds a transition to a state, behind its others. -/
def connect (net : Network) (n : Nat) (t : Transition) : Network :=
  net.modifyState n fun s => (s.addTransition t).refresh

/-- Inserts a transition into a state, at a place among its others. -/
def connectAt (net : Network) (n i : Nat) (t : Transition) : Network :=
  net.modifyState n fun s => (s.insertTransition i t).refresh

/-- Adds a state without transitions and gives its number. -/
def addState (net : Network) (rule : Option Nat) (kind : StateKind) : Nat × Network :=
  (net.states.size, { net with states := net.states.push { number := net.states.size, rule, kind } })

/-- Gives the next decision number to a state. -/
def defineDecision (net : Network) (n : Nat) : Nat × Network :=
  let d := net.decisions.size
  (d, { net.modifyState n ({ · with decision := some d }) with decisions := net.decisions.push n })

/-- The state to follow after the call that leaves a state. -/
def follow? (net : Network) (n : Nat) : Option Nat := (net.state n).follow?

/-- The states to return to for a call stack of calling states, outermost first. -/
def follows (net : Network) (callStack : List Nat) : List Nat := callStack.filterMap net.follow?

end Network

end AdaptiveLL
