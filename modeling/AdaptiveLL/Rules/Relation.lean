import AdaptiveLL.AltSet
import AdaptiveLL.Network.Basic

/-!
# Callers and callees

Which rules call which. The relation is read off the calls of a network, and its transitive closure
gives the ancestors and descendants of a rule. A round of the closure adds the rules one step further;
a round that adds nothing is the last, and there are no more rounds than rules.
-/

set_option autoImplicit false

namespace AdaptiveLL

/-- The calls between the rules of a grammar, seen from both sides. -/
structure RuleRelation where
  /-- The rules that call each rule. -/
  parents : Array AltSet
  /-- The rules that each rule calls. -/
  children : Array AltSet
  deriving DecidableEq, Inhabited

namespace RuleRelation

/-- No rule calls another. -/
def empty (rules : Nat) : RuleRelation :=
  { parents := .replicate rules .empty, children := .replicate rules .empty }

/-- The rules that call a rule. -/
def parentsOf (rel : RuleRelation) (rule : Nat) : AltSet := rel.parents.getD rule .empty

/-- The rules that a rule calls. -/
def childrenOf (rel : RuleRelation) (rule : Nat) : AltSet := rel.children.getD rule .empty

/-- Is the call known? -/
def calls (rel : RuleRelation) (caller callee : Nat) : Bool := (rel.childrenOf caller).contains callee

/-- Adds a call. -/
def add (rel : RuleRelation) (caller callee : Nat) : RuleRelation where
  parents := rel.parents.modify callee (·.insert caller)
  children := rel.children.modify caller (·.insert callee)

/-- The calls of a state: the calling and the called rule. Only states that consume nothing count. -/
def callsOf (s : State) : List (Nat × Nat) :=
  match s.rule with
  | none => []
  | some caller =>
    if s.epsilonOnly then
      s.transitions.filterMap fun t =>
        match t.label with
        | .rule callee _ _ => some (caller, callee)
        | _ => none
    else []

/-- The calls of a network. -/
def ofNetwork (net : Network) : RuleRelation :=
  (net.states.toList.flatMap callsOf).foldl (fun rel c => rel.add c.1 c.2) (empty net.numRules)

/-- Adds to a set of rules what is related to its members. -/
def widen (related : Array AltSet) (rules : AltSet) : AltSet :=
  rules.members.foldl (fun acc r => acc.union (related.getD r .empty)) rules

/-- Widens a set of rules until nothing is added, for a number of rounds at most. -/
def saturate (related : Array AltSet) : Nat → AltSet → AltSet
  | 0, rules => rules
  | rounds + 1, rules =>
    let wider := widen related rules
    if wider.size = rules.size then rules else saturate related rounds wider

/-- The rules that are related to a rule in one or more steps. -/
def closure (related : Array AltSet) (rule : Nat) : AltSet :=
  saturate related (related.size + 1) (related.getD rule .empty)

/-- The rules that call a rule, directly or not. -/
def ancestorsOf (rel : RuleRelation) (rule : Nat) : AltSet := closure rel.parents rule

/-- The rules that a rule calls, directly or not. -/
def descendantsOf (rel : RuleRelation) (rule : Nat) : AltSet := closure rel.children rule

end RuleRelation

end AdaptiveLL
