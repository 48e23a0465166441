import AdaptiveLL.Parser.Recovery

/-!
# Parsing

A parse walks from the start state of a rule to its stop state, one transition at a time. Syntax
errors are reported and repaired on the way, so a parse fails only for a rule that the grammar does not
have, or when the network sends it back to a call that was never made.
-/

set_option autoImplicit false

namespace AdaptiveLL

/-- Why a parse failed. -/
inductive ParseError where
  | unknownRule (name : String)
  | unknownRuleIndex (rule : Nat)
  /-- A left-recursive rule ends that was not entered. -/
  | noRecursion
  /-- A left-recursive rule ends that was not called. -/
  | noCaller
  | stopWithoutRule (state : Nat)
  /-- The state to return to has no call. -/
  | notACall (state : Nat)
  deriving DecidableEq

/-- The message of a failed parse. -/
def ParseError.message : ParseError → String
  | .unknownRule name => "unknown rule " ++ Text.quoted name
  | .unknownRuleIndex rule => s!"unknown rule index {rule}"
  | .noRecursion => "recursion context stack underflow"
  | .noCaller => "left-recursive rule has no caller"
  | .stopWithoutRule state => s!"rule stop state {state} without a rule"
  | .notACall state => s!"state {state} does not invoke a rule"

namespace Parser

variable {η : Type}

/-! ## Transitions -/

/-- Matches the current token, or repairs it. -/
def matchOrRepair (fuel : Nat) (accepted : Bool) : WalkM η Unit := do
  if accepted then
    sure noteMatch
    sure (consume fuel)
  else repair fuel

/-- Predicts which way to go on from a state; without a decision it is the first. -/
def chooseAlt (fuel : Nat) (s : State) : WalkM η Nat := do
  match s.decision with
  | none => return 1
  | some decision =>
    if !s.kind.isDecision || s.transitions.length ≤ 1 then return 1
    sync fuel
    let p ← get
    let precedence := p.precedence
    let evaluator : Guard.Evaluator η :=
      { predicate := p.hooks.predicate, precedence := fun q h => (decide (q ≥ precedence), h) }
    match ← sure (onSimulator
        (Simulator.predict p.net fuel evaluator decision p.callStack precedence)) with
    | .ok alt => return alt
    | .error e => throw e

/-- Goes round the loop of a left-recursive rule once more: the node in progress gets wrapped. -/
def growRecursion (fuel : Nat) (s : State) : ParseM η Unit := do
  let p ← get
  let caller := p.callers.headD ⟨none, none⟩
  let rule := (p.tree.rule? p.ctx).getD 0
  let node ← addRule rule caller.node caller.invoking
  wrapContext fuel node (p.net.ruleStart (s.rule.getD rule))

/-- Takes a transition of a state, up to the move to its target. -/
def take (fuel : Nat) (s : State) (t : Transition) : WalkM η Unit := do
  let net := (← get).net
  match t.label with
  | .epsilon _ =>
    if s.kind.isPrecedenceLoop && !(net.state t.target).kind.isLoopEnd then
      sure (growRecursion fuel s)
  | .atom symbol =>
    let accepted := (← sure (la fuel 1)) == symbol
    if accepted && symbol == endOfInput then modify ({ · with matchedEof := true })
    matchOrRepair fuel accepted
  | .range _ _ | .set _ | .notSet _ =>
    let symbol ← sure (la fuel 1)
    matchOrRepair fuel (t.label.accepts symbol minTokenType net.maxTokenType)
  | .wildcard =>
    let symbol ← sure (la fuel 1)
    matchOrRepair fuel (decide (symbol > 0))
  | .rule rule precedence _ =>
    let node ← sure (addRule rule (some (← get).ctx) (some s.number))
    if (net.state t.target).kind.isLeftRecursiveStart then
      sure (enterRecursion fuel node t.target precedence)
    else sure (enterRule fuel node t.target)
  | .predicate rule pred _ =>
    if !(← sure (askPredicate rule pred)) then throw (.failedPredicate rule s!"sempred({rule}, {pred})")
  | .action rule action _ =>
    match action with
    | some a => sure (runAction rule a)
    | none => pure ()
  | .precedence q =>
    if !decide (q ≥ (← get).precedence) then
      throw (.failedPredicate (s.rule.getD 0) s!"precpred(_ctx, {q})")

/-- Goes on from a state that does not end a rule. -/
def visit (fuel : Nat) (s : State) : WalkM η Unit := do
  let alt ← chooseAlt fuel s
  match s.transitions[alt - 1]? with
  | none =>
    let i := (← get).stream.index
    throw (.noViableAlt (s.decision.getD 0) i i)
  | some t =>
    take fuel s t
    modify ({ · with state := t.target })

/-- Returns from a rule that has a caller. -/
def returnFrom (fuel : Nat) (s : State) : ParseM η (Except ParseError Unit) := do
  let net := (← get).net
  match s.rule with
  | none => return .error (.stopWithoutRule s.number)
  | some rule =>
    if (net.state (net.ruleStart rule)).kind.isLeftRecursiveStart then
      match ← popCaller with
      | none => return .error .noRecursion
      | some caller =>
        leaveRecursion fuel caller.node
        match caller.invoking with
        | none => return .error .noCaller
        | some state =>
          modify ({ · with state })
          resume
    else
      exitRule fuel
      resume
where
  /-- Goes on behind the call. -/
  resume : ParseM η (Except ParseError Unit) := do
    let p ← get
    match p.net.follow? p.state with
    | none => return .error (.notACall p.state)
    | some state =>
      set { p with state }
      return .ok ()

/-! ## Parses -/

/-- Ends the rule that the parse began with and gives the root of the tree. -/
def finish (fuel root : Nat) (leftRecursive : Bool) : ParseM η (Except ParseError Nat) := do
  if leftRecursive then
    let result := (← get).ctx
    match ← popCaller with
    | none => return .error .noRecursion
    | some caller =>
      leaveRecursion fuel caller.node
      return .ok result
  else
    exitRule fuel
    return .ok root

/-- Notes a finished parse in the log. -/
def logParse (rule : Nat) : ParseM η Unit := do
  let p ← get
  let (shown, logger) := p.logger.info
    ("parsed " ++ p.info.ruleName rule ++ " with " ++ toString p.syntaxErrors ++
      " syntax errors; " ++ p.sim.stats.toText)
  modifyThe Journal (·.echo shown)
  set { p with logger }

/-- Walks until the rule that the parse began with ends. -/
def walk (fuel root : Nat) (leftRecursive : Bool) : Nat → ParseM η (Except ParseError Nat)
  | 0 => failure
  | rounds + 1 => do
    let p ← get
    let s := p.net.state p.state
    if s.kind.isRuleStop then
      if (p.tree.node p.ctx).invoking.isNone then finish fuel root leftRecursive
      else
        match ← returnFrom fuel s with
        | .ok () => walk fuel root leftRecursive rounds
        | .error e => return .error e
    else
      match ← (visit fuel s).run with
      | .ok () => pure ()
      | .error e =>
        modify fun p => { p with state := (p.net.ruleStop? (s.rule.getD 0)).getD 0 }
        reportError fuel e
        recover fuel e
      walk fuel root leftRecursive rounds

/-- Forgets an earlier parse. The stream stays where it is. -/
def clear (p : Parser η) : Parser η :=
  { p with
    tree := {}
    precedences := [0]
    callers := []
    recovery := {}
    syntaxErrors := 0
    matchedEof := false }

/-- Parses from the current token on, beginning with a rule, and gives the root of the tree. -/
def parse (fuel rule : Nat) : ParseM η (Except ParseError Nat) := do
  let net := (← get).net
  if rule ≥ net.numRules then return .error (.unknownRuleIndex rule)
  modify clear
  let start := net.ruleStart rule
  let leftRecursive := (net.state start).kind.isLeftRecursiveStart
  let root ← addRule rule none none
  if leftRecursive then enterRecursion fuel root start 0 else enterRule fuel root start
  match ← walk fuel root leftRecursive fuel with
  | .ok result =>
    logParse rule
    return .ok result
  | .error e => return .error e

/-- Parses, beginning with the rule of a name. -/
def parseRule (fuel : Nat) (name : String) : ParseM η (Except ParseError Nat) := do
  match (← get).info.ruleIndex name with
  | none => return .error (.unknownRule name)
  | some rule => parse fuel rule

end Parser

end AdaptiveLL
