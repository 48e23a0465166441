import AdaptiveLL.Prediction.Conflict

/-!
# Simulating a decision

The configurations of a decision begin with one thread for each alternative. A token moves the
threads whose transitions consume it, and the closure follows the transitions that consume nothing.
With local context a thread that reaches the end of the rule of the decision goes on behind every
call of the rule; with full context it returns to the caller. Predicates are collected into guards or,
with full context, answered at once.

The closure runs on fuel: a network in which a rule can call itself without consuming anything has
none.
-/

set_option autoImplicit false

namespace AdaptiveLL.Prediction

variable {η : Type}

/-! ## The work of a closure -/

/-- What stays fixed during a prediction. -/
structure Env (η : Type) where
  net : Network
  decision : Nat
  /-- The state of the network at which the decision is made. -/
  startState : Nat
  /-- Does the start of the decision depend on the precedence of the rule call? -/
  precedenceLoop : Bool
  evaluator : Guard.Evaluator η
  fuel : Nat

/-- What predictions share between closures: the remembered merges and the state of the user code. -/
structure Scratch (η : Type) where
  merges : Context.Memo := {}
  hooks : η

/-- A step that may merge contexts and call user code. -/
abbrev ScratchM (η : Type) := StateT (Scratch η) Option

/-- The state of a closure. -/
structure Work (η : Type) where
  configs : ConfigSet
  /-- The configurations that came by a transition on which the closure could run in circles. -/
  busy : Std.HashSet Config := {}
  scratch : Scratch η

/-- A step of a closure. -/
abbrev WorkM (η : Type) := StateT (Work η) Option

/-- Adds a configuration to a set. -/
def insert (s : ConfigSet) (c : Config) : ScratchM η ConfigSet :=
  modifyGet fun w =>
    let (s, merges) := s.insertMemo c w.merges
    (s, { w with merges })

/-- Adds a configuration to the closure. -/
def addConfig (c : Config) : WorkM η Unit :=
  modify fun w =>
    let (configs, merges) := w.configs.insertMemo c w.scratch.merges
    { w with configs, scratch := { w.scratch with merges } }

/-- Notes a configuration; says whether it is new. -/
def isNew (c : Config) : WorkM η Bool :=
  modifyGet fun w => (!w.busy.contains c.identity, { w with busy := w.busy.insert c.identity })

/-- Asks whether a guard holds. -/
def ask (env : Env η) (g : Guard) : ScratchM η Bool :=
  modifyGet fun w =>
    let (answer, hooks) := (g.eval env.evaluator).run w.hooks
    (answer, { w with hooks })

/-! ## Closure -/

/-- What a closure is computed for. -/
structure Purpose where
  /-- Does the context hold the full call stack? -/
  fullContext : Bool
  /-- Is the end of the input consumed by transitions that ask for it? -/
  atEof : Bool

/-- Passes a predicate: it is ignored, answered at once with full context, or added to the guard. -/
def passPredicate (env : Env η) (p : Purpose) (c : Config) (target : Nat) (g : Guard)
    (collect : Bool) : WorkM η (Option Config) := do
  if !collect then return some (c.withState target)
  else if p.fullContext then
    let w ← get
    let (answer, scratch) ← (ask env g).run w.scratch
    set { w with scratch }
    return if answer then some (c.withState target) else none
  else return some (c.withGuard target (c.guard.and g))

/-- Enters a rule, with the state behind the call on top of the context. -/
def enterCall (c : Config) (target follow : Nat) : WorkM η Config :=
  modifyGet fun w =>
    let (context, merges) := w.scratch.merges.share (c.context.push follow)
    (c.withContext target context, { w with scratch := { w.scratch with merges } })

/-- Where a transition that consumes nothing leads. Predicates that depend on the rule call count only
inside the rule of the decision. -/
def epsilonTarget (env : Env η) (p : Purpose) (c : Config) (t : Transition) (collect inRule : Bool) :
    WorkM η (Option Config) :=
  match t.label with
  | .rule _ _ follow => return some (← enterCall c t.target follow)
  | .precedence n => passPredicate env p c t.target (.precedence n) (collect && inRule)
  | .predicate rule pred ctx =>
    passPredicate env p c t.target (.predicate rule pred ctx) (collect && (!ctx || inRule))
  | .action _ _ _ | .epsilon _ => return some (c.withState t.target)
  | .atom _ | .range _ _ | .set _ =>
    return if p.atEof && t.label.accepts endOfInput 0 1 then some (c.withState t.target) else none
  | .notSet _ | .wildcard => return none

/-- Is it a transition that runs an action? -/
def isAction : Label → Bool
  | .action _ _ _ => true
  | _ => false

/-- Is it a transition that calls a rule? -/
def isCall : Label → Bool
  | .rule _ _ _ => true
  | _ => false

/-- Does the transition return from the outermost call of the left-recursive rule of the decision? -/
def returnsOutermost (env : Env η) (t : Transition) : Bool :=
  match t.label with
  | .epsilon (some rule) => env.precedenceLoop && (env.net.state env.startState).rule == some rule
  | _ => false

mutual

/-- Adds the closure of a configuration. At the end of a rule it returns to the callers in the
context; `depth` is the number of rule calls entered since the decision, negative outside its rule. -/
def closure (env : Env η) (p : Purpose) : Nat → Config → Bool → Int → WorkM η Unit
  | 0, _, _, _ => failure
  | fuel + 1, c, collect, depth => do
    if (env.net.state c.state).kind.isRuleStop then
      if !c.context.isEmpty then
        c.context.entries.forM fun (ret, parent) =>
          match ret with
          | some n =>
            let parent := if parent = .nil then .empty else parent
            closure env p fuel (c.returningTo n parent) collect (depth - 1)
          | none =>
            if p.fullContext then addConfig (c.withContext c.state .empty)
            else closureStep env p fuel c collect depth
      else if p.fullContext then addConfig c
      else closureStep env p fuel c collect depth
    else closureStep env p fuel c collect depth

/-- Adds a configuration, if its state consumes symbols, and follows the transitions that consume
nothing. -/
def closureStep (env : Env η) (p : Purpose) : Nat → Config → Bool → Int → WorkM η Unit
  | 0, _, _, _ => failure
  | fuel + 1, c, collect, depth => do
    let s := env.net.state c.state
    if !s.epsilonOnly then addConfig c
    s.transitions.forM fun t => do
      let collect := !isAction t.label && collect
      match ← epsilonTarget env p c t collect (depth == 0) with
      | none => return ()
      | some next =>
        if s.kind.isRuleStop then
          let next := { next with
            filterSuppressed := next.filterSuppressed || returnsOutermost env t
            outerDepth := next.outerDepth + 1 }
          if ← isNew next then
            modify fun w => { w with configs := { w.configs with dipsIntoOuter := true } }
            closure env p fuel next collect (depth - 1)
        else if t.label.isEpsilon then
          closure env p fuel next collect (if isCall t.label && depth ≥ 0 then depth + 1 else depth)
        else if ← isNew next then closure env p fuel next collect depth

end

/-- Adds the closures of several configurations, which share what they have passed. -/
def closureOf (env : Env η) (p : Purpose) (collect : Bool) (configs : ConfigSet) (cs : List Config) :
    ScratchM η ConfigSet := do
  let scratch ← get
  let ((), w) ← (cs.forM fun c => closure env p env.fuel c collect 0).run { configs, scratch }
  set w.scratch
  return w.configs

/-! ## Start -/

/-- The configurations with which the alternatives of the decision begin. -/
def startSet (env : Env η) (context : Context) (fullContext : Bool) : ScratchM η ConfigSet :=
  (env.net.state env.startState).transitions.zipIdx.foldlM (fun configs (t, i) =>
    closureOf env { fullContext, atEof := false } true configs
      [{ state := t.target, alt := i + 1, context }]) (.ofParser fullContext)

/-- The first alternatives whose guards do not fail at the precedence of the rule call, with the
precedence predicates answered. -/
def filterFirst (env : Env η) (result : ConfigSet) (seen : List (Nat × Context)) :
    List Config → ScratchM η (ConfigSet × List (Nat × Context))
  | [] => return (result, seen)
  | c :: rest => do
    let w ← get
    let (resolved, hooks) := (c.guard.resolve env.evaluator).run w.hooks
    set { w with hooks }
    match resolved with
    | none => filterFirst env result seen rest
    | some g =>
      let result ← insert result (c.withGuard c.state g)
      filterFirst env result ((c.state, c.context) :: seen) rest

/-- Drops what the other alternatives merely repeat of the first one in the same state and context. So
the loop of a left-recursive rule ends where the precedence asks for it. -/
def precedenceFilter (env : Env η) (configs : ConfigSet) : ScratchM η ConfigSet := do
  let cs := configs.configs.toList
  let (result, seen) ← filterFirst env (.ofParser configs.fullContext) [] (cs.filter (·.alt == 1))
  (cs.filter (·.alt != 1)).foldlM (fun result c =>
    let repeats := !c.filterSuppressed &&
      (seen.find? (·.1 == c.state)).any (·.2 == c.context)
    if repeats then pure result else insert result c) result

/-! ## One token -/

/-- The configurations moved over a token, before their closure. -/
def move (env : Env η) (configs : ConfigSet) (symbol : Int) (fullContext : Bool) :
    ScratchM η ConfigSet :=
  (configs.configs.toList.filter fun c => !(env.net.state c.state).kind.isRuleStop).foldlM
    (fun moved c => (env.net.state c.state).transitions.foldlM (fun moved t =>
      if t.label.accepts symbol 0 env.net.maxTokenType then insert moved (c.withState t.target)
      else pure moved) moved) (.ofParser fullContext)

/-- The configurations at the end of a rule. -/
def keepStopped (env : Env η) (configs : ConfigSet) : ScratchM η ConfigSet :=
  if allAtStop env.net configs then pure configs
  else
    (configs.configs.toList.filter fun c => (env.net.state c.state).kind.isRuleStop).foldlM insert
      (.ofParser configs.fullContext)

/-- The configurations behind a token; none if the token leads nowhere. -/
def reachSet (env : Env η) (configs : ConfigSet) (symbol : Int) (fullContext : Bool) :
    ScratchM η (Option ConfigSet) := do
  let atEof := symbol == endOfInput
  let moved ← move env configs symbol fullContext
  let stopped := if fullContext || atEof then
      configs.configs.toList.filter fun c => (env.net.state c.state).kind.isRuleStop
    else []
  let decided := stopped.isEmpty && !atEof && (moved.size == 1 || moved.sharedAlt != invalidAlt)
  let reach ← if decided then pure moved
    else closureOf env { fullContext, atEof } false (.ofParser fullContext) moved.configs.toList
  let reach ← if atEof then keepStopped env reach else pure reach
  let reach ← if !fullContext || !someAtStop env.net reach then stopped.foldlM insert reach
    else pure reach
  return if reach.isEmpty then none else some reach

/-! ## Failed predictions -/

/-- Did the configuration finish the rule of the decision? -/
def finishedRule (net : Network) (c : Config) : Bool :=
  decide (c.outerDepth > 0) ||
    ((net.state c.state).kind.isRuleStop && c.context.hasEmptyPath)

/-- The least alternative with a configuration that finished the rule. -/
def finishedAlt (net : Network) (cs : List Config) : Option Nat :=
  ((cs.filter (finishedRule net)).map (·.alt)).min?

/-- The configurations, with whether their guards hold. -/
def answerGuards (env : Env η) : List Config → ScratchM η (List (Config × Bool))
  | [] => return []
  | c :: rest => do
    let holds ← ask env c.guard
    return (c, holds) :: (← answerGuards env rest)

/-- When no alternative goes on, one that has finished the rule is taken, so that the error shows in a
better place. An alternative whose guard holds comes first. -/
def fallbackAlt (env : Env η) (configs : ConfigSet) : ScratchM η (Option Nat) := do
  let answered ← answerGuards env configs.configs.toList
  let (valid, invalid) := answered.partition (·.2)
  return (finishedAlt env.net (valid.map (·.1))).or (finishedAlt env.net (invalid.map (·.1)))

/-- The alternatives whose guards hold. -/
def enabledAlts (env : Env η) (alts : List GuardedAlt) : ScratchM η AltSet :=
  alts.foldlM (fun enabled p => do
    return if ← ask env p.guard then enabled.insert p.alt else enabled) .empty

end AdaptiveLL.Prediction
