import AdaptiveLL.Prediction.Reach
import AdaptiveLL.TokenStream

/-!
# Adaptive prediction

A decision is predicted with local context first, by walking and extending its learned automaton. Where
local context ends in a conflict, the prediction is repeated with the full call stack, and the outcome
is reported: a sensitivity to context when one alternative is left, an ambiguity otherwise. Of
ambiguous alternatives the least is taken. The stream ends where it began.
-/

set_option autoImplicit false

namespace AdaptiveLL

/-- A parser's predictions: what was learned, and the tokens with the state of the user code. -/
structure Simulator (η : Type) where
  cache : DfaCache
  mode : PredictionMode
  stream : TokenStream η
  stats : Stats := {}
  /-- The remembered merges of the prediction in progress. -/
  merges : Context.Memo := {}

namespace Simulator

open Prediction

variable {η : Type}

/-- A step of a prediction. -/
abbrev PredictM (η : Type) := StateT (Simulator η) Session

/-! ## Access to the parts -/

/-- A step on the token stream. -/
def onStream {α : Type} (step : TokenStream.StreamM η α) : PredictM η α := do
  let s ← get
  let (a, stream) ← step.run s.stream
  set { s with stream }
  return a

/-- A step on sets of configurations. -/
def onConfigs {α : Type} (step : ScratchM η α) : PredictM η α := do
  let s ← get
  match step.run { merges := s.merges, hooks := s.stream.hooks } with
  | some (a, w) =>
    set { s with merges := w.merges, stream := s.stream.setHooks w.hooks }
    return a
  | none => failure

/-- Changes the counters. -/
def count (f : Stats → Stats) : PredictM η Unit := modify fun s => { s with stats := f s.stats }

/-- Reports to the listeners. -/
def report (e : Event) : PredictM η Unit := modifyThe Journal (·.push (.report .parser e))

/-- The place of the stream. -/
def index : PredictM η Nat := return (← get).stream.index

/-- The learned automaton of a decision. -/
def dfa (decision : Nat) : PredictM η Dfa := return (← get).cache.dfa decision

/-- Changes the learned automaton of a decision. -/
def modifyDfa (decision : Nat) (f : Dfa → Dfa) : PredictM η Unit :=
  modify fun s => { s with cache := s.cache.modifyDfa decision f }

/-- Registers a state of the learned automaton. -/
def register (decision : Nat) (d : DfaState) : PredictM η Nat :=
  modifyGet fun s =>
    let (n, cache) := s.cache.addState decision d
    (n, { s with cache })

/-! ## The learned automaton -/

/-- The place of the edge for a token type, if there is one: the end of the input comes first. -/
def edgePlace? (net : Network) (symbol : Int) : Option Nat :=
  if -1 ≤ symbol ∧ symbol ≤ net.maxTokenType then some (symbol + 1).toNat else none

/-- Records an edge, if its token type has a place. -/
def recordEdge (env : Env η) (n : Nat) (symbol : Int) (e : DfaEdge) : PredictM η Unit :=
  match edgePlace? env.net symbol with
  | some i => modifyDfa env.decision (·.setEdge n i e)
  | none => pure ()

/-- The state at which the decision begins, for the precedence of the rule call where that counts. -/
def startState (env : Env η) (precedence : Int) : PredictM η Nat := do
  let d ← dfa env.decision
  match if d.precedence then d.precedenceStart? precedence else d.start with
  | some n => return n
  | none =>
    let configs ← onConfigs (startSet env .empty false)
    if d.precedence then
      let configs ← onConfigs (precedenceFilter env configs)
      let n ← register env.decision (.ofConfigs configs d.width)
      let (n, d) := (← dfa env.decision).setPrecedenceStart precedence n
      modifyDfa env.decision fun _ => d
      return n
    else
      let n ← register env.decision (.ofConfigs configs d.width)
      let (n, d) := (← dfa env.decision).setStart n
      modifyDfa env.decision fun _ => d
      return n

/-- Simulates the network to find where a token leads, and records it. -/
def computeTarget (env : Env η) (n : Nat) (symbol : Int) : PredictM η DfaEdge := do
  let d ← dfa env.decision
  match ← onConfigs (reachSet env (d.state n).configs symbol false) with
  | none =>
    recordEdge env n symbol .dead
    return .dead
  | some reach =>
    let alts := (env.net.decisionState env.decision).transitions.length
    let target ← register env.decision (stateOf env.net (← get).mode alts d.width reach)
    recordEdge env n symbol (.target target)
    return .target target

/-- Where a token leads, by the recorded edge if there is one. -/
def target (env : Env η) (n : Nat) (symbol : Int) : PredictM η DfaEdge := do
  match (edgePlace? env.net symbol).bind ((← dfa env.decision).state n).edge? with
  | some e =>
    count fun s => { s with dfaHits := s.dfaHits + 1 }
    return e
  | none =>
    count fun s => { s with networkSteps := s.networkSteps + 1 }
    computeTarget env n symbol

/-! ## Outcomes -/

/-- No alternative goes on with the token at the place of the stream. -/
def fail (env : Env η) (start offending : Nat) : PredictM η (Except RecognitionError Nat) := do
  report (.noViableAlt env.decision start offending)
  return .error (.noViableAlt env.decision start offending)

/-- The alternative to take when no alternative goes on. -/
def failOrFallback (env : Env η) (start : Nat) (configs : ConfigSet) :
    PredictM η (Except RecognitionError Nat) := do
  let offending ← index
  match ← onConfigs (fallbackAlt env configs) with
  | some alt => return .ok alt
  | none => fail env start offending

/-! ## Full context -/

/-- The alternative that full context settles on, and whether an ambiguity is exact. -/
def settled? (mode : PredictionMode) (reach : ConfigSet) : Option (Nat × Bool) :=
  let gs := conflictGroups reach
  if reach.uniqueAlt ≠ invalidAlt then some (reach.uniqueAlt, false)
  else if mode ≠ .exact then
    let alt := singleViable gs
    if alt ≠ invalidAlt then some (alt, false) else none
  else if allConflict gs && allEqual gs then some (singleViable gs, true)
  else none

/-- Reports what full context found out and gives its alternative. -/
def concludeFull (env : Env η) (start : Nat) (reach : ConfigSet) (alt : Nat) (exact : Bool) :
    PredictM η Nat := do
  let stop ← index
  if reach.uniqueAlt ≠ invalidAlt then
    count fun s => { s with sensitivities := s.sensitivities + 1 }
    report (.sensitivity env.decision start stop alt)
  else
    count fun s => { s with ambiguities := s.ambiguities + 1 }
    report (.ambiguity env.decision start stop exact reach.alts)
  return alt

/-- Follows the tokens with full context. -/
def runFull (env : Env η) (start : Nat) :
    Nat → ConfigSet → Int → PredictM η (Except RecognitionError Nat)
  | 0, _, _ => failure
  | rounds + 1, configs, symbol => do
    match ← onConfigs (reachSet env configs symbol true) with
    | none => failOrFallback env start configs
    | some reach =>
      let reach := { reach with uniqueAlt := reach.sharedAlt }
      match settled? (← get).mode reach with
      | some (alt, exact) => return .ok (← concludeFull env start reach alt exact)
      | none =>
        if symbol ≠ endOfInput then
          onStream (TokenStream.consume env.fuel)
          let next ← onStream (TokenStream.la env.fuel 1)
          runFull env start rounds reach next
        else runFull env start rounds reach symbol

/-- Repeats the prediction with full context. -/
def predictFull (env : Env η) (start : Nat) (outer : Context) (conflicting : Option AltSet) :
    PredictM η (Except RecognitionError Nat) := do
  let configs ← onConfigs (startSet env outer true)
  count fun s => { s with fullContext := s.fullContext + 1 }
  report (.fullContext env.decision start (← index) conflicting)
  onStream (TokenStream.returnTo env.fuel start)
  let symbol ← onStream (TokenStream.la env.fuel 1)
  runFull env start env.fuel configs symbol

/-! ## Local context -/

/-- Settles a conflict: by guards, if one alternative is left, or with full context. -/
def settleConflict (env : Env η) (start : Nat) (outer : Context) (d : DfaState) :
    PredictM η (Except RecognitionError Nat) := do
  match d.predicates with
  | none => predictFull env start outer d.configs.conflicting
  | some guarded =>
    let enabled ← onConfigs (enabledAlts env guarded)
    if enabled.size = 1 then return .ok (enabled.min?.getD invalidAlt)
    predictFull env start outer (some enabled)

/-- The alternative of an accepting state: the least of those whose guards hold. -/
def accept (env : Env η) (start : Nat) (d : DfaState) :
    PredictM η (Except RecognitionError Nat) := do
  match d.predicates with
  | none => return .ok d.prediction.toNat
  | some guarded =>
    onStream (TokenStream.returnTo env.fuel start)
    match (← onConfigs (enabledAlts env guarded)).min? with
    | some alt => return .ok alt
    | none => fail env start (← index)

/-- Follows the tokens through the learned automaton. -/
def runLocal (env : Env η) (start : Nat) (outer : Context) :
    Nat → Nat → Int → PredictM η (Except RecognitionError Nat)
  | 0, _, _ => failure
  | rounds + 1, n, symbol => do
    match ← target env n symbol with
    | .dead => failOrFallback env start ((← dfa env.decision).state n).configs
    | .target next =>
      let d := (← dfa env.decision).state next
      if d.needsFullContext && (← get).mode != .sll then settleConflict env start outer d
      else if d.accepts then accept env start d
      else if symbol ≠ endOfInput then
        onStream (TokenStream.consume env.fuel)
        let symbol ← onStream (TokenStream.la env.fuel 1)
        runLocal env start outer rounds next symbol
      else runLocal env start outer rounds next symbol

/-! ## Predictions -/

/-- The alternative of a decision to take where the stream stands. The call stack lists the calling
states of the rules in progress, outermost first; the precedence is that of the innermost call of a
left-recursive rule. -/
def predict (net : Network) (fuel : Nat) (evaluator : Guard.Evaluator η) (decision : Nat)
    (callStack : List Nat) (precedence : Int) : PredictM η (Except RecognitionError Nat) := do
  count fun s => { s with predictions := s.predictions + 1 }
  let d ← dfa decision
  let env : Env η := { net, decision, startState := d.networkState, precedenceLoop := d.precedence
                       evaluator, fuel }
  let start ← index
  modify ({ · with merges := {} })
  let n ← startState env precedence
  let symbol ← onStream (TokenStream.la fuel 1)
  let result ← runLocal env start (Context.ofCallStack net callStack) fuel n symbol
  onStream (TokenStream.returnTo fuel start)
  return result

end Simulator

end AdaptiveLL
