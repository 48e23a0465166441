import AdaptiveLL.Network.Lookahead
import AdaptiveLL.Parser.Basic

/-!
# Syntax errors

A parser reports a syntax error and goes on. A wrong token is passed over when the token behind it is
expected; a missing token is made up when the current one can follow it. Otherwise the rule in
progress is given up, and tokens are passed over until one can follow some rule on the call stack.
Between an error and the next match no further error is reported.
-/

set_option autoImplicit false

namespace AdaptiveLL.Parser

variable {η : Type}

/-! ## Expected tokens and their names -/

/-- The tokens that a parser with this call stack could accept at a state. -/
def expectedAt (p : Parser η) (state : Nat) : SymbolSet := p.net.expectedTokens state p.callStack

/-- The tokens that could be accepted next. -/
def expected (p : Parser η) : SymbolSet := p.expectedAt p.state

/-- The tokens that can follow some rule on the call stack. -/
def recoverySet (p : Parser η) : SymbolSet :=
  let following : SymbolSet := (p.net.follows p.callStack).foldl
    (fun found n => found.union (p.net.nextTokens n)) {}
  following.remove epsilonSymbol

/-- The name of a token type in a message. -/
def symbolName (info : GrammarInfo) (type : Int) : String :=
  if type = endOfInput then "<EOF>"
  else if type = epsilonSymbol then "<EPSILON>"
  else info.displayName type

/-- A set of token types in a message. -/
def namesOf (p : Parser η) (set : SymbolSet) : String := set.namesText (symbolName p.info)

/-- A token in a message. -/
def quotedToken (p : Parser η) : Option Token → String
  | none => "<no token>"
  | some t => "'" ++ Text.escapeWhitespace (p.leafText t) ++ "'"

/-! ## Reports -/

/-- Notes that a token was matched: the next error will be reported. -/
def noteMatch : ParseM η Unit := modify ({ · with recovery := {} })

/-- Reports a syntax error at a token. -/
def report (offending : Option Token) (message : String) (error : Option RecognitionError) :
    ParseM η Unit := do
  modify fun p => { p with syntaxErrors := p.syntaxErrors + 1 }
  let line := (offending.map (·.line)).getD 0
  let column := (offending.map (·.column)).getD 0
  modifyThe Journal (·.push (.report .parser (.syntaxError offending line column message error)))

/-- Runs a report unless an error was reported since the last match. -/
def unlessRecovering (step : ParseM η Unit) : ParseM η Unit := do
  if !(← get).recovery.active then
    modify fun p => { p with recovery := { p.recovery with active := true } }
    step

/-- The text from one token to another in a message; at the end of the input there is none. -/
def inputText (p : Parser η) (start stop : Nat) : String :=
  let atEnd := ((p.stream.get? start).map (·.isEof)).getD true
  if atEnd then "<EOF>" else p.stream.textBetween start stop

/-- Reports an error that the walk met. -/
def reportError (fuel : Nat) (e : RecognitionError) : ParseM η Unit :=
  unlessRecovering do
    let p ← get
    match e with
    | .noViableAlt _ start offending =>
      let text := Text.escapeWhitespace (p.inputText start offending)
      report (p.stream.get? offending) s!"no viable alternative at input '{text}'" (some e)
    | .inputMismatch state offending =>
      let t := p.stream.get? offending
      let expected := p.namesOf (p.expectedAt state)
      report t ("mismatched input " ++ p.quotedToken t ++ " expecting " ++ expected) (some e)
    | .failedPredicate rule predicate =>
      let t ← currentToken fuel
      let name := p.info.ruleName rule
      report (some t) ("rule " ++ name ++ " failed predicate: \x7b" ++ predicate ++ "\x7d?") (some e)
    | .noViableToken _ _ =>
      let t ← currentToken fuel
      report (some t) e.message (some e)

/-- Reports a token that should not be there. -/
def reportUnwanted (fuel : Nat) : ParseM η Unit :=
  unlessRecovering do
    let t ← currentToken fuel
    let p ← get
    report (some t)
      ("extraneous input " ++ p.quotedToken t ++ " expecting " ++ p.namesOf p.expected) none

/-- Reports that a token is missing. -/
def reportMissing (fuel : Nat) : ParseM η Unit :=
  unlessRecovering do
    let t ← currentToken fuel
    let p ← get
    report (some t) ("missing " ++ p.namesOf p.expected ++ " at " ++ p.quotedToken t) none

/-! ## Giving up a rule -/

/-- Passes over tokens until one of the set or the end of the input. -/
def consumeUntil (fuel : Nat) (set : SymbolSet) : ParseM η Unit := go fuel
where
  /-- Passes over as many tokens as the argument allows. -/
  go : Nat → ParseM η Unit
    | 0 => failure
    | rounds + 1 => do
      let type ← la fuel 1
      if type ≠ endOfInput && !set.contains type then
        consume fuel
        go rounds

/-- Stands in the tree for what an error left out: a token of an expected type where the current one
is. -/
def standIn (p : Parser η) (e : RecognitionError) (current : Token) : Token :=
  let type := match e with
    | .inputMismatch state _ => (p.expectedAt state).min?.getD invalidType
    | _ => invalidType
  { current with type, index := none, channel := defaultChannel }

/-- Passes over tokens up to one that can follow a rule on the call stack. A second recovery at the
same token and state first passes over that token, so that the parse gets on. When no token is passed
over, the tree gets an error node. -/
def recover (fuel : Nat) (e : RecognitionError) : ParseM η Unit := do
  let p ← get
  let i := p.stream.index
  if p.recovery.lastIndex = some i && p.recovery.lastStates.contains p.state then consume fuel
  modify fun p => { p with recovery := { p.recovery with
    lastIndex := some p.stream.index
    lastStates := p.recovery.lastStates ++ [p.state] } }
  consumeUntil fuel (← get).recoverySet
  let p ← get
  if p.stream.index = i && p.buildTrees then
    let t ← currentToken fuel
    onTree fun tree => (tree.addLeaf p.ctx (.error (p.standIn e t))).2

/-! ## Repairs in place -/

/-- Passes over the current token if the one behind it is expected; gives the token that is then
current. -/
def deleteToken? (fuel : Nat) : ParseM η (Option Token) := do
  let next ← la fuel 2
  if (← get).expected.contains next then
    reportUnwanted fuel
    consume fuel
    let t ← currentToken fuel
    noteMatch
    return some t
  else return none

/-- Reports a missing token if the current one can follow it; says whether it can. -/
def insertToken (fuel : Nat) : ParseM η Bool := do
  let current ← la fuel 1
  let p ← get
  match (p.net.state p.state).transitions with
  | [] => return false
  | t :: _ =>
    if (p.net.nextTokensInContext t.target p.callStack).contains current then
      reportMissing fuel
      return true
    else return false

/-- Makes up the token that is missing, at the place of the current one. -/
def missingToken (fuel : Nat) : ParseM η Token := do
  let p ← get
  let type := p.expected.min?.getD invalidType
  let name := if type = endOfInput then "EOF" else p.info.displayName type
  let current ← currentToken fuel
  let place ←
    if current.isEof then pure ((← onStream (TokenStream.lt fuel (-1))).getD current)
    else pure current
  return {
    type, channel := defaultChannel, start := place.start, stop := place.start, line := place.line
    column := place.column, index := none, text := some ("<missing " ++ name ++ ">") }

/-- The error that the current token does not go on from the current state. -/
def mismatch {α : Type} : WalkM η α := do
  let p ← get
  throw (.inputMismatch p.state p.stream.index)

/-- Repairs a token that does not match: passes over it or makes up the one that is missing. A token
made up goes into the tree. -/
def repair (fuel : Nat) : WalkM η Unit := do
  let matched ← match ← sure (deleteToken? fuel) with
    | some t => do
      sure (consume fuel)
      pure t
    | none => do
      if ← sure (insertToken fuel) then sure (missingToken fuel) else mismatch
  let p ← get
  if p.buildTrees && matched.index.isNone then
    sure (onTree fun tree => (tree.addLeaf p.ctx (.error matched)).2)

/-- Looks at the current token before a decision: a token with which no alternative begins is passed
over, one token at the start of a block or loop, and all up to an expected one when a loop is about to
go round again. -/
def sync (fuel : Nat) : WalkM η Unit := do
  if (← get).recovery.active then return ()
  let symbol ← sure (la fuel 1)
  let p ← get
  let next := p.net.nextTokens p.state
  if next.contains symbol || next.contains epsilonSymbol then return ()
  match (p.net.state p.state).kind with
  | .blockStart _ _ | .starLoopEntry _ _ =>
    if (← sure (deleteToken? fuel)).isNone then mismatch
  | .plusLoopBack | .starLoopBack =>
    sure (reportUnwanted fuel)
    let p ← get
    sure (consumeUntil fuel (p.expected.union p.recoverySet))
  | _ => return ()

end AdaptiveLL.Parser
