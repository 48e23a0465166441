import AdaptiveLL.Network.Words

/-!
# Writing networks

`Network.encode` writes a network in the current format: version and format identifier, kind and
greatest token type, states, non-greedy states, left-recursive rule starts, rules, modes, sets,
transitions, decisions and, for lexers, actions. Every list is preceded by its length. What the
reader derives again is not written: the transitions that leave the stop state of a rule, and the
links that follow from others. A number that has no word is refused.
-/

set_option autoImplicit false

namespace AdaptiveLL

namespace Encode

/-- The word of a number; the greatest word is kept for "none". -/
def word (v : Int) : Except EncodeError Word :=
  if 0 ≤ v ∧ v < 0xFFFF then .ok (UInt16.ofNat v.toNat) else .error (.wordRange v)

/-- The word of an index or a count, which is first read as a signed number. One of more than 64 bits
has no such reading. -/
def index (n : Nat) : Except EncodeError Word :=
  if n < 18446744073709551616 then word (signed64 n) else .error (.wordRange n)

/-- The word of a number that may be -1. -/
def signedWord (v : Int) : Except EncodeError Word :=
  if v = -1 then .ok noneWord else word v

/-- The word of an index that may be absent. -/
def optional : Option Nat → Except EncodeError Word
  | some n => index n
  | none => .ok noneWord

/-- The words of a list of items, in order. -/
def concat {α : Type} (f : α → Except EncodeError (List Word)) (xs : List α) :
    Except EncodeError (List Word) :=
  return (← xs.mapM f).flatten

/-- A list of indices after its length. -/
def indices (ns : List Nat) : Except EncodeError (List Word) := do
  return (← index ns.length) :: (← ns.mapM index)

/-! ## States -/

/-- The kind of a state, its rule and the link that its kind calls for. -/
def state (s : State) : Except EncodeError (List Word) :=
  match s.kind with
  | .invalid => .ok [s.kind.code]
  | .loopEnd link | .blockStart _ link => do
    return [s.kind.code, ← optional s.rule, ← word (linkValue link)]
  | _ => do return [s.kind.code, ← optional s.rule]

/-- The states after their number. -/
def states (net : Network) : Except EncodeError (List Word) := do
  return (← index net.states.size) :: (← concat state net.states.toList)

/-- The numbers of the states with a property. -/
def numbersOf (net : Network) (p : State → Bool) : List Nat :=
  (net.states.toList.filter p).map (·.number)

/-! ## Rules -/

/-- The start state of a rule and, for lexers, its token type. -/
def rule (net : Network) (r : Nat) : Except EncodeError (List Word) := do
  let start ← index (net.ruleStart r)
  if net.isLexer then
    let type := net.ruleTypes.getD r 0
    return [start, ← signedWord type]
  else return [start]

/-- The rules after their number. -/
def rules (net : Network) : Except EncodeError (List Word) := do
  return (← index net.numRules) :: (← concat (rule net) (List.range net.numRules))

/-! ## Sets -/

/-- The distinct sets that transitions refer to: those whose symbols fit in 16 bits, and the
others. -/
structure SetTable where
  narrow : List SymbolSet := []
  wide : List SymbolSet := []

/-- Does some symbol need more than 16 bits? -/
def isWide (s : SymbolSet) : Bool := decide (s.max?.getD 0 > 0xFFFF)

namespace SetTable

/-- Adds a set behind the others, unless it is there. -/
def insert (t : SetTable) (s : SymbolSet) : SetTable :=
  if isWide s then
    if t.wide.contains s then t else { t with wide := t.wide ++ [s] }
  else
    if t.narrow.contains s then t else { t with narrow := t.narrow ++ [s] }

/-- The set that a label refers to. -/
def referred? : Label → Option SymbolSet
  | .set s | .notSet s => some s
  | _ => none

/-- The sets of a network in the order of their first use. -/
def collect (net : Network) : SetTable :=
  (net.states.toList.flatMap fun s => s.transitions.filterMap fun t => referred? t.label).foldl
    insert {}

/-- The number of a set; the wide sets are numbered behind the narrow ones. -/
def indexOf (t : SetTable) (s : SymbolSet) : Except EncodeError Nat :=
  match (t.narrow ++ t.wide).findIdx? (· == s) with
  | some i => .ok i
  | none => .error (.unknownSet s)

end SetTable

/-- The words of one end of an interval: one, or two with the low half first. -/
def symbol (wide : Bool) (v : Int) : Except EncodeError (List Word) :=
  if wide then
    let n := (v % 4294967296).toNat
    .ok [UInt16.ofNat n, UInt16.ofNat (n >>> 16)]
  else do return [← word v]

/-- The intervals that are written: the end of the input alone is told by a flag. -/
def writtenIntervals (s : SymbolSet) : List (Int × Int) :=
  match s.intervals with
  | (a, b) :: rest => if a = endOfInput ∧ b = endOfInput then rest else (a, b) :: rest
  | [] => []

/-- A set: the number of its intervals, whether it holds the end of the input, the intervals. -/
def set (wide : Bool) (s : SymbolSet) : Except EncodeError (List Word) := do
  let intervals := writtenIntervals s
  let count ← index intervals.length
  let eof : Word := if s.contains endOfInput then 1 else 0
  let ends ← concat (fun r => do
    let lo ← symbol wide (if r.1 = endOfInput then 0 else r.1)
    return lo ++ (← symbol wide r.2)) intervals
  return count :: eof :: ends

/-- The narrow sets after their number, then the wide ones after theirs. -/
def sets (t : SetTable) : Except EncodeError (List Word) := do
  let narrow := (← index t.narrow.length) :: (← concat (set false) t.narrow)
  let wide := (← index t.wide.length) :: (← concat (set true) t.wide)
  return narrow ++ wide

/-! ## Transitions -/

/-- The target and the three operands of a transition. -/
def operands (t : SetTable) (tr : Transition) : Except EncodeError (Nat × Int × Int × Int) :=
  let flag (b : Bool) : Int := if b then 1 else 0
  match tr.label with
  | .epsilon _ | .wildcard => .ok (tr.target, 0, 0, 0)
  | .range lo hi =>
    .ok (if lo = endOfInput then (tr.target, 0, hi, 1) else (tr.target, lo, hi, 0))
  | .rule rule precedence follow =>
    .ok (follow, signed64 tr.target, signed64 rule, precedence)
  | .predicate rule pred ctx => .ok (tr.target, signed64 rule, signed64 pred, flag ctx)
  | .atom a => .ok (if a = endOfInput then (tr.target, 0, 0, 1) else (tr.target, a, 0, 0))
  | .action rule action ctx =>
    .ok (tr.target, signed64 rule, (action.map fun a => signed64 a).getD 0xFFFF, flag ctx)
  | .set s | .notSet s => do return (tr.target, (← t.indexOf s : Nat), 0, 0)
  | .precedence p => .ok (tr.target, p, 0, 0)

/-- A transition: source, target, kind and operands. -/
def transition (t : SetTable) (source : Nat) (tr : Transition) :
    Except EncodeError (List Word) := do
  let (target, a, b, c) ← operands t tr
  return [← index source, ← index target, tr.label.code, ← word a, ← word b, ← word c]

/-- The transitions that are written, each with its source. -/
def writtenTransitions (net : Network) : List (Nat × Transition) :=
  (net.states.toList.filter (!·.kind.isRuleStop)).flatMap fun s =>
    s.transitions.map fun t => (s.number, t)

/-- The transitions after their number. -/
def transitions (net : Network) (t : SetTable) : Except EncodeError (List Word) := do
  let written := writtenTransitions net
  return (← index written.length) :: (← concat (fun e => transition t e.1 e.2) written)

/-! ## Lexer actions -/

/-- An action: its kind and two operands. -/
def action (a : LexerAction) : Except EncodeError (List Word) := do
  let (code, x, y) ← a.encode
  return [code, ← signedWord x, ← signedWord y]

/-- The actions after their number; parsers have none. -/
def actions (net : Network) : Except EncodeError (List Word) := do
  if net.isLexer then
    return (← index net.actions.size) :: (← concat action net.actions.toList)
  else return []

end Encode

/-- The words of a network in the current format. -/
def Network.encode (net : Network) : Except EncodeError (List Word) := do
  let head := formatVersion :: identifierWords Format.current.identifier
  let kind := net.kind.code
  let maxType ← Encode.word net.maxTokenType
  let states ← Encode.states net
  let nonGreedy ← Encode.indices (Encode.numbersOf net (·.nonGreedy))
  let precedence ← Encode.indices (Encode.numbersOf net (·.kind.isLeftRecursiveStart))
  let rules ← Encode.rules net
  let modes ← Encode.indices net.modeStarts.toList
  let table := Encode.SetTable.collect net
  let sets ← Encode.sets table
  let transitions ← Encode.transitions net table
  let decisions ← Encode.indices net.decisions.toList
  let actions ← Encode.actions net
  return head ++ kind :: maxType :: states ++ nonGreedy ++ precedence ++ rules ++ modes ++ sets ++
    transitions ++ decisions ++ actions

end AdaptiveLL
