import AdaptiveLL.AltSet
import AdaptiveLL.Context.Intern
import AdaptiveLL.Context.Merge
import AdaptiveLL.Guard

/-!
# Configurations

A configuration is one thread of a simulation: the state it is in, the alternative it began with, the
context it returns to and the guard it has collected. A set of configurations of a parser keeps one
configuration for each state, alternative and guard, and merges the contexts of those that agree on
the three. A set of a lexer keeps its configurations in the order in which they came, because an
earlier one stands for an earlier rule.
-/

set_option autoImplicit false

namespace AdaptiveLL

/-! ## Configurations -/

/-- One thread of a simulation. -/
structure Config where
  state : Nat
  alt : Nat
  context : Context := .empty
  guard : Guard := .always
  /-- How often the thread left the rule of the decision into an unknown caller. -/
  outerDepth : Nat := 0
  /-- Is the thread exempt from the filter on precedences? -/
  filterSuppressed : Bool := false
  /-- Lexers only: the actions met on the way. -/
  actions : List LexerAction := []
  /-- Lexers only: did the thread pass through a non-greedy decision? -/
  nonGreedy : Bool := false
  deriving DecidableEq, Inhabited

namespace Config

/-- The configuration as far as it counts for equality: the depth outside the rule does not. -/
def identity (c : Config) : Config := { c with outerDepth := 0 }

/-- Do two configurations differ in nothing that counts? -/
def same (a b : Config) : Bool := a.identity == b.identity

instance : Hashable Config := ⟨fun c => mixHash (mixHash (hash c.state) (hash c.alt)) (hash c.context)⟩

/-- The configuration moved to a state. -/
def withState (c : Config) (state : Nat) : Config := { c with state }

/-- The configuration moved to a state with another context. -/
def withContext (c : Config) (state : Nat) (context : Context) : Config := { c with state, context }

/-- The configuration after the return to a caller. It is no longer exempt from the filter. -/
def returningTo (c : Config) (state : Nat) (context : Context) : Config :=
  { c with state, context, filterSuppressed := false }

/-- The configuration moved to a state with another guard. -/
def withGuard (c : Config) (state : Nat) (guard : Guard) : Config := { c with state, guard }

/-- State, alternative and context, then the guard and the depth if there are any. -/
def toText (c : Config) : String :=
  let guard := if c.guard.isAlways then "" else "," ++ c.guard.toText
  let depth := if c.outerDepth > 0 then ",up=" ++ toString c.outerDepth else ""
  "(" ++ toString c.state ++ "," ++ toString c.alt ++ "," ++ c.context.toText ++ guard ++ depth ++ ")"

/-- Do two configurations of a parser share their place in a set? -/
def agrees (a b : Config) : Bool := a.state == b.state && a.alt == b.alt && a.guard == b.guard

/-- Adds to a configuration what another one brings to the same place, the contexts being merged
already. -/
def absorb (c d : Config) (merged : Context) : Config :=
  { c with
    context := merged
    outerDepth := max c.outerDepth d.outerDepth
    filterSuppressed := c.filterSuppressed || d.filterSuppressed }

/-- Does a configuration come before another in the key of a parser's set? -/
def precedes (a b : Config) : Bool :=
  ((compare a.state b.state).then ((compare a.alt b.alt).then (Guard.order a.guard b.guard))).isLE

end Config

/-! ## Sets of configurations -/

/-- The configurations that a simulation has reached. -/
structure ConfigSet where
  configs : Array Config := #[]
  /-- Is it a set of a lexer, which keeps the order? -/
  ordered : Bool := false
  /-- Do the contexts hold the full call stack? -/
  fullContext : Bool := false
  uniqueAlt : Nat := invalidAlt
  conflicting : Option AltSet := none
  hasGuards : Bool := false
  /-- Did some configuration leave the rule of the decision? -/
  dipsIntoOuter : Bool := false
  /-- Lexers only: the configurations as they came. A newcomer is compared with these, and interning,
  which may change the contexts of the set, leaves them alone. -/
  arrivals : Array Config := #[]
  deriving Inhabited

namespace ConfigSet

/-- A set of a parser. -/
def ofParser (fullContext : Bool) : ConfigSet := { fullContext }

/-- A set of a lexer. -/
def ofLexer : ConfigSet := { ordered := true }

/-- Notes what a new configuration says about the whole set. -/
def note (s : ConfigSet) (c : Config) : ConfigSet :=
  { s with
    hasGuards := s.hasGuards || !c.guard.isAlways
    dipsIntoOuter := s.dipsIntoOuter || decide (c.outerDepth > 0) }

/-- The place of the configuration that a new one is merged into. -/
def place? (s : ConfigSet) (c : Config) : Option Nat := s.configs.findIdx? (·.agrees c)

/-- Adds a configuration behind the others. -/
def push (s : ConfigSet) (c : Config) : ConfigSet := { s with configs := s.configs.push c }

/-- Puts the merged context into the configuration at a place. -/
def absorbAt (s : ConfigSet) (i : Nat) (c : Config) (merged : Context) : ConfigSet :=
  { s with configs := s.configs.modify i (·.absorb c merged) }

/-- The context of the configuration at a place. -/
def contextAt (s : ConfigSet) (i : Nat) : Context := (s.configs[i]?.map (·.context)).getD .empty

/-- Adds a configuration to a set of a lexer, unless the same one was added before. -/
def insertOrdered (s : ConfigSet) (c : Config) : ConfigSet :=
  if s.arrivals.any (·.same c) then s
  else { s with configs := s.configs.push c, arrivals := s.arrivals.push c }

/-- Adds a configuration. -/
def insert (s : ConfigSet) (c : Config) : ConfigSet :=
  let s := s.note c
  if s.ordered then s.insertOrdered c
  else
    match s.place? c with
    | some i => s.absorbAt i c (Context.merge (!s.fullContext) (s.contextAt i) c.context)
    | none => s.push c

/-- Adds a configuration, with remembered merges. -/
def insertMemo (s : ConfigSet) (c : Config) (memo : Context.Memo) : ConfigSet × Context.Memo :=
  let s := s.note c
  if s.ordered then (s.insertOrdered c, memo)
  else
    match s.place? c with
    | some i =>
      let (merged, memo) := Context.mergeMemo (!s.fullContext) (s.contextAt i) c.context memo
      (s.absorbAt i c merged, memo)
    | none => (s.push c, memo)

/-- The number of configurations. -/
def size (s : ConfigSet) : Nat := s.configs.size

/-- Has the set no configurations? -/
def isEmpty (s : ConfigSet) : Bool := s.configs.isEmpty

/-- The alternatives of the configurations. -/
def alts (s : ConfigSet) : AltSet := AltSet.ofList (s.configs.toList.map (·.alt))

/-- The alternative that a list of configurations shares with the one seen so far. -/
def sharedAltFrom : Nat → List Config → Nat
  | alt, [] => alt
  | alt, c :: rest =>
    if alt = invalidAlt then sharedAltFrom c.alt rest
    else if c.alt ≠ alt then invalidAlt
    else sharedAltFrom alt rest

/-- The alternative that all configurations share, or the invalid one. -/
def sharedAlt (s : ConfigSet) : Nat := sharedAltFrom invalidAlt s.configs.toList

/-- Puts all contexts into the table of contexts that are kept. -/
def intern (s : ConfigSet) (table : Context.Table) : ConfigSet × Context.Table :=
  let (configs, table) := s.configs.foldl (fun (configs, table) c =>
    let (context, table) := Context.Table.intern c.context table
    (configs.push { c with context }, table)) ((#[], table) : Array Config × Context.Table)
  ({ s with configs }, table)

/-- The configurations by which sets are told apart: in the order of the set for a lexer, sorted for
a parser. -/
def key (s : ConfigSet) : List Config :=
  if s.ordered then s.configs.toList else s.configs.toList.mergeSort Config.precedes

/-- The key without what does not count for equality. -/
def identity (s : ConfigSet) : List Config := s.key.map Config.identity

/-- The configurations, then what holds of the whole set. -/
def toText (s : ConfigSet) : String :=
  Text.bracketed (s.configs.toList.map Config.toText) ++
    (if s.hasGuards then ",hasSemanticContext" else "") ++
    (if s.uniqueAlt ≠ invalidAlt then ",uniqueAlt=" ++ toString s.uniqueAlt else "") ++
    (match s.conflicting with
      | some alts => ",conflictingAlts=" ++ alts.toText
      | none => "") ++
    (if s.dipsIntoOuter then ",dipsIntoOuterContext" else "")

end ConfigSet

end AdaptiveLL
