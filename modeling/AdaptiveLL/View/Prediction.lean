import AdaptiveLL.Dfa
import AdaptiveLL.View.Network

/-!
# Predictions as tools see them

The JSON forms of contexts, guards, configurations and learned automata. A context is written down as
a list of call stacks, each a list of return states, outermost first.
-/

set_option autoImplicit false

namespace AdaptiveLL

/-- The text of a context, its return states and what holds of it. -/
def Context.view (c : Context) : Json :=
  .obj [("s", .str c.toText), ("rs", .ofList (·.elim (.str "$") .ofNat) c.returnStates),
    ("empty", .bool c.isEmpty), ("has_empty", .bool c.hasEmptyPath)]

/-- The context of a list of call stacks; without stacks it is the empty one. -/
def Context.ofStacks (callStacks : List (List Nat)) : Context :=
  match callStacks.map (·.foldl (fun c n => singleton c (Json.stateOf n)) empty) with
  | [] => empty
  | c :: rest => rest.foldl (merge false) c

/-- Reads a list of call stacks. -/
def Context.ofView? (j : Json) : Option Context :=
  (j.orDefault [] (Json.list? Json.nats?)).map ofStacks

/-- A guard as an object named for its kind; a guard that always holds is `true`. -/
def Guard.view : Guard → Json
  | .always => .bool true
  | .predicate r p c => .obj [("pred", .arr [.ofNat r, .ofNat p, .bool c])]
  | .precedence p => .obj [("prec", .int p)]
  | .all gs => .obj [("and", .arr (gs.map Guard.view))]
  | .any gs => .obj [("or", .arr (gs.map Guard.view))]

mutual

/-- Reads a guard. -/
def Guard.ofView? : Json → Option Guard
  | .null | .bool true => some .always
  | .obj [("pred", v)] => do
    return .predicate (← (v.nth 0).nat?) (← (v.nth 1).nat?) (← (v.nth 2).mark?)
  | .obj [("prec", .int p)] => some (.precedence p)
  | .obj [("and", .arr gs)] => (Guard.listOfView? gs).map .all
  | .obj [("or", .arr gs)] => (Guard.listOfView? gs).map .any
  | _ => none

/-- Reads a list of guards. -/
def Guard.listOfView? : List Json → Option (List Guard)
  | [] => some []
  | j :: rest => do return (← Guard.ofView? j) :: (← Guard.listOfView? rest)

end

/-- The text of a configuration and what the text leaves out. -/
def Config.view (c : Config) : Json :=
  .obj [("s", .str c.toText), ("up", .ofNat c.outerDepth), ("pfs", .bool c.filterSuppressed),
    ("ng", .bool c.nonGreedy), ("exec", LexerAction.listView c.actions)]

/-- Reads a configuration. -/
def Config.ofView? (j : Json) : Option Config := do
  return {
    state := ← (j.get "state").nat?
    alt := ← (j.get "alt").nat?
    context := ← Context.ofView? (j.get "ctx")
    guard := ← Guard.ofView? (j.get "sem")
    outerDepth := ← (j.get "up").orDefault 0 Json.nat?
    filterSuppressed := ← (j.get "pfs").mark?
    nonGreedy := ← (j.get "ng").mark?
    actions := ← LexerAction.listOfView? (j.get "exec") }

/-- A set of alternatives with its text, its size and its least member. -/
def AltSet.view (s : AltSet) : Json :=
  .obj [("v", .ofNats s.members), ("min", .ofOption .ofNat s.min?), ("len", .ofNat s.size),
    ("empty", .bool s.isEmpty), ("s", .str s.toText)]

/-- A set of configurations with what holds of it. -/
def ConfigSet.view (s : ConfigSet) : Json :=
  .obj [("s", .str s.toText), ("ordered", .bool s.ordered), ("len", .ofNat s.size),
    ("empty", .bool s.isEmpty), ("full", .bool s.fullContext), ("sem", .bool s.hasGuards),
    ("dips", .bool s.dipsIntoOuter), ("alts", .ofNats s.alts.members), ("unique", .ofNat s.sharedAlt),
    ("configs", .ofList Config.view s.configs.toList)]

/-- The texts of the states of an automaton. -/
def Dfa.statesView (d : Dfa) : Json := .ofList (fun s => .str s.toText) d.states.toList

/-- An automaton: the number of its states and its edges, and in full the text of each state. -/
def Dfa.view (full : Bool) (d : Dfa) : Json :=
  .obj ([("states", .ofNat d.states.size), ("edges", .str (d.toText toString)),
    ("prec", .bool d.precedence), ("start", .ofNat d.networkState)] ++
    if full then [("configs", d.statesView)] else [])

/-- Where an edge leads; a dead one is an error. -/
def DfaEdge.view : DfaEdge → Json
  | .dead => .str "error"
  | .target n => .ofNat n

/-- An automaton with its parameters and the number of contexts that are kept. -/
def Dfa.summary (d : Dfa) (contexts : Nat) : Json :=
  .obj [("n", .ofNat d.states.size), ("prec", .bool d.precedence), ("edges", .ofNat d.width),
    ("decision", .ofNat d.decision), ("start", .ofNat d.networkState), ("contexts", .ofNat contexts),
    ("s", .str (d.toText toString)), ("states", d.statesView)]

/-- The automata of a network. -/
def DfaCache.view (full : Bool) (c : DfaCache) : Json :=
  .obj [("total", .ofNat c.totalStates), ("empty", .bool c.dfas.isEmpty),
    ("dfas", .ofList (Dfa.view full) c.dfas.toList)]

end AdaptiveLL
