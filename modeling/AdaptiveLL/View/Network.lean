import AdaptiveLL.Json.Decode
import AdaptiveLL.Network.Words

/-!
# Networks as tools see them

The JSON forms in which a tool looks at networks and writes down parts of them: a set is an array of
intervals, an action or a kind of state is an array that begins with its name, a label is an object of
one member. Links that are not known are `null`.
-/

set_option autoImplicit false

namespace AdaptiveLL

/-! ## Sets and actions -/

/-- An array of intervals. -/
def SymbolSet.view (s : SymbolSet) : Json := .ofList (fun r => .arr [.int r.1, .int r.2]) s.intervals

/-- A set with its text, its size and its ends. -/
def SymbolSet.summary (s : SymbolSet) : Json :=
  .obj [("i", s.view), ("size", .ofNat s.size), ("min", .ofOption .int s.min?),
    ("max", .ofOption .int s.max?), ("empty", .bool s.isEmpty), ("s", .str s.toText),
    ("d", .str s.toText)]

/-- Reads an interval. -/
def SymbolSet.intervalOfView? : Json → Option (Int × Int)
  | .arr [.int a, .int b] => some (a, b)
  | _ => none

/-- Reads a set; the intervals are added in order. -/
def SymbolSet.ofView? (j : Json) : Option SymbolSet :=
  (j.orDefault [] (Json.list? intervalOfView?)).map ofRanges

/-- An array of the name of an action and its operands. -/
def LexerAction.view : LexerAction → Json
  | .channel c => .arr [.str "channel", .int c]
  | .custom r a => .arr [.str "custom", .ofNat r, .ofNat a]
  | .mode m => .arr [.str "mode", .ofNat m]
  | .more => .arr [.str "more"]
  | .popMode => .arr [.str "pop"]
  | .pushMode m => .arr [.str "push", .ofNat m]
  | .skip => .arr [.str "skip"]
  | .type t => .arr [.str "type", .int t]
  | .indexed o a => .arr [.str "indexed", .ofNat o, a.view]

/-- Reads an action. -/
def LexerAction.ofView? : Json → Option LexerAction
  | .arr [.str "channel", .int c] => some (.channel c)
  | .arr [.str "custom", .int r, .int a] => some (.custom r.toNat a.toNat)
  | .arr [.str "mode", .int m] => some (.mode m.toNat)
  | .arr [.str "more"] => some .more
  | .arr [.str "pop"] => some .popMode
  | .arr [.str "push", .int m] => some (.pushMode m.toNat)
  | .arr [.str "skip"] => some .skip
  | .arr [.str "type", .int t] => some (.type t)
  | .arr [.str "indexed", .int o, a] => (ofView? a).map (.indexed o.toNat)
  | _ => none

/-- The actions of a match; without actions there is nothing to see. -/
def LexerAction.listView (actions : List LexerAction) : Json :=
  if actions.isEmpty then .null else .ofList view actions

/-- Reads a list of actions. -/
def LexerAction.listOfView? : Json → Option (List LexerAction) := Json.orDefault [] (Json.list? ofView?)

/-! ## Transitions -/

/-- An object whose member is named for the kind of the label. -/
def Label.view : Label → Json
  | .epsilon r => .obj [("epsilon", .ofOption .ofNat r)]
  | .range a b => .obj [("range", .arr [.int a, .int b])]
  | .rule r p f => .obj [("rule", .arr [.ofNat r, .int p, .ofNat f])]
  | .predicate r p c => .obj [("predicate", .arr [.ofNat r, .ofNat p, .bool c])]
  | .atom a => .obj [("atom", .int a)]
  | .action r a c => .obj [("action", .arr [.ofNat r, .ofOption .ofNat a, .bool c])]
  | .set s => .obj [("set", s.view)]
  | .notSet s => .obj [("notset", s.view)]
  | .wildcard => .obj [("wildcard", .bool true)]
  | .precedence p => .obj [("precedence", .int p)]

/-- Reads a label of a kind. -/
def Label.ofMember? : String → Json → Option Label
  | "epsilon", v => (v.opt? Json.nat?).map .epsilon
  | "range", .arr [.int a, .int b] => some (.range a b)
  | "rule", .arr [.int r, .int p, .int f] => some (.rule r.toNat p f.toNat)
  | "predicate", v => do
    return .predicate (← (v.nth 0).nat?) (← (v.nth 1).nat?) (← (v.nth 2).mark?)
  | "atom", .int a => some (.atom a)
  | "action", v => do
    return .action (← (v.nth 0).nat?) (← (v.nth 1).opt? Json.nat?) (← (v.nth 2).mark?)
  | "set", v => (SymbolSet.ofView? v).map .set
  | "notset", v => (SymbolSet.ofView? v).map .notSet
  | "wildcard", _ => some .wildcard
  | "precedence", .int p => some (.precedence p)
  | _, _ => none

/-- Reads a label. -/
def Label.ofView? : Json → Option Label
  | .obj [(kind, v)] => ofMember? kind v
  | _ => none

/-- The target and the label. -/
def Transition.view (t : Transition) : Json := .arr [.ofNat t.target, t.label.view]

/-- A transition with what holds of its label. A query asks whether a symbol is consumed when
complements range between two bounds. -/
def Transition.summary (t : Transition) (queries : List (Int × Int × Int)) : Json :=
  .obj [("t", t.view), ("epsilon", .bool t.label.isEpsilon), ("eof", .bool t.label.isEof),
    ("type", .ofNat t.label.code.toNat), ("label", .ofOption SymbolSet.view t.label.symbols?),
    ("matches", .ofList (fun (v, lo, hi) => .bool (t.label.accepts v lo hi)) queries)]

/-! ## States -/

/-- The blocks by name. -/
def BlockKind.names : List (String × BlockKind) := [("Basic", .basic), ("Plus", .plus), ("Star", .star)]

/-- The name of a block. -/
def BlockKind.name : BlockKind → String
  | .basic => "Basic"
  | .plus => "Plus"
  | .star => "Star"

/-- An array of the name of a kind and its links and marks. -/
def StateKind.view : StateKind → Json
  | .invalid => .arr [.str "invalid"]
  | .basic => .arr [.str "basic"]
  | .ruleStart stop r => .arr [.str "rule_start", .ofOption .ofNat stop, .bool r]
  | .blockStart b stop => .arr [.str "block_start", .str b.name, .ofOption .ofNat stop]
  | .blockEnd start => .arr [.str "block_end", .ofOption .ofNat start]
  | .tokenStart => .arr [.str "token_start"]
  | .ruleStop => .arr [.str "rule_stop"]
  | .starLoopBack => .arr [.str "star_loop_back"]
  | .starLoopEntry back p => .arr [.str "star_loop_entry", .ofOption .ofNat back, .bool p]
  | .plusLoopBack => .arr [.str "plus_loop_back"]
  | .loopEnd back => .arr [.str "loop_end", .ofOption .ofNat back]

/-- Reads a kind of state. Links and marks that are left out are unknown and false. -/
def StateKind.ofView? (j : Json) : Option StateKind := do
  match ← (j.nth 0).str? with
  | "invalid" => return .invalid
  | "basic" => return .basic
  | "rule_start" => return .ruleStart (← (j.nth 1).link?) (← (j.nth 2).mark?)
  | "block_start" => return .blockStart (← (j.nth 1).bareCase? BlockKind.names) (← (j.nth 2).link?)
  | "block_end" => return .blockEnd (← (j.nth 1).link?)
  | "token_start" => return .tokenStart
  | "rule_stop" => return .ruleStop
  | "star_loop_back" => return .starLoopBack
  | "star_loop_entry" => return .starLoopEntry (← (j.nth 1).link?) (← (j.nth 2).mark?)
  | "plus_loop_back" => return .plusLoopBack
  | "loop_end" => return .loopEnd (← (j.nth 1).link?)
  | _ => none

/-- A state with its transitions. -/
def State.view (s : State) : Json :=
  .obj [("n", .ofNat s.number), ("rule", .ofOption .ofNat s.rule), ("kind", s.kind.view),
    ("type", .ofNat s.kind.code.toNat), ("eps", .bool s.epsilonOnly),
    ("decision", .ofOption .ofNat s.decision), ("nongreedy", .bool s.nonGreedy),
    ("trans", .ofList Transition.view s.transitions)]

/-- A network with its tables. -/
def Network.view (net : Network) : Json :=
  .obj [("type", .str net.kind.name), ("max", .int net.maxTokenType),
    ("states", .ofList State.view net.states.toList), ("decisions", .ofNats net.decisions.toList),
    ("rule_start", .ofList (fun n => .ofOption .ofNat (Json.stateOf n)) net.ruleStarts.toList),
    ("rule_stop", .ofList (.ofOption .ofNat) net.ruleStops.toList),
    ("rule_types", .ofList .int net.ruleTypes.toList), ("modes", .ofNats net.modeStarts.toList),
    ("actions", .ofList LexerAction.view net.actions.toList),
    ("sets", .ofList SymbolSet.view net.sets.toList)]

/-- The sizes of a network. -/
def Network.counts (net : Network) : Json :=
  .obj [("states", .ofNat net.states.size), ("decisions", .ofNat net.decisions.size),
    ("rules", .ofNat net.numRules), ("lexer", .bool net.isLexer)]

/-- The calling states of a network, each with its rule and the state to follow. -/
def Network.callsView (net : Network) : Json :=
  .arr (net.states.toList.filterMap fun s =>
    s.follow?.map fun follow => .arr [.ofNat s.number, .ofOption .ofNat s.rule, .ofNat follow])

/-- The words of a network. -/
def wordsView (ws : List Word) : Json := .ofList (fun w => .ofNat w.toNat) ws

end AdaptiveLL
