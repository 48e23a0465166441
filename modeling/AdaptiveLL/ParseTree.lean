import AdaptiveLL.Json.Decode
import AdaptiveLL.Token

/-!
# Parse trees

The nodes of a parse tree lie in a table and name each other by their places in it. A rule node of a
left-recursive rule gets a new parent when the rule goes on after it, so a node knows its parent and
its children, and neither link follows from the other: a node is a child only once it is attached.

`render` writes a subtree as nested lists. Its recursion is bounded by the number of nodes, which no
path from parent to child exceeds.
-/

set_option autoImplicit false

namespace AdaptiveLL

/-- What a node stands for. -/
inductive NodeKind where
  /-- A call of a rule, with its alternative when that is known. -/
  | rule (rule : Nat) (alt : Option Nat)
  /-- A token that the grammar asked for. -/
  | token (token : Token)
  /-- A token that error recovery passed over or made up. -/
  | error (token : Token)
  deriving DecidableEq

instance : Inhabited NodeKind := ⟨.rule 0 none⟩

/-- A node of a parse tree. -/
structure TreeNode where
  kind : NodeKind
  parent : Option Nat := none
  children : List Nat := []
  /-- The state that called the rule; none for the rule that the parse began with. -/
  invoking : Option Nat := none
  /-- The place of the first token of a rule. -/
  start : Option Nat := none
  /-- The place of the last token of a rule. -/
  stop : Option Nat := none
  deriving DecidableEq, Inhabited

/-- A table of nodes. -/
structure ParseTree where
  nodes : Array TreeNode := #[]
  deriving DecidableEq, Inhabited

namespace ParseTree

/-! ## Looking at nodes -/

/-- The number of nodes. -/
def size (t : ParseTree) : Nat := t.nodes.size

/-- The node at a place. -/
def node (t : ParseTree) (id : Nat) : TreeNode := t.nodes.getD id default

/-- The parent of a node. -/
def parent? (t : ParseTree) (id : Nat) : Option Nat := (t.node id).parent

/-- The children of a node. -/
def children (t : ParseTree) (id : Nat) : List Nat := (t.node id).children

/-- The rule of a rule node. -/
def rule? (t : ParseTree) (id : Nat) : Option Nat :=
  match (t.node id).kind with
  | .rule rule _ => some rule
  | _ => none

/-- The states that called the rules around a node, outermost first. The walk from parent to parent is
bounded by the number of nodes. -/
def callStack (t : ParseTree) (id : Nat) : List Nat :=
  climb (t.size + 1) id []
where
  /-- Climbs from a node to the root. -/
  climb : Nat → Nat → List Nat → List Nat
    | 0, _, inner => inner
    | fuel + 1, id, inner =>
      match t.parent? id with
      | none => inner
      | some parent => climb fuel parent ((t.node id).invoking.toList ++ inner)

/-! ## Building -/

/-- Changes a node. -/
def modify (t : ParseTree) (id : Nat) (f : TreeNode → TreeNode) : ParseTree :=
  { t with nodes := t.nodes.modify id f }

/-- Adds a node that is not attached yet. -/
def push (t : ParseTree) (n : TreeNode) : Nat × ParseTree :=
  (t.size, { t with nodes := t.nodes.push n })

/-- Adds a rule node that knows its parent and is not attached to it. -/
def addRule (t : ParseTree) (rule : Nat) (parent invoking : Option Nat) : Nat × ParseTree :=
  t.push { kind := .rule rule none, parent, invoking }

/-- Attaches a node as the last child of another. -/
def addChild (t : ParseTree) (parent child : Nat) : ParseTree :=
  (t.modify child ({ · with parent := some parent })).modify parent fun n =>
    { n with children := n.children ++ [child] }

/-- Adds a leaf as the last child of a node. -/
def addLeaf (t : ParseTree) (parent : Nat) (kind : NodeKind) : Nat × ParseTree :=
  let (id, t) := t.push { kind }
  (id, t.addChild parent id)

/-- Detaches the last child of a node, if it is the given one. -/
def removeLastChild (t : ParseTree) (parent child : Nat) : ParseTree :=
  t.modify parent fun n =>
    if n.children.getLast? = some child then { n with children := n.children.dropLast } else n

/-! ## Written form -/

/-- What a node shows: the name of its rule, or the text of its token on one line. A rule without a
name shows its number. -/
def label (ruleNames : List String) (tokenText : Token → String) : NodeKind → String
  | .rule rule _ => ruleNames.getD rule (toString rule)
  | .token t | .error t => Text.escapeWhitespace (tokenText t)

/-- A subtree as nested lists: a node without children stands for itself, one with children comes
first in a list of its own. -/
def render (t : ParseTree) (ruleNames : List String) (tokenText : Token → String) (id : Nat) :
    String :=
  go (t.size + 1) id
where
  /-- The subtree at a node, down to the depth that the first argument allows. -/
  go : Nat → Nat → String
    | 0, _ => ""
    | fuel + 1, id =>
      let n := t.node id
      let name := label ruleNames tokenText n.kind
      if n.children.isEmpty then name
      else "(" ++ " ".intercalate (name :: n.children.map (go fuel)) ++ ")"

/-! ## JSON -/

/-- The kind of a node as a JSON value. -/
def kindToJson : NodeKind → Json
  | .rule rule alt => .obj [("Rule", .obj [("rule_index", .ofNat rule), ("alt", .ofOption .ofNat alt)])]
  | .token t => .obj [("Token", t.toJson)]
  | .error t => .obj [("Error", t.toJson)]

/-- Reads the kind of a node. -/
def kindOfJson? (j : Json) : Option NodeKind := do
  match ← j.case? with
  | ("Rule", j) =>
    let r ← j.carried? ["rule_index", "alt"]
    return .rule (← r.required "rule_index" Json.nat?) (← r.optional "alt" Json.nat?)
  | ("Token", j) => return .token (← Token.ofJson? j)
  | ("Error", j) => return .error (← Token.ofJson? j)
  | _ => none

/-- A node as a JSON record. -/
def nodeToJson (n : TreeNode) : Json :=
  .obj [("kind", kindToJson n.kind), ("parent", .ofOption .ofNat n.parent),
    ("children", .ofList .ofNat n.children), ("invoking_state", .ofOption .ofNat n.invoking),
    ("start", .ofOption .ofNat n.start), ("stop", .ofOption .ofNat n.stop)]

/-- Reads a node. -/
def nodeOfJson? (j : Json) : Option TreeNode := do
  let r ← j.record? ["kind", "parent", "children", "invoking_state", "start", "stop"]
  return {
    kind := ← r.required "kind" kindOfJson?
    parent := ← r.optional "parent" Json.nat?
    children := ← r.required "children" (Json.list? Json.nat?)
    invoking := ← r.optional "invoking_state" Json.nat?
    start := ← r.optional "start" Json.nat?
    stop := ← r.optional "stop" Json.nat? }

/-- A tree as a JSON record. -/
def toJson (t : ParseTree) : Json := .obj [("nodes", .ofList nodeToJson t.nodes.toList)]

/-- Reads a tree. -/
def ofJson? (j : Json) : Option ParseTree := do
  let r ← j.record? ["nodes"]
  let nodes ← r.required "nodes" (Json.list? nodeOfJson?)
  return { nodes := nodes.toArray }

end ParseTree

end AdaptiveLL
