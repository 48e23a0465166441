import AdaptiveLL.Proofs.Tree.Spines

/-!
# The line of the rules in progress

The node of each rule in progress knows its parent, its rule and the state that called it, whether trees are
built or not. `Linked` describes a table by what these nodes say of the rules in progress, innermost first;
their children do not matter. Each node is younger than its parent, so the line from the innermost node to
the root ends (`Linked.lineage_eq`). A step of a parse may add nodes as long as it changes none of these links
(`Grows`).
-/

set_option autoImplicit false

namespace AdaptiveLL

/-- What a node says of the rules in progress. -/
def TreeNode.links (n : TreeNode) : NodeKind × Option Nat × Option Nat := (n.kind, n.parent, n.invoking)

namespace ParseTree

/-- The nodes from a node up to the root. The walk from parent to parent is bounded by the number of
nodes. -/
def lineage (t : ParseTree) (id : Nat) : List Nat := climb t.size id
where
  /-- Climbs from a node to the root. -/
  climb : Nat → Nat → List Nat
    | 0, _ => []
    | rounds + 1, id =>
      match t.parent? id with
      | none => [id]
      | some parent => id :: climb rounds parent

variable {t t' t'' : ParseTree} {f : Frame} {frames rest : List Frame}

/-! ## Tables that grow -/

theorem links_modify {id other : Nat} {change : TreeNode → TreeNode}
    (same : other = id → (change (t.node id)).links = (t.node id).links) :
    ((t.modify id change).node other).links = (t.node other).links := by
  by_cases isIt : other = id
  · subst isIt
    by_cases inside : other < t.size
    · rw [node_modify inside, same rfl]
    · have outside : t.nodes.size ≤ other := Nat.le_of_not_lt inside
      simp [node, modify, Array.getElem?_modify, Array.getElem?_eq_none outside]
  · rw [node_modify_of_ne isIt]

/-- The other table has all the nodes of this one, and they say the same of the rules in progress. -/
structure Grows (t t' : ParseTree) : Prop where
  size : t.size ≤ t'.size
  links : ∀ id < t.size, (t'.node id).links = (t.node id).links

theorem Grows.refl (t : ParseTree) : t.Grows t := ⟨Nat.le_refl _, fun _ _ => rfl⟩

theorem Grows.trans (first : t.Grows t') (second : t'.Grows t'') : t.Grows t'' :=
  ⟨Nat.le_trans first.size second.size, fun id inside =>
    (second.links id (Nat.lt_of_lt_of_le inside first.size)).trans (first.links id inside)⟩

theorem grows_modify {id : Nat} {change : TreeNode → TreeNode}
    (same : (change (t.node id)).links = (t.node id).links) : t.Grows (t.modify id change) :=
  ⟨Nat.le_of_eq (t.size_modify id change).symm, fun _ _ => links_modify fun _ => same⟩

/-- A child that knows its parent is attached. -/
theorem grows_addChild {parent child : Nat} (known : t.parent? child = some parent) :
    t.Grows (t.addChild parent child) := by
  refine (grows_modify ?_).trans (grows_modify rfl)
  rw [TreeNode.links, TreeNode.links, ← known]
  rfl

theorem grows_push (t : ParseTree) (n : TreeNode) : t.Grows (t.push n).2 :=
  ⟨(t.size_push n).symm ▸ Nat.le_succ _, fun _ inside => by rw [node_push_of_lt inside]⟩

theorem grows_addLeaf (t : ParseTree) (node : Nat) (kind : NodeKind) : t.Grows (t.addLeaf node kind).2 := by
  refine ⟨?_, fun id inside => ?_⟩
  · simp [addLeaf]
  · -- Of the two nodes that get linked, the new one is none of the others.
    have old : id ≠ t.size := Nat.ne_of_lt inside
    refine (links_modify fun _ => rfl).trans ((links_modify fun same => absurd same old).trans ?_)
    exact congrArg TreeNode.links (node_push_of_lt inside { kind })

/-! ## The rules in progress -/

/-- The nodes of the frames say what the frames do, and each is younger than the next one. -/
def Linked (t : ParseTree) : List Frame → Prop
  | [] => True
  | f :: rest => f.id < t.size ∧ (t.node f.id).links = (.rule f.rule none, Frame.top? rest, f.invoking) ∧
    (∀ g ∈ rest, g.id < f.id) ∧ Linked t rest

namespace Linked

theorem kind (linked : t.Linked (f :: rest)) : (t.node f.id).kind = .rule f.rule none :=
  congrArg Prod.fst linked.2.1

theorem parent (linked : t.Linked (f :: rest)) : t.parent? f.id = Frame.top? rest :=
  congrArg (·.2.1) linked.2.1

theorem invoking (linked : t.Linked (f :: rest)) : (t.node f.id).invoking = f.invoking :=
  congrArg (·.2.2) linked.2.1

theorem rule (linked : t.Linked (f :: rest)) : t.rule? f.id = some f.rule := by
  rw [rule?, linked.kind]

theorem tail (linked : t.Linked (f :: rest)) : t.Linked rest := linked.2.2.2

theorem inside (linked : t.Linked frames) : ∀ g ∈ frames, g.id < t.size := by
  induction frames with
  | nil => nofun
  | cons f rest ih =>
    intro g member
    rcases List.mem_cons.1 member with rfl | later
    · exact linked.1
    · exact ih linked.tail g later

theorem congr (linked : t.Linked frames) (size : t.size ≤ t'.size)
    (same : ∀ g ∈ frames, (t'.node g.id).links = (t.node g.id).links) : t'.Linked frames := by
  induction frames with
  | nil => trivial
  | cons f rest ih =>
    obtain ⟨inside, links, younger, outer⟩ := linked
    exact ⟨Nat.lt_of_lt_of_le inside size, (same f List.mem_cons_self).trans links, younger,
      ih outer fun g member => same g (List.mem_cons_of_mem f member)⟩

theorem grows (linked : t.Linked frames) (grows : t.Grows t') : t'.Linked frames :=
  linked.congr grows.size fun g member => grows.links g.id (linked.inside g member)

/-- A node that is none of the frames may change as it likes. -/
theorem modify_apart (linked : t.Linked frames) {id : Nat} (apart : ∀ g ∈ frames, g.id ≠ id)
    (change : TreeNode → TreeNode) : (t.modify id change).Linked frames :=
  linked.congr (Nat.le_of_eq (t.size_modify id change).symm) fun g member => links_modify fun same => absurd same (apart g member)

/-- A rule begins: its node knows its parent. -/
theorem enter (linked : t.Linked frames) (rule : Nat) (invoking : Option Nat) (recursive : Bool)
    (done : List Subtree) : (t.addRule rule (Frame.top? frames) invoking).2.Linked
      ({ id := t.size, rule, invoking, recursive, done } :: frames) := by
  refine ⟨?_, ?_, linked.inside, linked.grows (t.grows_push _)⟩
  · exact (t.size_push _).symm ▸ Nat.lt_succ_self _
  · exact congrArg TreeNode.links (t.node_push_self _)

/-- A note in a node that is not about the rules in progress. -/
theorem note (linked : t.Linked frames) (id : Nat) {change : TreeNode → TreeNode}
    (same : ∀ n, (change n).links = n.links) : (t.modify id change).Linked frames :=
  linked.grows (grows_modify (same _))

/-- A node that is none of the frames is attached. -/
theorem addChild_apart (linked : t.Linked frames) {child : Nat} (apart : ∀ g ∈ frames, g.id ≠ child)
    (parent : Nat) : (t.addChild parent child).Linked frames :=
  (linked.modify_apart apart _).note parent fun _ => rfl

/-- The line of the innermost node consists of the nodes of all frames. -/
theorem lineage_eq (linked : t.Linked (f :: rest)) : t.lineage f.id = (f :: rest).map Frame.id := by
  have climbs {rounds : Nat} (enough : f.id < rounds) :
      lineage.climb t rounds f.id = (f :: rest).map Frame.id := by
    induction rest generalizing f rounds with
    | nil =>
      obtain ⟨rounds, rfl⟩ := Nat.exists_eq_add_one_of_ne_zero (Nat.ne_zero_of_lt enough)
      rw [lineage.climb, linked.parent]
      rfl
    | cons g rest ih =>
      obtain ⟨rounds, rfl⟩ := Nat.exists_eq_add_one_of_ne_zero (Nat.ne_zero_of_lt enough)
      have older : g.id < f.id := linked.2.2.1 g List.mem_cons_self
      rw [lineage.climb, linked.parent]
      exact congrArg (f.id :: ·) (ih linked.tail (Nat.lt_of_lt_of_le older (Nat.le_of_lt_succ enough)))
  exact climbs linked.1

end Linked

end ParseTree

end AdaptiveLL
