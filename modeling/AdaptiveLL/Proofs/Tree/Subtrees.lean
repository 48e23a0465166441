import AdaptiveLL.ParseTree

/-!
# Subtrees of a table

The nodes of a parse tree lie in a table and name each other. A `Subtree` is what one sees from a node
when one follows the links to the children: it is a tree by construction, and it knows at which place of
the table each of its nodes lies. `Holds` says that a table holds a subtree below a parent, with the
link back to the parent in every node. A table that agrees with another one on the nodes of a subtree
holds it too (`Holds.congr`), so what happens elsewhere in the table does not matter.
-/

set_option autoImplicit false

namespace AdaptiveLL

/-- A subtree, with the places of its nodes in the table. -/
inductive Subtree where
  | token (id : Nat) (token : Token)
  | error (id : Nat) (token : Token)
  | rule (id rule : Nat) (children : List Subtree)

namespace Subtree

/-- The place of the root. -/
def id : Subtree → Nat
  | token id _ | error id _ | rule id _ _ => id

mutual

/-- The places of all nodes, parents before their children. -/
def ids : Subtree → List Nat
  | token id _ | error id _ => [id]
  | rule id _ children => id :: idsAll children

/-- The places of the nodes of several subtrees. -/
def idsAll : List Subtree → List Nat
  | [] => []
  | c :: rest => ids c ++ idsAll rest

end

mutual

/-- What the leaves for tokens stand for, from left to right. -/
def leaves : Subtree → List NodeKind
  | token _ t => [.token t]
  | error _ t => [.error t]
  | rule _ _ children => leavesAll children

/-- The leaves of several subtrees. -/
def leavesAll : List Subtree → List NodeKind
  | [] => []
  | c :: rest => leaves c ++ leavesAll rest

end

/-- The subtree of one node. -/
def single (id : Nat) : NodeKind → Subtree
  | .token t => token id t
  | .error t => error id t
  | .rule r _ => rule id r []

theorem idsAll_append (cs ds : List Subtree) : idsAll (cs ++ ds) = idsAll cs ++ idsAll ds := by
  induction cs with
  | nil => rfl
  | cons c rest ih => simp [idsAll, ih]

theorem leavesAll_append (cs ds : List Subtree) :
    leavesAll (cs ++ ds) = leavesAll cs ++ leavesAll ds := by
  induction cs with
  | nil => rfl
  | cons c rest ih => simp [leavesAll, ih]

theorem id_mem_ids (T : Subtree) : T.id ∈ T.ids := by
  cases T <;> simp [id, ids]

end Subtree

/-- Is it a node for a token? -/
def NodeKind.isLeaf : NodeKind → Bool
  | .token _ | .error _ => true
  | .rule _ _ => false

theorem Subtree.leaves_single (id : Nat) {kind : NodeKind} (isLeaf : kind.isLeaf = true) :
    (single id kind).leaves = [kind] := by
  cases kind with
  | rule => cases isLeaf
  | _ => rfl

/-! ## What a table says of the shape of a tree -/

/-- What a node has to do with the shape of the tree and with the calls in progress. -/
def TreeNode.core (n : TreeNode) : NodeKind × Option Nat × List Nat × Option Nat :=
  (n.kind, n.parent, n.children, n.invoking)

namespace ParseTree

/-- The table has the node, with its links. -/
structure HasNode (t : ParseTree) (id : Nat) (kind : NodeKind) (parent : Option Nat)
    (children : List Nat) : Prop where
  inside : id < t.size
  kind : (t.node id).kind = kind
  parent : (t.node id).parent = parent
  children : (t.node id).children = children

mutual

/-- The table holds the subtree below a parent. -/
def Holds (t : ParseTree) : Option Nat → Subtree → Prop
  | parent, .token id token => t.HasNode id (.token token) parent []
  | parent, .error id token => t.HasNode id (.error token) parent []
  | parent, .rule id rule children =>
    t.HasNode id (.rule rule none) parent (children.map Subtree.id) ∧ HoldsAll t (some id) children

/-- The table holds the subtrees below a parent. -/
def HoldsAll (t : ParseTree) : Option Nat → List Subtree → Prop
  | _, [] => True
  | parent, c :: rest => Holds t parent c ∧ HoldsAll t parent rest

end

variable {t t' t'' : ParseTree} {parent : Option Nat} {ids : List Nat}

/-- The table keeps the nodes of the other one at these places. -/
def Keeps (t t' : ParseTree) (ids : List Nat) : Prop :=
  ∀ id ∈ ids, id < t.size → id < t'.size ∧ (t'.node id).core = (t.node id).core

theorem Keeps.refl (t : ParseTree) (ids : List Nat) : Keeps t t ids := fun _ _ inside => ⟨inside, rfl⟩

theorem Keeps.trans (first : Keeps t t' ids) (second : Keeps t' t'' ids) : Keeps t t'' ids := by
  intro id member inside
  obtain ⟨inside', same⟩ := first id member inside
  obtain ⟨inside'', same'⟩ := second id member inside'
  exact ⟨inside'', same'.trans same⟩

theorem Keeps.mono {ids' : List Nat} (keeps : Keeps t t' ids) (fewer : ids' ⊆ ids) : Keeps t t' ids' :=
  fun id member => keeps id (fewer member)

theorem HasNode.congr {id : Nat} {kind : NodeKind} {children : List Nat}
    (has : t.HasNode id kind parent children) (keeps : Keeps t t' ids) (member : id ∈ ids) :
    t'.HasNode id kind parent children := by
  obtain ⟨inside, same⟩ := keeps id member has.inside
  obtain ⟨sameKind, sameParent, sameChildren, -⟩ := by simpa only [TreeNode.core, Prod.mk.injEq] using same
  exact ⟨inside, sameKind.trans has.kind, sameParent.trans has.parent, sameChildren.trans has.children⟩

mutual

theorem Holds.congr {parent : Option Nat} {T : Subtree} (keeps : Keeps t t' T.ids) (holds : t.Holds parent T) :
    t'.Holds parent T := by
  match T with
  | .token id token => exact HasNode.congr holds keeps (by simp [Subtree.ids])
  | .error id token => exact HasNode.congr holds keeps (by simp [Subtree.ids])
  | .rule id rule children =>
    exact ⟨holds.1.congr keeps (by simp [Subtree.ids]),
      HoldsAll.congr (keeps.mono fun _ member => by simp [Subtree.ids, member]) holds.2⟩

theorem HoldsAll.congr {parent : Option Nat} {cs : List Subtree} (keeps : Keeps t t' (Subtree.idsAll cs))
    (holds : t.HoldsAll parent cs) : t'.HoldsAll parent cs := by
  match cs with
  | [] => trivial
  | c :: rest =>
    exact ⟨Holds.congr (keeps.mono fun _ member => by simp [Subtree.idsAll, member]) holds.1,
      HoldsAll.congr (keeps.mono fun _ member => by simp [Subtree.idsAll, member]) holds.2⟩

end

theorem holdsAll_append {cs ds : List Subtree} :
    t.HoldsAll parent (cs ++ ds) ↔ t.HoldsAll parent cs ∧ t.HoldsAll parent ds := by
  induction cs with
  | nil => simp [HoldsAll]
  | cons c rest ih => simp [HoldsAll, ih, and_assoc]

/-! ## Changing one node -/

theorem node_of_lt {id : Nat} (inside : id < t.size) : t.node id = t.nodes[id] := by
  rw [node, Array.getD_eq_getD_getElem?, Array.getElem?_eq_getElem inside, Option.getD_some]

@[simp] theorem size_modify (t : ParseTree) (id : Nat) (f : TreeNode → TreeNode) :
    (t.modify id f).size = t.size := by
  simp [modify, size]

theorem node_modify {id : Nat} (inside : id < t.size) (f : TreeNode → TreeNode) :
    (t.modify id f).node id = f (t.node id) := by
  rw [node_of_lt (t.size_modify id f ▸ inside), node_of_lt inside]
  exact Array.getElem_modify_self f _

theorem node_modify_of_ne {id other : Nat} (apart : other ≠ id) (f : TreeNode → TreeNode) :
    (t.modify id f).node other = t.node other := by
  simp [modify, node, Array.getElem?_modify, Ne.symm apart]

/-- What is noted in a node besides its links does not change the shape of the tree. -/
theorem keeps_modify (t : ParseTree) {id : Nat} {f : TreeNode → TreeNode}
    (same : (f (t.node id)).core = (t.node id).core) (ids : List Nat) : Keeps t (t.modify id f) ids := by
  intro other _ inside
  refine ⟨by simpa using inside, ?_⟩
  by_cases isIt : other = id
  · subst isIt
    rw [node_modify inside, same]
  · rw [node_modify_of_ne isIt]

/-- A node may change as it likes where nobody looks. -/
theorem keeps_modify_apart (t : ParseTree) {id : Nat} (apart : id ∉ ids) (f : TreeNode → TreeNode) :
    Keeps t (t.modify id f) ids := by
  intro other member inside
  have other : other ≠ id := fun same => apart (same ▸ member)
  exact ⟨by simpa using inside, by rw [node_modify_of_ne other]⟩

/-! ## Adding a node -/

@[simp] theorem size_push (t : ParseTree) (n : TreeNode) : (t.push n).2.size = t.size + 1 := by
  simp [push, size]

theorem node_push_self (t : ParseTree) (n : TreeNode) : (t.push n).2.node t.size = n := by
  simp [push, node, size]

theorem node_push_of_lt {id : Nat} (inside : id < t.size) (n : TreeNode) :
    (t.push n).2.node id = t.node id := by
  have inside : id < t.nodes.size := inside
  simp [push, node, Array.getElem?_push, Nat.ne_of_lt inside]

theorem keeps_push (t : ParseTree) (n : TreeNode) (ids : List Nat) : Keeps t (t.push n).2 ids := by
  intro id _ inside
  exact ⟨by simpa using Nat.lt_succ_of_lt inside, by rw [node_push_of_lt inside]⟩

/-! ## Attaching a node -/

@[simp] theorem size_addChild (t : ParseTree) (node child : Nat) :
    (t.addChild node child).size = t.size := by
  simp [addChild]

theorem node_addChild_parent {node child : Nat} (inside : node < t.size) (apart : node ≠ child) :
    (t.addChild node child).node node =
      { t.node node with children := (t.node node).children ++ [child] } := by
  rw [addChild, node_modify (by simpa using inside), node_modify_of_ne apart]

theorem node_addChild_child {node child : Nat} (inside : child < t.size) (apart : node ≠ child) :
    (t.addChild node child).node child = { t.node child with parent := some node } := by
  rw [addChild, node_modify_of_ne apart.symm, node_modify inside]

theorem keeps_addChild (t : ParseTree) {node child : Nat} (apart : node ∉ ids) (apart' : child ∉ ids) :
    Keeps t (t.addChild node child) ids :=
  (t.keeps_modify_apart apart' _).trans (keeps_modify_apart _ apart _)

end ParseTree

end AdaptiveLL
