import Mathlib.Data.List.Nodup
import AdaptiveLL.Proofs.Tree.Subtrees

/-!
# Trees under construction

While a tree is built, the nodes of the rules in progress form its right edge: each has the subtrees that
are finished, and behind them the node of the rule that it called. The node of a left-recursive rule is
an exception. It knows its parent, but it is not attached to it, since further operators may wrap it; it
is attached when its rule ends. `Spine` describes such a tree by the frames of its rules, innermost first.
Each step of the construction does one thing to the innermost frames: it adds a leaf (`Spine.addLeaf`),
begins a frame (`Spine.enter`), finishes one (`Spine.leave`, `Spine.attach`) or wraps one (`Spine.wrap`).
-/

set_option autoImplicit false

namespace AdaptiveLL

/-- A rule in progress: its node, the state that called it, and the subtrees that are finished. -/
structure Frame where
  id : Nat
  rule : Nat
  invoking : Option Nat
  /-- Is it left-recursive, so that its node is not attached yet? -/
  recursive : Bool
  done : List Subtree := []

namespace Frame

/-- The places of the nodes of the frame. -/
def ids (f : Frame) : List Nat := f.id :: Subtree.idsAll f.done

/-- The subtree that the frame has become when its rule ends. -/
def finished (f : Frame) : Subtree := .rule f.id f.rule f.done

/-- The frame with a further subtree. -/
def add (f : Frame) (T : Subtree) : Frame := { f with done := f.done ++ [T] }

/-- The places of the nodes of several frames. -/
def idsAll (frames : List Frame) : List Nat := frames.flatMap ids

/-- The leaves of several frames, the innermost last. -/
def leavesAll : List Frame → List NodeKind
  | [] => []
  | f :: rest => leavesAll rest ++ Subtree.leavesAll f.done

/-- The node of the innermost frame. -/
def top? (frames : List Frame) : Option Nat := frames.head?.map (·.id)

end Frame

namespace ParseTree

/-- The table holds the frames of the rules in progress, innermost first. The first argument is the node
inside of them that is attached. -/
def Spine (t : ParseTree) : Option Nat → List Frame → Prop
  | _, [] => True
  | inner, f :: rest =>
    t.HasNode f.id (.rule f.rule none) (Frame.top? rest) (f.done.map Subtree.id ++ inner.toList) ∧
      (t.node f.id).invoking = f.invoking ∧ t.HoldsAll (some f.id) f.done ∧
      Spine t (if f.recursive then none else some f.id) rest

variable {t t' : ParseTree} {inner : Option Nat} {f g : Frame} {rest frames : List Frame}

theorem Spine.congr (keeps : Keeps t t' (Frame.idsAll frames)) (spine : t.Spine inner frames) :
    t'.Spine inner frames := by
  induction frames generalizing inner with
  | nil => trivial
  | cons f rest ih =>
    obtain ⟨has, invoking, holds, outer⟩ := spine
    have member : f.id ∈ Frame.idsAll (f :: rest) := by simp [Frame.idsAll, Frame.ids]
    obtain ⟨-, same⟩ := keeps f.id member has.inside
    have sameInvoking : (t'.node f.id).invoking = (t.node f.id).invoking :=
      congrArg (fun c => c.2.2.2) same
    refine ⟨has.congr keeps member, sameInvoking.trans invoking, holds.congr (keeps.mono ?_),
      ih (keeps.mono ?_) outer⟩
    · exact fun id isIn => by simp [Frame.idsAll, Frame.ids, isIn]
    · exact fun id isIn => by simp only [Frame.idsAll, List.flatMap_cons, List.mem_append] at isIn ⊢
                              exact .inr isIn

mutual

/-- The nodes of a subtree are in the table that holds it. -/
theorem Holds.inside {parent : Option Nat} {T : Subtree} (holds : t.Holds parent T) :
    ∀ id ∈ T.ids, id < t.size := by
  intro id member
  match T with
  | .token n token | .error n token =>
    obtain rfl : id = n := by simpa [Subtree.ids] using member
    exact HasNode.inside holds
  | .rule n rule children =>
    rcases List.mem_cons.1 member with rfl | below
    · exact holds.1.inside
    · exact HoldsAll.inside holds.2 id below

theorem HoldsAll.inside {parent : Option Nat} {cs : List Subtree} (holds : t.HoldsAll parent cs) :
    ∀ id ∈ Subtree.idsAll cs, id < t.size := by
  intro id member
  match cs with
  | [] => cases member
  | c :: rest =>
    rcases List.mem_append.1 member with first | later
    · exact Holds.inside holds.1 id first
    · exact HoldsAll.inside holds.2 id later

end

theorem Spine.inside (spine : t.Spine inner frames) : ∀ id ∈ Frame.idsAll frames, id < t.size := by
  intro id member
  induction frames generalizing inner with
  | nil => cases member
  | cons f rest ih =>
    obtain ⟨has, -, holds, outer⟩ := spine
    rcases List.mem_append.1 member with here | there
    · rcases List.mem_cons.1 here with rfl | below
      · exact has.inside
      · exact holds.inside id below
    · exact ih outer there

/-- The table holds the frames of the rules in progress, and no two of their nodes are at one place. -/
structure Standing (t : ParseTree) (frames : List Frame) : Prop where
  spine : t.Spine none frames
  apart : (Frame.idsAll frames).Nodup

namespace Standing

theorem congr (standing : t.Standing frames) (keeps : Keeps t t' (Frame.idsAll frames)) :
    t'.Standing frames := ⟨standing.spine.congr keeps, standing.apart⟩

/-- What is noted in a node besides its links changes nothing. -/
theorem note (standing : t.Standing frames) (id : Nat) {f : TreeNode → TreeNode}
    (same : (f (t.node id)).core = (t.node id).core) : (t.modify id f).Standing frames :=
  standing.congr (keeps_modify t same _)

/-- A place behind the table is free. -/
theorem free (standing : t.Standing frames) : t.size ∉ Frame.idsAll frames :=
  fun member => Nat.lt_irrefl _ (standing.spine.inside _ member)

/-- A rule begins: its node knows its parent. -/
theorem enter (standing : t.Standing frames) (rule : Nat) (invoking : Option Nat) :
    (t.addRule rule (Frame.top? frames) invoking).2.Standing
      ({ id := t.size, rule, invoking, recursive := true } :: frames) := by
  have node := t.node_push_self { kind := .rule rule none, parent := Frame.top? frames, invoking }
  refine ⟨⟨⟨?_, ?_, ?_, ?_⟩, ?_, trivial, standing.spine.congr (keeps_push t _ _)⟩, ?_⟩
  · exact (t.size_push _).symm ▸ Nat.lt_succ_self _
  · exact congrArg TreeNode.kind node
  · exact congrArg TreeNode.parent node
  · exact congrArg TreeNode.children node
  · exact congrArg TreeNode.invoking node
  · exact List.nodup_cons.2 ⟨standing.free, standing.apart⟩

/-- The nodes of the two innermost frames lie outside of everything else. -/
theorem separate (standing : t.Standing (f :: g :: rest)) : f.id ≠ g.id ∧
    f.id ∉ Subtree.idsAll f.done ++ (Subtree.idsAll g.done ++ Frame.idsAll rest) ∧
    g.id ∉ Subtree.idsAll f.done ++ (Subtree.idsAll g.done ++ Frame.idsAll rest) := by
  have apart : (f.id :: (Subtree.idsAll f.done ++
      (g.id :: (Subtree.idsAll g.done ++ Frame.idsAll rest)))).Nodup := standing.apart
  obtain ⟨first, others⟩ := List.nodup_cons.1 apart
  have second := (List.nodup_cons.1 (List.nodup_middle.1 others)).1
  simp only [List.mem_append, List.mem_cons, not_or] at first second ⊢
  exact ⟨first.2.1, ⟨first.1, first.2.2⟩, second⟩

/-- The node of the innermost frame is attached to the next one. -/
theorem attach (standing : t.Standing (f :: g :: rest)) (loose : f.recursive = true) :
    (t.addChild g.id f.id).Standing ({ f with recursive := false } :: g :: rest) := by
  obtain ⟨distinct, fApart, gApart⟩ := standing.separate
  obtain ⟨⟨has, invoking, holds, has', invoking', holds', outer⟩, apart⟩ := standing
  have others := keeps_addChild t gApart fApart
  have node := node_addChild_child (t := t) has.inside distinct.symm
  have node' := node_addChild_parent (t := t) has'.inside distinct.symm
  refine ⟨⟨⟨?_, ?_, ?_, ?_⟩, ?_, ?_, ⟨?_, ?_, ?_, ?_⟩, ?_, ?_, ?_⟩, apart⟩
  · simpa using has.inside
  · rw [node]
    exact has.kind
  · rw [node]
    rfl
  · rw [node]
    exact has.children
  · rw [node]
    exact invoking
  · exact holds.congr (others.mono (List.subset_append_left _ _))
  · simpa using has'.inside
  · rw [node']
    exact has'.kind
  · rw [node']
    exact has'.parent
  · rw [node', has'.children, loose]
    simp
  · rw [node']
    exact invoking'
  · exact holds'.congr (others.mono fun _ member => by simp [member])
  · exact outer.congr (others.mono fun _ member => by simp [member])

/-- An attached frame ends: it is a finished subtree of the next one. -/
theorem leave (standing : t.Standing (f :: g :: rest)) (attached : f.recursive = false) :
    t.Standing (g.add f.finished :: rest) := by
  obtain ⟨⟨has, invoking, holds, has', invoking', holds', outer⟩, apart⟩ := standing
  rw [attached] at has'
  refine ⟨⟨⟨has'.inside, has'.kind, has'.parent, ?_⟩, invoking', ?_, outer⟩, ?_⟩
  · simpa [Frame.add, Frame.finished, Subtree.id] using has'.children
  · rw [Frame.add, holdsAll_append]
    refine ⟨holds', ⟨⟨has.inside, has.kind, has.parent, ?_⟩, holds⟩, trivial⟩
    simpa using has.children
  · -- The same places, in another order.
    refine (List.Perm.nodup_iff ?_).2 apart
    have places : Frame.idsAll (g.add f.finished :: rest) = g.ids ++ f.ids ++ Frame.idsAll rest := by
      simp [Frame.idsAll, Frame.ids, Frame.add, Frame.finished, Subtree.idsAll_append, Subtree.idsAll,
        Subtree.ids]
    have places' : Frame.idsAll (f :: g :: rest) = f.ids ++ g.ids ++ Frame.idsAll rest := by
      simp [Frame.idsAll]
    rw [places, places']
    exact List.perm_append_comm.append_right _

/-- A leaf is added to the innermost frame. -/
theorem addLeaf (standing : t.Standing (f :: rest)) {kind : NodeKind} (isLeaf : kind.isLeaf = true) :
    (t.addLeaf f.id kind).2.Standing (f.add (.single t.size kind) :: rest) := by
  have free := standing.free
  obtain ⟨⟨has, invoking, holds, outer⟩, apart⟩ := standing
  have distinct : f.id ≠ t.size := Nat.ne_of_lt has.inside
  have others : f.id ∉ Subtree.idsAll f.done ++ Frame.idsAll rest := (List.nodup_cons.1 apart).1
  have free' : t.size ∉ Subtree.idsAll f.done ++ Frame.idsAll rest :=
    fun member => free (List.mem_cons_of_mem _ member)
  have inside : f.id < (t.push { kind }).2.size := by
    simpa using Nat.lt_succ_of_lt has.inside
  have keeps := (keeps_push t { kind } (Subtree.idsAll f.done ++ Frame.idsAll rest)).trans
    (keeps_addChild _ others free')
  have node := node_addChild_parent (t := (t.push { kind }).2) inside distinct
  have last : t.size < (t.push { kind }).2.size := by simp
  have leaf := node_addChild_child last distinct
  rw [node_push_of_lt has.inside] at node
  rw [node_push_self] at leaf
  have held : (t.addLeaf f.id kind).2.HasNode t.size kind (some f.id) [] :=
    ⟨((size_addChild _ _ _).trans (t.size_push { kind })).symm ▸ Nat.lt_succ_self _,
      congrArg TreeNode.kind leaf, congrArg TreeNode.parent leaf, congrArg TreeNode.children leaf⟩
  refine ⟨⟨⟨?_, ?_, ?_, ?_⟩, ?_, ?_, ?_⟩, ?_⟩
  · exact (size_addChild _ _ _).symm ▸ inside
  · exact (congrArg TreeNode.kind node).trans has.kind
  · exact (congrArg TreeNode.parent node).trans has.parent
  · refine (congrArg TreeNode.children node).trans ?_
    have root : (Subtree.single t.size kind).id = t.size := by cases kind <;> rfl
    simp [has.children, Frame.add, root]
  · exact (congrArg TreeNode.invoking node).trans invoking
  · refine holdsAll_append.2 ⟨holds.congr (keeps.mono (List.subset_append_left _ _)), ?_, trivial⟩
    cases kind with
    | rule => cases isLeaf
    | _ => exact held
  · exact outer.congr (keeps.mono (List.subset_append_right _ _))
  · have root : (Subtree.single t.size kind).ids = [t.size] := by cases kind <;> rfl
    have places : Frame.idsAll (f.add (.single t.size kind) :: rest) =
        (f.id :: Subtree.idsAll f.done) ++ t.size :: Frame.idsAll rest := by
      simp [Frame.idsAll, Frame.ids, Frame.add, Subtree.idsAll_append, Subtree.idsAll, root]
    rw [places]
    exact List.nodup_middle.2 (List.nodup_cons.2 ⟨free, apart⟩)

/-- The innermost rule goes on around what it has built so far. -/
theorem wrap (standing : t.Standing (f :: rest)) (loose : f.recursive = true) (state : Nat)
    (start stop : Option Nat) :
    ((((t.addRule f.rule (Frame.top? rest) f.invoking).2.modify f.id
        ({ · with parent := some t.size, invoking := some state, stop })).modify t.size
        ({ · with start })).addChild t.size f.id).Standing
      ({ f with id := t.size, done := [f.finished] } :: rest) := by
  have free := standing.free
  obtain ⟨⟨has, invoking, holds, outer⟩, apart⟩ := standing
  have distinct : t.size ≠ f.id := fun same => Nat.lt_irrefl _ (same ▸ has.inside)
  have others : f.id ∉ Subtree.idsAll f.done ++ Frame.idsAll rest := (List.nodup_cons.1 apart).1
  have free' : t.size ∉ Subtree.idsAll f.done ++ Frame.idsAll rest :=
    fun member => free (List.mem_cons_of_mem _ member)
  let fresh : TreeNode := { kind := .rule f.rule none, parent := Frame.top? rest, invoking := f.invoking }
  let pushed := (t.push fresh).2
  let moved := pushed.modify f.id ({ · with parent := some t.size, invoking := some state, stop })
  let noted := moved.modify t.size ({ · with start })
  have sizes : pushed.size = t.size + 1 ∧ moved.size = t.size + 1 ∧ noted.size = t.size + 1 := by
    simp [pushed, moved, noted]
  have keeps : Keeps t (noted.addChild t.size f.id) (Subtree.idsAll f.done ++ Frame.idsAll rest) :=
    (((keeps_push t fresh _).trans (keeps_modify_apart _ others _)).trans
      (keeps_modify_apart _ free' _)).trans (keeps_addChild _ free' others)
  have inside : f.id < t.size + 1 := Nat.lt_succ_of_lt has.inside
  have outerNode : (noted.addChild t.size f.id).node t.size =
      { fresh with start, children := [f.id] } := by
    rw [node_addChild_parent (by omega) distinct, node_modify (by omega), node_modify_of_ne distinct,
      node_push_self]
    rfl
  have innerNode : (noted.addChild t.size f.id).node f.id =
      { t.node f.id with parent := some t.size, invoking := some state, stop } := by
    rw [node_addChild_child (by omega) distinct, node_modify_of_ne distinct.symm,
      node_modify (by omega), node_push_of_lt has.inside]
  have size : (noted.addChild t.size f.id).size = t.size + 1 := by
    rw [size_addChild, sizes.2.2]
  refine ⟨⟨⟨?_, ?_, ?_, ?_⟩, ?_, ⟨⟨⟨?_, ?_, ?_, ?_⟩, ?_⟩, trivial⟩, ?_⟩, ?_⟩
  · exact Nat.lt_of_lt_of_eq (Nat.lt_succ_self _) size.symm
  · exact congrArg TreeNode.kind outerNode
  · exact congrArg TreeNode.parent outerNode
  · exact congrArg TreeNode.children outerNode
  · exact congrArg TreeNode.invoking outerNode
  · exact Nat.lt_of_lt_of_eq inside size.symm
  · exact (congrArg TreeNode.kind innerNode).trans has.kind
  · exact congrArg TreeNode.parent innerNode
  · refine (congrArg TreeNode.children innerNode).trans ?_
    simpa using has.children
  · exact holds.congr (keeps.mono (List.subset_append_left _ _))
  · rw [loose] at outer ⊢
    exact outer.congr (keeps.mono (List.subset_append_right _ _))
  · have places : Frame.idsAll ({ f with id := t.size, done := [f.finished] } :: rest) =
        t.size :: Frame.idsAll (f :: rest) := by
      simp [Frame.idsAll, Frame.ids, Frame.finished, Subtree.idsAll, Subtree.ids]
    rw [places]
    exact List.nodup_cons.2 ⟨free, apart⟩

/-- The last frame that is left is the whole tree. -/
theorem holds (standing : t.Standing [f]) : t.Holds none f.finished ∧ f.finished.ids.Nodup := by
  obtain ⟨⟨has, -, holds, -⟩, apart⟩ := standing
  refine ⟨⟨⟨has.inside, has.kind, has.parent, ?_⟩, holds⟩, ?_⟩
  · simpa using has.children
  · simpa [Frame.idsAll, Frame.ids, Frame.finished, Subtree.ids] using apart

end Standing

end ParseTree

end AdaptiveLL
