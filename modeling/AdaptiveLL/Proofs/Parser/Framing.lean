import AdaptiveLL.Proofs.Parser.Gaining

/-!
# How rules begin and end

The steps by which a parser enters and leaves rules change the tree, the node in progress, the state and
the callers of left-recursive rules, and look at the stream for the places of tokens. Each of them takes
the frames of the tree to other frames: a rule begins with a frame of its own, a loop of a left-recursive
rule wraps the innermost frame, and the end of a rule makes its frame a finished subtree of the next one.
-/

set_option autoImplicit false

namespace AdaptiveLL.Parser

open Session TokenStream

variable {η : Type} {P : Int → Prop} {p p' : Parser η} {f g : Frame} {frames rest : List Frame}
  {fuel : Nat}

/-- What is noted in a node besides its links changes nothing. -/
theorem standing_note {t : ParseTree} (standing : t.Standing frames) (id : Nat) (start : Option Nat) :
    (t.modify id ({ · with start })).Standing frames :=
  standing.note id rfl

theorem standing_noteStop {t : ParseTree} (standing : t.Standing frames) (id : Nat) (stop : Option Nat) :
    (t.modify id ({ · with stop })).Standing frames :=
  standing.note id rfl

/-- The parent that is noted at the end of a left-recursive rule is the one that its node knows. -/
theorem standing_noteEnd {t : ParseTree} (standing : t.Standing (f :: frames)) (stop : Option Nat) :
    (t.modify f.id ({ · with stop, parent := Frame.top? frames })).Standing (f :: frames) := by
  refine standing.note f.id ?_
  simp only [TreeNode.core]
  rw [standing.spine.1.parent]

/-- A left-recursive rule begins: its node is not attached, and its caller is remembered. -/
theorem enterRecursion_leads (ready : Ready P p) (standing : p.tree.Standing (f :: frames))
    (state : Nat) (q : Int) : Leads (enterRecursion fuel f.id state q) p fun _ p' =>
      p' = { p with
        sim := p'.sim, tree := p'.tree, state, ctx := f.id, precedences := q :: p.precedences
        callers := ⟨Frame.top? frames, f.invoking⟩ :: p.callers } ∧
      Reads P p.stream p'.stream ∧ p'.tree.Standing (f :: frames) := by
  obtain ⟨has, invoking, -⟩ := standing.spine
  refine .modify_bind ((tokenIndex_leads (P := P) ?_ 1).bind fun start p₁ looks => .of_modify ?_)
  · exact ⟨ready.trees, ready.sound⟩
  have reads := looks.reads
  rw [looks.same] at reads ⊢
  dsimp only
  rw [has.parent, invoking]
  exact ⟨rfl, reads, standing_note standing f.id start⟩

/-- Any other rule begins: its node is attached to that of the caller. -/
theorem enterRule_leads (ready : Ready P p) (standing : p.tree.Standing (f :: frames))
    (loose : f.recursive = true) (state : Nat) : Leads (enterRule fuel f.id state) p fun _ p' =>
      p' = { p with sim := p'.sim, tree := p'.tree, state, ctx := f.id } ∧
      Reads P p.stream p'.stream ∧ p'.tree.Standing ({ f with recursive := false } :: frames) := by
  obtain ⟨has, -⟩ := standing.spine
  refine .modify_bind ((tokenIndex_leads (P := P) ?_ 1).bind fun start p₁ looks =>
    .modify_bind (.get_bind ?_))
  · exact ⟨ready.trees, ready.sound⟩
  have reads := looks.reads
  have noted := standing_note standing f.id start
  rw [looks.same] at reads ⊢
  dsimp only
  rw [if_pos ready.trees]
  have parent : (p.tree.modify f.id ({ · with start })).parent? f.id = Frame.top? frames :=
    noted.spine.1.parent
  cases frames with
  | nil =>
    simp only [parent, Frame.top?, List.head?_nil, Option.map_none]
    exact .pure ⟨rfl, reads, ⟨noted.spine, noted.apart⟩⟩
  | cons g rest =>
    simp only [parent, Frame.top?, List.head?_cons, Option.map_some]
    exact .of_modify ⟨rfl, reads, noted.attach loose⟩

/-- A rule that is not left-recursive ends: its node is a finished subtree of the caller's. -/
theorem exitRule_leads (ready : Ready P p) (standing : p.tree.Standing (f :: g :: rest))
    (attached : f.recursive = false) (ctx : p.ctx = f.id) : Leads (exitRule fuel) p fun _ p' =>
      p' = { p with sim := p'.sim, tree := p'.tree, state := f.invoking.getD p.state, ctx := g.id } ∧
      Reads P p.stream p'.stream ∧ p'.tree.Standing (g.add f.finished :: rest) := by
  obtain ⟨has, invoking, -⟩ := standing.spine
  refine (tokenIndex_leads ready (-1)).bind fun stop p₁ looks => .of_modify ?_
  have reads := looks.reads
  rw [looks.same] at reads ⊢
  dsimp only
  rw [ctx, has.parent, invoking]
  exact ⟨rfl, reads, (standing_noteStop standing f.id stop).leave attached⟩

/-- The rule that the parse began with ends. -/
theorem exitRule_leads_last (ready : Ready P p) (standing : p.tree.Standing [f]) (ctx : p.ctx = f.id)
    (first : f.invoking = none) : Leads (exitRule fuel) p fun _ p' =>
      p' = { p with sim := p'.sim, tree := p'.tree } ∧
      Reads P p.stream p'.stream ∧ p'.tree.Standing [f] := by
  obtain ⟨has, invoking, -⟩ := standing.spine
  refine (tokenIndex_leads ready (-1)).bind fun stop p₁ looks => .of_modify ?_
  have reads := looks.reads
  rw [looks.same] at reads ⊢
  dsimp only
  rw [ctx, has.parent, invoking, first]
  refine ⟨by rw [← ctx]; rfl, reads, standing_noteStop standing f.id stop⟩

/-- A left-recursive rule goes on around what it has built so far. -/
theorem growRecursion_leads (ready : Ready P p) (standing : p.tree.Standing (f :: rest))
    (loose : f.recursive = true) (ctx : p.ctx = f.id)
    (caller : p.callers.head? = some ⟨Frame.top? rest, f.invoking⟩) (s : State) :
    Leads (growRecursion fuel s) p fun _ p' =>
      p' = { p with sim := p'.sim, tree := p'.tree, ctx := p.tree.size } ∧
      Reads P p.stream p'.stream ∧
      p'.tree.Standing ({ f with id := p.tree.size, done := [f.finished] } :: rest) := by
  have rule : p.tree.rule? p.ctx = some f.rule := by
    rw [ctx, ParseTree.rule?, standing.spine.1.kind]
  unfold growRecursion
  refine .get_bind ?_
  rw [List.headD_eq_head?_getD, caller, rule]
  refine Leads.bind (.of_modifyGet (Q := fun node p' => node = p.tree.size ∧
    p' = { p with tree := (p.tree.addRule f.rule (Frame.top? rest) f.invoking).2 }) ⟨rfl, rfl⟩)
    fun node p₁ same => ?_
  obtain ⟨rfl, rfl⟩ := same
  refine .get_bind ((tokenIndex_leads (P := P) ?_ (-1)).bind fun stop p₂ looks =>
    .modify_bind (.modify_bind (.get_bind ?_)))
  · exact ⟨ready.trees, ready.sound⟩
  have reads : Reads P p.stream p₂.stream := looks.reads
  rw [looks.same]
  dsimp only
  rw [if_pos ready.trees]
  refine .of_modify ?_
  dsimp only
  rw [ctx]
  exact ⟨rfl, reads, standing.wrap loose _ _ stop⟩

/-- A left-recursive rule ends: its last node is attached and is a finished subtree of the caller's. -/
theorem leaveRecursion_leads (ready : Ready P p) (standing : p.tree.Standing (f :: g :: rest))
    (loose : f.recursive = true) (ctx : p.ctx = f.id) :
    Leads (leaveRecursion fuel (some g.id)) p fun _ p' =>
      p' = { p with
        sim := p'.sim, tree := p'.tree, ctx := g.id, precedences := p.precedences.tail } ∧
      Reads P p.stream p'.stream ∧
      p'.tree.Standing (g.add { f with recursive := false }.finished :: rest) := by
  refine .modify_bind ((tokenIndex_leads (P := P) ?_ (-1)).bind fun stop p₁ looks =>
    .get_bind (.modify_bind (.modify_bind ?_)))
  · exact ⟨ready.trees, ready.sound⟩
  have reads := looks.reads
  rw [looks.same] at reads ⊢
  dsimp only
  rw [if_pos ready.trees]
  refine .of_modify ⟨rfl, reads, ?_⟩
  dsimp only
  rw [ctx]
  exact ((standing_noteEnd standing stop).attach loose).leave rfl

/-- The left-recursive rule that the parse began with ends. -/
theorem leaveRecursion_leads_last (ready : Ready P p) (standing : p.tree.Standing [f])
    (ctx : p.ctx = f.id) : Leads (leaveRecursion fuel none) p fun _ p' =>
      p' = { p with sim := p'.sim, tree := p'.tree, precedences := p.precedences.tail } ∧
      Reads P p.stream p'.stream ∧ p'.tree.Standing [f] := by
  refine .modify_bind ((tokenIndex_leads (P := P) ?_ (-1)).bind fun stop p₁ looks =>
    .get_bind (.modify_bind (.pure ?_)))
  · exact ⟨ready.trees, ready.sound⟩
  have reads := looks.reads
  rw [looks.same] at reads ⊢
  refine ⟨rfl, reads, ?_⟩
  dsimp only
  rw [ctx]
  exact standing_noteEnd standing stop

end AdaptiveLL.Parser
