import AdaptiveLL.Proofs.Operators.Laying

/-!
# The network of a compiled grammar of expressions

What is read back from the words of a grammar of expressions is the network of two rules that `Expressive`
describes (`compile_expressive`). Beyond the layout this takes the ways back behind the calls, which are
the only transitions out of the ends of rules, and the mark of the loop, which no other state bears.
-/

set_option autoImplicit false

namespace AdaptiveLL.Operators

open Layout Network

variable {g : Grammar}

/-! ## The two rules -/

/-- How the two rules of a grammar of expressions lie in the network that is laid out. -/
structure Placed (g : Grammar) (base : Network) (w : Sites) (primary : Int) (ops : List Infix) : Prop where
  apart : w.start ≠ w.expr
  knownStart : w.start < 2
  knownExpr : w.expr < 2
  count : w.count = ops.length
  startBody : StartBody base w.expr w.call
  exprBody : ExprBody base w.expr primary ops w.operand
  start : ∃ body, base.BodyAt g w.start body ⟨w.call, w.call + 3⟩ w.call (w.call + 4)
  expr : ∃ body, base.BodyAt g w.expr body ⟨w.operand, w.exit⟩ w.operand (w.block + 5)
  cover : ∀ n < base.states.size, (∃ r < 2, n = 2 * r ∨ n = 2 * r + 1) ∨ (w.call ≤ n ∧ n < w.call + 4) ∨
    (w.operand ≤ n ∧ n < w.block + 5)

theorem Describes.placed {s e : Nat} {expr : String} {primary : Element} {type : Int}
    {ops : List (Element × Infix)} (described : Describes g s e expr primary ops) (named : Names g primary type)
    (names : ∀ o ∈ ops, Names g o.1 o.2.type) {base : Network} (laid : base.LaidOut g) :
    ∃ call operand, Placed g base ⟨s, e, call, operand, ops.length⟩ type (ops.map (·.2)) := by
  obtain ⟨assembled, parser, two, apart, index, ⟨rs, foundS, bodyS, -⟩, ⟨re, foundE, bodyE, -⟩⟩ := described
  obtain ⟨segS, loS, hiS, atS⟩ := laid.body s rs foundS
  obtain ⟨segE, loE, hiE, atE⟩ := laid.body e re foundE
  have startAt {seg : Segment} {lo hi : Nat} (body : base.BodyAt g s rs.body seg lo hi) :
      seg = ⟨lo, lo + 3⟩ ∧ hi = lo + 4 ∧ StartBody base e lo := laid_start index (bodyS ▸ body.laid)
  have exprAt {seg : Segment} {lo hi : Nat} (body : base.BodyAt g e re.body seg lo hi) :
      seg = ⟨lo, tailAt lo ops.length + 4⟩ ∧ hi = tailAt lo ops.length + 5 ∧
        ExprBody base e type (ops.map (·.2)) lo := laid_expr parser index named names (bodyE ▸ body.laid)
  obtain ⟨rfl, rfl, startBody⟩ := startAt atS
  obtain ⟨rfl, rfl, exprBody⟩ := exprAt atE
  -- A body begins where the start of its rule leads, so there is only one of each.
  have begins {n m : Nat} {lo : Nat} (first : base.out n = [.epsilon lo]) (second : base.out n = [.epsilon m]) :
      m = lo := by
    have same := second.symm.trans first
    simpa [Transition.epsilon] using same
  have knownS : s < 2 := two ▸ (List.getElem?_eq_some_iff.1 foundS).1
  have knownE : e < 2 := two ▸ (List.getElem?_eq_some_iff.1 foundE).1
  refine ⟨loS, loE, apart, knownS, knownE, by simp, startBody, exprBody, ⟨_, atS⟩, ⟨_, atE⟩, fun n inside => ?_⟩
  rcases laid.states_cases inside with ⟨r, known, ends⟩ | ⟨mode, known, -⟩ | ⟨i, r, seg, lo, hi, found, body, low, high⟩
  · exact .inl ⟨r, two ▸ known, ends⟩
  · rw [laid.numModes, parser] at known
    cases known
  · have known := (List.getElem?_eq_some_iff.1 found).1
    obtain rfl | rfl : i = s ∨ i = e := by omega
    · obtain rfl := Option.some.inj (found.symm.trans foundS)
      obtain ⟨rfl, rfl, -⟩ := startAt body
      obtain rfl := begins atS.starts body.starts
      exact .inr (.inl ⟨low, high⟩)
    · obtain rfl := Option.some.inj (found.symm.trans foundE)
      obtain ⟨rfl, rfl, -⟩ := exprAt body
      obtain rfl := begins atE.starts body.starts
      exact .inr (.inr ⟨low, high⟩)

namespace Placed

variable {base : Network} {w : Sites} {primary : Int} {ops : List Infix}

/-- Within a body only its last state leads to the end of a rule. -/
theorem leads_stop {i : Nat} {body : Element} {seg : Segment} {lo hi n : Nat} {t : Transition} (laid : base.LaidOut g)
    (at' : base.BodyAt g i body seg lo hi) (low : lo ≤ n) (high : n < hi) (member : t ∈ base.out n)
    (isStop : base.isStop t.target = true) : n = seg.right := by
  by_contra other
  have stays := (at'.laid.inside.within n low high other).stays t member
  by_cases call : ∃ r p follow, t.label = .rule r p follow
  · obtain ⟨r, p, follow, label⟩ := call
    obtain ⟨known, target, -⟩ := stays.call r p follow label
    rw [target, laid.ruleStart_eq known, laid.isStop_start known] at isStop
    cases isStop
  · have bounds := stays.other fun r p follow label => call ⟨r, p, follow, label⟩
    rw [isStop_of_inner (at'.inner _ bounds.1 bounds.2)] at isStop
    cases isStop

/-- The transitions of the two rules. Only one of them leads behind the loop, and the calls are known. -/
inductive Edge (base : Network) (w : Sites) (ops : List Infix) : Nat → Transition → Prop
  | free {n m : Nat} (enters : m = w.exit → n = w.entry) : Edge base w ops n (.epsilon m)
  | plain {n : Nat} {label : Label} (other : n + 1 ≠ w.exit)
      (plain : ∀ r q follow, label ≠ .rule r q follow) : Edge base w ops n ⟨n + 1, label⟩
  | start : Edge base w ops w.call ⟨base.ruleStart w.expr, .rule w.expr 0 (w.call + 1)⟩
  | operand {i : Nat} {op : Infix} (found : ops[i]? = some op) : Edge base w ops (w.tail i + 4)
      ⟨base.ruleStart w.expr, .rule w.expr (nextOf op.assoc ((ops.length : Int) - i)) (w.tail i + 5)⟩

theorem edge (placed : Placed g base w primary ops) (laid : base.LaidOut g) (two : g.rules.length = 2) {n : Nat}
    {t : Transition} (member : t ∈ base.out n) : Edge base w ops n t := by
  obtain ⟨apart, knownStart, knownExpr, count, startBody, exprBody, ⟨bodyS, atS⟩, ⟨bodyE, atE⟩, cover⟩ := placed
  have exitIs : w.exit = w.operand + 2 + 6 * ops.length + 4 := by simp only [Sites.exit, Sites.block, tailAt, count]
  have entryIs : w.entry = w.operand + 2 + 6 * ops.length + 2 := by simp only [Sites.entry, Sites.block, tailAt, count]
  have exitOwner : (base.state w.exit).rule = some w.expr :=
    atE.owner _ (by omega) (by simp only [Sites.exit]; omega)
  have outside {m : Nat} (low : w.call ≤ m) (high : m < w.call + 4) : m ≠ w.exit := by
    rintro rfl
    exact apart (Option.some.inj ((atS.owner _ low high).symm.trans exitOwner))
  have ended {r : Nat} (known : r < 2) : 2 * r + 1 ≠ w.exit := by
    intro same
    have isStop := laid.isStop_stop (r := r) (by omega)
    rw [same, isStop_of_inner (atE.inner _ (by omega) (by simp only [Sites.exit]; omega))] at isStop
    cases isStop
  have inside : n < base.states.size := by
    by_contra outside
    rw [out_of_le (Nat.not_lt.1 outside)] at member
    cases member
  rcases cover n inside with ⟨r, known, rfl | rfl⟩ | ⟨low, high⟩ | ⟨low, high⟩
  · obtain rfl | rfl : r = w.start ∨ r = w.expr := by omega
    · rw [atS.starts, List.mem_singleton] at member
      rw [member]
      exact .free fun same => absurd same (outside (Nat.le_refl _) (Nat.lt_add_of_pos_right (by omega)))
    · rw [atE.starts, List.mem_singleton] at member
      rw [member]
      exact .free fun same => by dsimp only at same; omega
  · rw [(laid.stopState r (by omega)).2.2] at member
    cases member
  · obtain rfl | rfl | rfl | rfl : n = w.call ∨ n = w.call + 1 ∨ n = w.call + 2 ∨ n = w.call + 3 := by omega
    · rw [startBody.call, List.mem_singleton] at member
      exact member ▸ .start
    · rw [startBody.called, List.mem_singleton] at member
      exact member ▸ .free fun same => absurd same (outside (by omega) (by omega))
    · rw [startBody.last, List.mem_singleton] at member
      exact member ▸ .plain (outside (by omega) (by omega)) fun _ _ _ => by simp
    · have leaves := atS.stops
      dsimp only at leaves
      rw [leaves, List.mem_singleton] at member
      exact member ▸ .free fun same => absurd same (ended knownStart)
  · have exprEnd : n < tailAt w.operand ops.length + 5 := by
      simpa only [Sites.block, count] using high
    rcases expr_cases low exprEnd with rfl | rfl | ⟨i, before, j, few, rfl⟩ | ⟨j, few, rfl⟩
    · rw [exprBody.primary, List.mem_singleton] at member
      exact member ▸ .plain (by omega) (atomLabel_plain _)
    · rw [exprBody.enters, List.mem_singleton] at member
      exact member ▸ .free fun same => by simp only [tailAt] at same; omega
    · have tail := exprBody.tail i ops[i] (List.getElem?_eq_getElem before)
      have far : tailAt w.operand i + 6 ≤ w.exit := by simp only [tailAt]; omega
      obtain rfl | rfl | rfl | rfl | rfl | rfl : j = 0 ∨ j = 1 ∨ j = 2 ∨ j = 3 ∨ j = 4 ∨ j = 5 := by omega
      · rw [Nat.add_zero, tail.guard, List.mem_singleton] at member
        exact member ▸ .plain (by omega) fun _ _ _ => by simp
      · rw [tail.guarded, List.mem_singleton] at member
        exact member ▸ .free fun same => by omega
      · rw [tail.token, List.mem_singleton] at member
        exact member ▸ .plain (by omega) (atomLabel_plain _)
      · rw [tail.matched, List.mem_singleton] at member
        exact member ▸ .free fun same => by omega
      · rw [tail.operand, List.mem_singleton] at member
        exact member ▸ .operand (List.getElem?_eq_getElem before)
      · rw [exprBody.ends i before, List.mem_singleton] at member
        exact member ▸ .free fun same => by simp only [tailAt] at same; omega
    · obtain rfl | rfl | rfl | rfl | rfl : j = 0 ∨ j = 1 ∨ j = 2 ∨ j = 3 ∨ j = 4 := by omega
      · rw [Nat.add_zero, exprBody.block] at member
        obtain ⟨i, before, rfl⟩ := List.mem_map.1 member
        have before := List.mem_range.1 before
        exact .free fun same => by simp only [tailAt] at same; omega
      · rw [exprBody.stops, List.mem_singleton] at member
        exact member ▸ .free fun same => by simp only [tailAt] at same; omega
      · rw [exprBody.entry] at member
        rcases List.mem_cons.1 member with rfl | last
        · exact .free fun same => by simp only [tailAt] at same; omega
        · rw [List.mem_singleton.1 last]
          exact .free fun _ => by simp only [tailAt]; omega
      · rw [exprBody.returns, List.mem_singleton] at member
        exact member ▸ .free fun same => by simp only [tailAt] at same; omega
      · have leaves := atE.stops
        simp only [Sites.exit, Sites.block, count] at leaves
        rw [leaves, List.mem_singleton] at member
        exact member ▸ .free fun same => absurd same (ended knownExpr)

/-- Only the rule of expressions ends in a loop, and its loop is the one around the tails. -/
theorem loop_eq (placed : Placed g base w primary ops) (laid : base.LaidOut g) (two : g.rules.length = 2) {m : Nat}
    {t : Transition} (kind : (base.state m).kind.isLoopEnd = true) (member : t ∈ base.out m)
    (isStop : base.isStop t.target = true) : m = w.call + 3 ∨ m = w.exit := by
  obtain ⟨bodyS, atS⟩ := placed.start
  obtain ⟨bodyE, atE⟩ := placed.expr
  have inside : m < base.states.size := by
    by_contra outside
    rw [out_of_le (Nat.not_lt.1 outside)] at member
    cases member
  rcases placed.cover m inside with ⟨r, known, rfl | rfl⟩ | ⟨low, high⟩ | ⟨low, high⟩
  · have isStart := (laid.startState r (by omega)).1
    cases same : (base.state (2 * r)).kind <;> simp_all [StateKind.isRuleStart, StateKind.isLoopEnd]
  · rw [(laid.stopState r (by omega)).1] at kind
    cases kind
  · exact .inl (leads_stop laid atS low high member isStop)
  · exact .inr (leads_stop laid atE low high member isStop)

end Placed

/-! ## What is read back -/

/-- What is read back from the words of a grammar of expressions, and where it comes from. -/
structure Reread (g : Grammar) (base net : Network) (w : Sites) (primary : Int) (ops : List Infix) : Prop where
  laid : base.LaidOut g
  two : g.rules.length = 2
  parser : g.isLexer = false
  placed : Placed g base w primary ops
  plainStart : (base.state (2 * w.start)).kind.isLeftRecursiveStart = false
  recursiveExpr : (base.state (2 * w.expr)).kind.isLeftRecursiveStart = true
  looped : base.Looped w.block
  outfitted : Outfitted g base
  walkable : net.Walkable
  refreshed : net.Refreshed
  restored : ∃ actions, ({ base with actions } : Network).Restored net
  ways : ∀ stop, net.isStop stop = true → net.out stop = edgesFrom stop (Layout.ways base)
  marked : ∀ n, (net.state n).kind.isPrecedenceLoop = true ↔
    (net.state n).kind.isLoopEntry = true ∧ Decode.exitsRule net (net.state n) = true

variable {compiled : CompiledGrammar} {net : Network} {verify : Bool} {s e : Nat} {expr : String}
  {primary : Element} {type : Int} {ops : List (Element × Infix)}

theorem Describes.reread (described : Describes g s e expr primary ops) (named : Names g primary type)
    (names : ∀ o ∈ ops, Names g o.1 o.2.type) (representable : g.Representable) (run : g.compile = .ok compiled)
    (decoded : decode compiled.words verify = .ok net) : ∃ base call operand,
      Reread g base net ⟨s, e, call, operand, ops.length⟩ type (ops.map (·.2)) := by
  obtain ⟨base, derived, actions, layout, laid, outfitted, -, isDerived, isMarked, restored⟩ :=
    Grammar.compile_derived described.assembled representable run decoded
  obtain ⟨started, loops⟩ := g.layOut_kinds described.parser layout
  obtain ⟨call, operand, placed⟩ := described.placed named names laid
  obtain ⟨rs, foundS, -, plain⟩ := described.start
  obtain ⟨re, foundE, bodyE, recursive⟩ := described.recursive
  obtain ⟨m, leaves, looped⟩ := loops e (List.getElem?_eq_some_iff.1 foundE).1 re _ _ _ foundE bodyE
  have knownE : e < g.rules.length := (List.getElem?_eq_some_iff.1 foundE).1
  have knownS : s < g.rules.length := (List.getElem?_eq_some_iff.1 foundS).1
  have member : Transition.epsilon (2 * e + 1) ∈ base.out (m + 4) := by simp [leaves]
  have isBlock : m = (Sites.mk s e call operand ops.length).block := by
    rcases placed.loop_eq laid described.two (by rw [looped.stop]; rfl) member (laid.isStop_stop knownE) with other | here
    · obtain ⟨body, atS⟩ := placed.start
      have leavesS := atS.stops
      dsimp only at leavesS other
      rw [← other, leaves] at leavesS
      simp only [Transition.epsilon, List.cons.injEq, Transition.mk.injEq, and_true] at leavesS
      exact absurd leavesS (by have := described.apart; omega)
    · exact Nat.add_right_cancel here
  refine ⟨base, call, operand, laid, described.two, described.parser, placed, ?_, ?_, isBlock ▸ looped, outfitted,
    Grammar.compile_walkable described.assembled representable run decoded, isMarked ▸ refreshed_mark _,
    ⟨actions, restored⟩, ?_, ?_⟩
  · rw [started s knownS rs foundS, plain]
    rfl
  · rw [started e knownE re foundE, recursive]
    rfl
  · intro stop isStop
    rw [isMarked, out_mark]
    exact isDerived.ways stop ((restored.isRuleStop stop).symm.trans isStop)
  · intro n
    rw [isMarked]
    exact isPrecedenceLoop_mark (Grammar.unmarked_of_derived outfitted isDerived actions) n

namespace Reread

variable {base : Network} {w : Sites} {primary : Int} {ops : List Infix}

theorem isStop (reread : Reread g base net w primary ops) (n : Nat) : net.isStop n = base.isStop n :=
  reread.restored.elim fun _ restored => restored.isRuleStop n

theorem out (reread : Reread g base net w primary ops) {n : Nat} (inner : base.isStop n = false) :
    net.out n = base.out n :=
  reread.restored.elim fun _ restored => (restored.out n inner).1

theorem rule (reread : Reread g base net w primary ops) (n : Nat) : (net.state n).rule = (base.state n).rule :=
  reread.restored.elim fun _ restored => restored.rule n

theorem ruleStarts (reread : Reread g base net w primary ops) : net.ruleStarts = base.ruleStarts :=
  reread.restored.elim fun _ restored => restored.ruleStarts

theorem ruleStart (reread : Reread g base net w primary ops) {r : Nat} (known : r < 2) : net.ruleStart r = 2 * r := by
  rw [Network.ruleStart, reread.ruleStarts]
  exact reread.laid.ruleStart_eq (reread.two ▸ known)

theorem kind (reread : Reread g base net w primary ops) (n : Nat)
    (other : ∀ back p, (base.state n).kind ≠ .starLoopEntry back p) : (net.state n).kind = (base.state n).kind :=
  reread.restored.elim fun _ restored => unmarked_eq (restored.stateKind n) other

theorem isLeftRecursiveStart (reread : Reread g base net w primary ops) (n : Nat) :
    (net.state n).kind.isLeftRecursiveStart = (base.state n).kind.isLeftRecursiveStart :=
  reread.restored.elim fun _ restored => restored.isLeftRecursiveStart n

theorem inner_start (reread : Reread g base net w primary ops) {n : Nat} (low : w.call ≤ n) (high : n < w.call + 4) :
    base.isStop n = false ∧ (base.state n).rule = some w.start :=
  reread.placed.start.elim fun _ at' => ⟨isStop_of_inner (at'.inner n low high), at'.owner n low high⟩

theorem inner_expr (reread : Reread g base net w primary ops) {n : Nat} (low : w.operand ≤ n)
    (high : n < w.block + 5) : base.isStop n = false ∧ (base.state n).rule = some w.expr :=
  reread.placed.expr.elim fun _ at' => ⟨isStop_of_inner (at'.inner n low high), at'.owner n low high⟩

/-- The only ways back are those behind the calls of the rule of expressions. -/
theorem ways_iff (reread : Reread g base net w primary ops) {stop : Nat} {t : Transition} :
    (stop, t) ∈ Layout.ways base ↔ stop = 2 * w.expr + 1 ∧ (t = ⟨w.call + 1, .epsilon (some w.expr)⟩ ∨
      ∃ i < w.count, t = ⟨w.tail i + 5, .epsilon none⟩) := by
  have laid := reread.laid
  have placed := reread.placed
  have knownE := placed.knownExpr
  have stops : base.ruleStop? w.expr = some (2 * w.expr + 1) := by
    simp [ruleStop?, laid.ruleStops, reread.two, knownE]
  have starts : base.ruleStart w.expr = 2 * w.expr := laid.ruleStart_eq (reread.two ▸ knownE)
  have way (n : Nat) (q : Int) (follow : Nat) :
      Decode.returnEdge? base ⟨n, .rule w.expr q follow⟩ =
        some (2 * w.expr + 1, ⟨follow, .epsilon (if q = 0 then some w.expr else none)⟩) := by
    simp [Decode.returnEdge?, starts, stops, reread.recursiveExpr]
  have tighter {i : Nat} {op : Infix} (found : ops[i]? = some op) : nextOf op.assoc ((ops.length : Int) - i) ≠ 0 := by
    have before := (List.getElem?_eq_some_iff.1 found).1
    cases op.assoc <;> simp only [nextOf] <;> omega
  simp only [Layout.ways, List.mem_flatMap, List.mem_range, List.mem_filterMap]
  constructor
  · rintro ⟨n, -, t', member, leads⟩
    cases placed.edge laid reread.two member with
    | free => cases leads
    | plain _ plain =>
      simp only [Decode.returnEdge?] at leads
      cases leads
    | start =>
      rw [way] at leads
      cases leads
      exact ⟨rfl, .inl rfl⟩
    | operand found =>
      rw [way, if_neg (tighter found)] at leads
      cases leads
      exact ⟨rfl, .inr ⟨_, placed.count ▸ (List.getElem?_eq_some_iff.1 found).1, rfl⟩⟩
  · have inside {n : Nat} {t : Transition} (member : t ∈ base.out n) : n < base.states.size := by
      by_contra outside
      rw [out_of_le (Nat.not_lt.1 outside)] at member
      cases member
    rintro ⟨rfl, rfl | ⟨i, before, rfl⟩⟩
    · have member : (⟨base.ruleStart w.expr, .rule w.expr 0 (w.call + 1)⟩ : Transition) ∈ base.out w.call := by
        simp [placed.startBody.call]
      exact ⟨w.call, inside member, _, member, by rw [way, if_pos rfl]⟩
    · rw [placed.count] at before
      have found := List.getElem?_eq_getElem before
      have member := (placed.exprBody.tail i _ found).operand
      have member' : _ ∈ base.out (tailAt w.operand i + 4) := member ▸ List.mem_singleton_self _
      exact ⟨_, inside member', _, member', by rw [way, if_neg (tighter found)]; rfl⟩

/-- The mark of a precedence loop is at the entry of the loop around the tails and nowhere else. -/
theorem loop_iff (reread : Reread g base net w primary ops) {n : Nat} :
    (net.state n).kind.isPrecedenceLoop = true ↔ n = w.entry := by
  have laid := reread.laid
  have placed := reread.placed
  have looped := reread.looped
  have entryKind : ∃ q, (net.state w.entry).kind = .starLoopEntry (some (w.block + 3)) q := by
    obtain ⟨actions, restored⟩ := reread.restored
    refine unmarked_entry (p := false) ((restored.stateKind w.entry).trans ?_)
    exact congrArg StateKind.unmarked looped.entry
  have blockIs : w.block = w.operand + 2 + 6 * ops.length := by simp only [Sites.block, tailAt, placed.count]
  have entryInner := reread.inner_expr (n := w.entry) (by simp only [Sites.entry]; omega)
    (by simp only [Sites.entry]; omega)
  have exitInner := reread.inner_expr (n := w.exit) (by simp only [Sites.exit]; omega) (by simp only [Sites.exit]; omega)
  have exitKind : (net.state w.exit).kind = .loopEnd (some (w.block + 3)) := by
    rw [reread.kind w.exit (fun back p kind => by cases kind.symm.trans looped.stop)]
    exact looped.stop
  have entryOut : net.out w.entry = [.epsilon w.block, .epsilon w.exit] := by
    rw [reread.out entryInner.1]
    simp only [Sites.entry, Sites.exit, Sites.block, placed.count]
    exact placed.exprBody.entry
  have exitOut : net.out w.exit = [.epsilon (2 * w.expr + 1)] :=
    (reread.out exitInner.1).trans (placed.expr.elim fun _ at' => at'.stops)
  have isStop {r : Nat} (known : r < 2) : net.isStop (2 * r + 1) = true :=
    (reread.isStop _).trans (laid.isStop_stop (reread.two ▸ known))
  rw [reread.marked]
  constructor
  · rintro ⟨isEntry, exits⟩
    simp only [Decode.exitsRule, Bool.and_eq_true, Option.any_eq_true, Option.bind_eq_some_iff] at exits
    obtain ⟨⟨start, ⟨r, owned, found⟩, recursive⟩, leaves⟩ := exits
    have known : r < 2 := by
      obtain ⟨inside, -⟩ := Array.getElem?_eq_some_iff.1 found
      rwa [reread.ruleStarts, ← Network.numRules, laid.numRules, reread.two] at inside
    obtain rfl : 2 * r = start := by
      rw [← reread.ruleStart known, Network.ruleStart, Array.getD_eq_getD_getElem?, found, Option.getD_some]
    obtain rfl : r = w.expr := by
      by_contra other
      obtain rfl : r = w.start := by have := placed.apart; have := placed.knownStart; have := placed.knownExpr; omega
      rw [reread.isLeftRecursiveStart, reread.plainStart] at recursive
      cases recursive
    have inner : base.isStop n = false := by
      rw [← reread.isStop, Network.isStop]
      cases kind : (net.state n).kind <;> simp_all [StateKind.isLoopEntry, StateKind.isRuleStop]
    split at leaves
    · cases leaves
    · rename_i t last
      have member : t ∈ base.out n := reread.out inner ▸ List.mem_of_getLast? last
      simp only [Bool.and_eq_true, Option.any_eq_true] at leaves
      obtain ⟨⟨targetKind, -⟩, t', first, toStop⟩ := leaves
      have targetInner : base.isStop t.target = false := by
        rw [← reread.isStop, Network.isStop]
        cases kind : (net.state t.target).kind <;> simp_all [StateKind.isLoopEnd, StateKind.isRuleStop]
      have targetKind' : (base.state t.target).kind.isLoopEnd = true := by
        rwa [← reread.kind t.target fun back p kind => ?_]
        obtain ⟨actions, restored⟩ := reread.restored
        have entry : ∃ q, (net.state t.target).kind = .starLoopEntry back q :=
          unmarked_entry ((restored.stateKind t.target).trans (congrArg StateKind.unmarked kind))
        obtain ⟨q, entry⟩ := entry
        rw [entry] at targetKind
        cases targetKind
      have member' : t' ∈ base.out t.target := reread.out targetInner ▸ List.mem_of_head? first
      have notStart : t.target ≠ base.ruleStart w.expr := by
        rw [laid.ruleStart_eq (reread.two ▸ placed.knownExpr)]
        intro same
        have isStart := (laid.startState w.expr (reread.two ▸ placed.knownExpr)).1
        rw [← same] at isStart
        cases kind : (base.state t.target).kind <;> simp_all [StateKind.isRuleStart, StateKind.isLoopEnd]
      have stays : (net.state t.move.next).rule = some w.expr :=
        reread.walkable.owner n w.expr owned ((reread.isStop n).trans inner) t (reread.out inner ▸ member)
      rcases placed.loop_eq laid reread.two targetKind' member' ((reread.isStop _).symm.trans toStop) with other | isExit
      · -- The end of the start rule is not in the rule that the state belongs to.
        have owner := (reread.inner_start (n := w.call + 3) (by omega) (by omega)).2
        rw [← other, ← reread.rule] at owner
        have next : t.move.next = t.target := by
          cases placed.edge laid reread.two member with
          | free => rfl
          | plain _ plain =>
            simp only [Transition.move]
            split <;> rfl
          | start | operand => exact absurd rfl notStart
        rw [next, owner] at stays
        exact absurd (Option.some.inj stays) placed.apart
      · cases placed.edge laid reread.two member with
        | free enters => exact enters isExit
        | plain other => exact absurd isExit other
        | start | operand => exact absurd rfl notStart
  · rintro rfl
    obtain ⟨q, kind⟩ := entryKind
    refine ⟨by rw [kind]; rfl, ?_⟩
    have owned : (net.state w.entry).rule = some w.expr := (reread.rule _).trans entryInner.2
    have starts : net.ruleStarts[w.expr]? = some (2 * w.expr) := by
      rw [reread.ruleStarts, laid.ruleStarts]
      simp [reread.two, placed.knownExpr]
    have recursive : (net.state (2 * w.expr)).kind.isLeftRecursiveStart = true :=
      (reread.isLeftRecursiveStart _).trans reread.recursiveExpr
    have free : (net.state w.exit).epsilonOnly = true := by
      rw [reread.refreshed, exitOut]
      rfl
    have stopped : (net.state (2 * w.expr + 1)).kind.isRuleStop = true := isStop placed.knownExpr
    have entryOut' : (net.state w.entry).transitions = [.epsilon w.block, .epsilon w.exit] := entryOut
    have exitOut' : (net.state w.exit).transitions = [.epsilon (2 * w.expr + 1)] := exitOut
    simp only [Decode.exitsRule, owned, Option.bind_some, starts, Option.any_some, recursive, entryOut',
      List.getLast?_cons_cons, List.getLast?_singleton, Transition.epsilon, exitKind, StateKind.isLoopEnd, free, exitOut',
      List.head?_cons, stopped, Bool.and_self]

theorem expressive (reread : Reread g base net w primary ops) : Expressive net w primary ops := by
  have laid := reread.laid
  have placed := reread.placed
  have knownS := placed.knownStart
  have knownE := placed.knownExpr
  have blockIs : w.block = tailAt w.operand ops.length := by rw [Sites.block, placed.count]
  obtain ⟨actions, restored⟩ := reread.restored
  have decisions : net.decisions = base.decisions := restored.decisions
  have decides {n : Nat} (inside : n < base.states.size) (decided : (base.state n).decision.isSome = true) :
      ∃ d, Decides net n d := by
    obtain ⟨d, isDecided⟩ := Option.isSome_iff_exists.1 decided
    have found := reread.outfitted.equipped.decision n d isDecided
    have isDecision := (reread.outfitted.equipped.decides d n found).2
    refine ⟨d, decisions ▸ found, (restored.decision n).trans isDecided, ?_⟩
    have same : (net.state n).kind.unmarked.isDecision = (base.state n).kind.unmarked.isDecision :=
      congrArg StateKind.isDecision (restored.stateKind n)
    have unmarked (k : StateKind) : k.unmarked.isDecision = k.isDecision := by cases k <;> rfl
    rwa [unmarked, unmarked, isDecision] at same
  have inside {n : Nat} (valid : (base.state n).kind ≠ .invalid) : n < base.states.size := by
    by_contra outside
    exact valid (by rw [state_of_le (Nat.not_lt.1 outside)])
  have start (n : Nat) (low : w.call ≤ n) (high : n < w.call + 4) : net.out n = base.out n :=
    reread.out (reread.inner_start low high).1
  have within (n : Nat) (low : w.operand ≤ n) (high : n < tailAt w.operand ops.length + 5) : net.out n = base.out n :=
    reread.out (reread.inner_expr low (blockIs ▸ high)).1
  have sameStart : net.ruleStart w.expr = base.ruleStart w.expr := by
    rw [Network.ruleStart, reread.ruleStarts, Network.ruleStart]
  have begins {r : Nat} (known : r < 2) : base.isStop (2 * r) = false := laid.isStop_start (reread.two ▸ known)
  have operandBelow : w.operand ≤ w.block := by rw [blockIs]; simp only [tailAt]; omega
  exact {
    walkable := reread.walkable
    refreshed := reread.refreshed
    parser := by
      rw [Network.isLexer, restored.kind]
      exact (congrArg (· == GrammarKind.lexer) laid.kind).trans reread.parser
    numRules := by rw [Network.numRules, reread.ruleStarts, ← Network.numRules, laid.numRules, reread.two]
    apart := placed.apart
    knownStart := knownS
    knownExpr := knownE
    ruleStart := fun r known => reread.ruleStart known
    plainStart := (reread.isLeftRecursiveStart _).trans reread.plainStart
    recursiveExpr := (reread.isLeftRecursiveStart _).trans reread.recursiveExpr
    begin := fun r known => (reread.isStop _).trans (begins known)
    stop := fun r known => ⟨(reread.isStop _).trans (laid.isStop_stop (reread.two ▸ known)),
      (reread.rule _).trans (laid.stopState r (reread.two ▸ known)).2.1⟩
    count := placed.count
    enterStart := (reread.out (begins knownS)).trans (placed.start.elim fun _ at' => at'.starts)
    startBody := placed.startBody.of_same start sameStart
    leaveStart := (start _ (by omega) (by omega)).trans (placed.start.elim fun _ at' => at'.stops)
    enterExpr := (reread.out (begins knownE)).trans (placed.expr.elim fun _ at' => at'.starts)
    exprBody := placed.exprBody.of_same within sameStart
    leaveExpr := (reread.out (reread.inner_expr (by simp only [Sites.exit]; omega)
      (by simp only [Sites.exit]; omega)).1).trans
      (placed.expr.elim fun _ at' => at'.stops)
    insideStart := fun n low high => ⟨(reread.isStop n).trans (reread.inner_start low high).1,
      (reread.rule n).trans (reread.inner_start low high).2⟩
    insideExpr := fun n low high => ⟨(reread.isStop n).trans (reread.inner_expr low high).1,
      (reread.rule n).trans (reread.inner_expr low high).2⟩
    returns := fun t => by
      rw [reread.ways _ ((reread.isStop _).trans (laid.isStop_stop (reread.two ▸ knownE))), mem_edgesFrom,
        reread.ways_iff,
        and_iff_right rfl]
    noReturns := by
      rw [reread.ways _ ((reread.isStop _).trans (laid.isStop_stop (reread.two ▸ knownS))),
        List.eq_nil_iff_forall_not_mem]
      intro t member
      have := (reread.ways_iff.1 (mem_edgesFrom.1 member)).1
      have := placed.apart
      omega
    loop := fun n => reread.loop_iff
    blockKind := by
      rw [reread.kind w.block (fun back p kind => by cases kind.symm.trans reread.looped.block), reread.looped.block]
      rfl
    exitKind := by
      rw [reread.kind w.exit (fun back p kind => by cases kind.symm.trans reread.looped.stop)]
      exact congrArg StateKind.isLoopEnd reread.looped.stop
    entryDecides := by
      have kind : (base.state w.entry).kind = _ := reread.looped.entry
      have below := inside (n := w.entry) (by rw [kind]; simp)
      refine decides below ?_
      cases reread.outfitted.fits _ below with
      | starLoopEntry _ _ _ decided => exact decided
      | _ => simp_all
    blockDecides := fun several => by
      have kind := reread.looped.block
      have below := inside (n := w.block) (by rw [kind]; simp)
      refine decides below ?_
      cases reread.outfitted.fits _ below with
      | blockStart _ _ choice =>
        refine choice.resolve_left fun few => ?_
        rw [blockIs, placed.exprBody.block, List.length_map, List.length_range] at few
        have := placed.count
        omega
      | _ => simp_all }

end Reread

/-- What is read back from the words of a grammar of expressions is the network of two rules. -/
theorem compile_expressive (described : Describes g s e expr primary ops) (named : Names g primary type)
    (names : ∀ o ∈ ops, Names g o.1 o.2.type) (representable : g.Representable) (run : g.compile = .ok compiled)
    (decoded : decode compiled.words verify = .ok net) :
    ∃ call operand, Expressive net ⟨s, e, call, operand, ops.length⟩ type (ops.map (·.2)) := by
  obtain ⟨base, call, operand, reread⟩ := described.reread named names representable run decoded
  exact ⟨call, operand, reread.expressive⟩

end AdaptiveLL.Operators
