import AdaptiveLL.Proofs.Grammar.Built
import AdaptiveLL.Proofs.Grammar.Least

/-!
# Crossing an element

In the network of a compiled grammar, an element can match nothing by the check of the grammar exactly when its right
end is reached from its left end over transitions that consume nothing, where the call of a rule is crossed when the
stop of the rule is so reached from its start (`compile_nullable`). One half follows the element: whatever can match
nothing is crossed (`Laid.crosses`). The other half is the late states of a ranking: no crossing leads into them from
outside, and of what consumes the left end is not late (`HasRank.crossed`).

So the check of the loops is exact, and no crossing within a rule leads in a circle.
-/

set_option autoImplicit false

namespace AdaptiveLL

/-- Each of the elements has one of the segments. -/
theorem Consecutive.among {P : Element → Segment → Nat → Nat → Prop} {es : List Element} {segs : List Segment}
    {lo hi : Nat} (parts : Consecutive P es segs lo hi) {e : Element} (member : e ∈ es) :
    ∃ seg ∈ segs, ∃ lo hi, P e seg lo hi := by
  induction parts with
  | nil lo => cases member
  | cons first rest ih =>
    rcases List.mem_cons.1 member with rfl | later
    · exact ⟨_, List.mem_cons_self .., _, _, first⟩
    · obtain ⟨seg, among, found⟩ := ih later
      exact ⟨seg, List.mem_cons_of_mem _ among, found⟩

namespace Network

variable {net : Network} {g : Grammar} {known : Array Bool} {rule : Nat}

/-! ## Crossings -/

/-- From one state to another without consuming, all within the invocation of one rule: over transitions that consume
nothing, and over calls of rules whose stop is reached from their start in this way. -/
inductive Crosses (net : Network) : Nat → Nat → Prop
  | stay (n : Nat) : Crosses net n n
  | free {n m : Nat} {t : Transition} (leaves : t ∈ net.out n) (silent : t.label.isEpsilon = true)
      (plain : ∀ r p follow, t.label ≠ .rule r p follow) (rest : Crosses net t.target m) : Crosses net n m
  | call {n m r start follow stop : Nat} {p : Int} (leaves : ⟨start, .rule r p follow⟩ ∈ net.out n)
      (stops : net.ruleStop? r = some stop) (through : Crosses net start stop) (rest : Crosses net follow m) :
      Crosses net n m

/-- One crossing. -/
inductive Crossing (net : Network) : Nat → Nat → Prop
  | free {n : Nat} {t : Transition} (leaves : t ∈ net.out n) (silent : t.label.isEpsilon = true)
      (plain : ∀ r p follow, t.label ≠ .rule r p follow) : Crossing net n t.target
  | call {n r start follow stop : Nat} {p : Int} (leaves : ⟨start, .rule r p follow⟩ ∈ net.out n)
      (stops : net.ruleStop? r = some stop) (through : net.Crosses start stop) : Crossing net n follow

theorem Crosses.trans {a b c : Nat} (first : net.Crosses a b) (second : net.Crosses b c) : net.Crosses a c := by
  induction first with
  | stay n => exact second
  | free leaves silent plain rest ih => exact .free leaves silent plain (ih second)
  | call leaves stops through rest _ ih => exact .call leaves stops through (ih second)

theorem crosses_epsilon {n m : Nat} (leaves : .epsilon m ∈ net.out n) : net.Crosses n m :=
  .free leaves rfl (fun _ _ _ same => by cases same) (.stay m)

theorem crosses_single {n m : Nat} (out : net.out n = [.epsilon m]) : net.Crosses n m :=
  crosses_epsilon (by simp [out])

/-- A run of crossings. -/
theorem crosses_iff {a b : Nat} : net.Crosses a b ↔ Relation.ReflTransGen net.Crossing a b := by
  constructor
  · intro crosses
    induction crosses with
    | stay n => exact .refl
    | free leaves silent plain rest ih => exact .head (.free leaves silent plain) ih
    | call leaves stops through rest _ ih => exact .head (.call leaves stops through) ih
  · intro run
    induction run using Relation.ReflTransGen.head_induction_on with
    | refl => exact .stay b
    | head step rest ih =>
      cases step with
      | free leaves silent plain => exact .free leaves silent plain ih
      | call leaves stops through => exact .call leaves stops through ih

/-! ## What can match nothing is crossed -/

/-- The stop of the rule is reached from its start. -/
def Crossable (net : Network) (r : Nat) : Prop :=
  ∃ stop, net.ruleStop? r = some stop ∧ net.Crosses (net.ruleStart r) stop

/-- It is decided whether the element can match nothing, and it is crossed if it can. -/
structure Crossed (net : Network) (g : Grammar) (known : Array Bool) (e : Element) (seg : Segment) : Prop where
  decided : g.Decided known e
  crosses : g.nullable known e = .ok true → net.Crosses seg.left seg.right

theorem Chained.crosses {es : List Element} {segs : List Segment} {seg : Segment} {lo hi : Nat}
    (chained : net.Chained segs seg)
    (parts : Consecutive (fun _ seg _ _ => net.Crosses seg.left seg.right) es segs lo hi) :
    net.Crosses seg.left seg.right := by
  induction chained generalizing es lo with
  | single s =>
    cases parts with
    | cons first rest => exact first
  | cons joined later ih =>
    cases parts with
    | cons first rest => exact first.trans ((crosses_single joined).trans (ih rest))

/-- From the way into alternatives to their common end, when one of them is crossed. -/
theorem crosses_any {es : List Element} {segs : List Segment} {n lo hi stop : Nat}
    (parts : Consecutive (fun e seg _ _ => net.Crossed g known e seg) es segs lo hi)
    (enters : net.out n = waysIn segs) (ends : net.EndAt segs stop)
    (any : ∃ e ∈ es, g.nullable known e = .ok true) : net.Crosses n stop := by
  obtain ⟨e, member, isNullable⟩ := any
  obtain ⟨s, among, _, _, crossed⟩ := parts.among member
  have into : net.Crosses n s.left := by
    apply crosses_epsilon
    rw [enters]
    exact List.mem_map_of_mem among
  exact into.trans ((crossed.crosses isNullable).trans (crosses_single (ends s among)))

theorem Repeated.crossed {q : Quantifier} {greedy : Bool} {body : Element} {segs : List Segment} {seg : Segment}
    {lo mid hi : Nat} (around : net.Repeated greedy segs mid q seg hi)
    (parts : Consecutive (fun e seg _ _ => net.Crossed g known e seg) body.branches segs lo mid) :
    net.Crossed g known (.repeated q greedy body) seg := by
  have exit {n m : Nat} {round : List Transition} (decides : net.out n = inOrder greedy round [.epsilon m]) :
      net.Crosses n m := by
    apply crosses_epsilon
    rw [decides]
    cases greedy <;> simp [inOrder]
  cases around with
  | optional enters ends => exact ⟨⟨_, rfl⟩, fun _ => exit enters⟩
  | star enters ends stops returns decides => exact ⟨⟨_, rfl⟩, fun _ => exit decides⟩
  | plus enters ends stops decides =>
    obtain ⟨b, isBody, iff⟩ := Grammar.nullable_branches_ok fun e member => by
      obtain ⟨_, _, _, crossed⟩ := parts.each e member
      exact crossed.decided
    refine ⟨⟨b, isBody⟩, fun isNullable => ?_⟩
    have any := iff.1 (Except.ok.inj (isBody.symm.trans isNullable))
    exact (crosses_any parts enters ends any).trans ((crosses_single stops).trans (exit decides))

/-- What can match nothing, given rules that are crossed, is crossed. -/
theorem Laid.crossed (crossable : ∀ r, known.getD r false = true → net.Crossable r) {e : Element} {seg : Segment}
    {lo hi : Nat} (laid : net.Laid g rule e seg lo hi) : net.Crossed g known e seg := by
  have each {es : List Element} {segs : List Segment} {lo hi : Nat}
      (parts : Consecutive (fun e seg _ _ => net.Crossed g known e seg) es segs lo hi) :
      ∀ e ∈ es, g.Decided known e := by
    intro e member
    obtain ⟨_, _, _, crossed⟩ := parts.each e member
    exact crossed.decided
  refine laid.elim (P := fun e seg _ _ => net.Crossed g known e seg) ?_ ?_ ?_ ?_ ?_ ?_ ?_ ?_
  · intro e label lo labelled edge
    refine ⟨⟨_, labelled.nullable known⟩, fun isNullable => ?_⟩
    have silent : label.isEpsilon = true := Except.ok.inj ((labelled.nullable known).symm.trans isNullable)
    exact .free (t := ⟨lo + 1, label⟩) (by simp [edge]) silent labelled.plain (.stay _)
  · intro name precedence callee lo index edge
    refine ⟨⟨_, Grammar.nullable_rule index⟩, fun isNullable => ?_⟩
    obtain ⟨stop, stops, through⟩ :=
      crossable callee (Except.ok.inj ((Grammar.nullable_rule index).symm.trans isNullable))
    have leaves : ⟨net.ruleStart callee, .rule callee precedence (lo + 1)⟩ ∈ net.out lo := by simp [edge]
    exact .call leaves stops through (.stay _)
  · intro text lo right lexer spelled
    refine ⟨⟨_, rfl⟩, fun isNullable => ?_⟩
    have isEmpty : (g.isLexer && text.isEmpty) = true := Except.ok.inj isNullable
    rw [lexer, Bool.true_and, String.isEmpty_iff] at isEmpty
    subst isEmpty
    cases spelled
    exact .stay lo
  · intro lo edge
    exact ⟨⟨_, rfl⟩, fun _ => crosses_single edge⟩
  · intro es segs seg lo hi parts chained
    obtain ⟨b, isAll, iff⟩ := Grammar.nullableAll_ok (each parts)
    refine ⟨⟨b, isAll⟩, fun isNullable => ?_⟩
    have all := iff.1 (Except.ok.inj (isAll.symm.trans isNullable))
    exact chained.crosses (parts.imp fun e member _ _ _ crossed => crossed.crosses (all e member))
  · intro e seg lo hi part
    have same : g.nullable known (.alt [e]) = g.nullable known e := Grammar.nullableAny_single e
    exact ⟨by rw [Grammar.Decided, same]; exact part.decided, by rw [same]; exact part.crosses⟩
  · intro es segs lo mid _ parts enters ends
    obtain ⟨b, isAny, iff⟩ := Grammar.nullableAny_ok (each parts)
    refine ⟨⟨b, isAny⟩, fun isNullable => ?_⟩
    exact crosses_any parts enters ends (iff.1 (Except.ok.inj (isAny.symm.trans isNullable)))
  · intro q greedy body segs seg lo mid hi parts around
    exact around.crossed parts

/-! ## What is crossed can match nothing -/

/-- Only states that are not the end of a rule are left. -/
structure Quiet (net : Network) : Prop where
  inner : ∀ n, ∀ t ∈ net.out n, net.isStop n = false
  stop : ∀ r stop, net.ruleStop? r = some stop → net.isStop stop = true

theorem move_free {n : Nat} {t : Transition} (leaves : t ∈ net.out n) (silent : t.label.isEpsilon = true)
    (plain : ∀ r p follow, t.label ≠ .rule r p follow) : .free t.target ∈ net.moves n := by
  have same : t.move = .free t.target := by
    unfold Transition.move
    split
    · exact absurd (by assumption) (plain _ _ _)
    · rw [if_pos silent]
  rw [← same]
  exact List.mem_map_of_mem leaves

theorem Crosses.passes (quiet : net.Quiet) {n m : Nat} (crosses : net.Crosses n m) (isStop : net.isStop m = true) :
    net.Passes n := by
  induction crosses with
  | stay n => exact .stop isStop
  | free leaves silent plain rest ih => exact .free (quiet.inner _ _ leaves) (move_free leaves silent plain) (ih isStop)
  | call leaves stops through rest ihThrough ih =>
    exact .call (quiet.inner _ _ leaves) (List.mem_map_of_mem leaves) (ihThrough (quiet.stop _ _ stops)) (ih isStop)

theorem Crossing.glides (quiet : net.Quiet) {n m : Nat} (step : net.Crossing n m) : net.Glides net.Passes n m := by
  cases step with
  | free leaves silent plain => exact .free (quiet.inner _ _ leaves) (move_free leaves silent plain)
  | call leaves stops through =>
    exact .skip (quiet.inner _ _ leaves) (List.mem_map_of_mem leaves) (through.passes quiet (quiet.stop _ _ stops))

/-- The states from which the right end is reached are late. -/
theorem HasRank.crossed {passable : Nat → Prop} {nullable : Prop} {seg : Segment} {lo hi : Nat}
    (rank : net.HasRank passable nullable seg lo hi)
    (run : Relation.ReflTransGen (net.Glides passable) seg.left seg.right) : nullable := by
  obtain ⟨left, -, rank, late, ranking, isNullable⟩ := rank
  have isLate {n : Nat} (run : Relation.ReflTransGen (net.Glides passable) n seg.right) (low : lo ≤ n)
      (high : n < hi) : late n := by
    induction run using Relation.ReflTransGen.head_induction_on with
    | refl => exact ranking.ends _ (List.mem_singleton_self _)
    | @head n m step rest ih =>
      by_cases isEnd : n = seg.right
      · exact ranking.ends n (by simp [isEnd])
      · have stays := ranking.stays n m low high (by simpa using isEnd) step
        exact ranking.back n m low high (by simpa using isEnd) step (ih stays.1 stays.2)
  exact isNullable (isLate run left.1 left.2)

namespace LaidOut

theorem ruleStop?_eq (laid : net.LaidOut g) {r : Nat} (inside : r < g.rules.length) :
    net.ruleStop? r = some (2 * r + 1) := by
  rw [ruleStop?, laid.ruleStops]
  simp [inside]

theorem quiet (laid : net.LaidOut g) : net.Quiet := by
  constructor
  · intro n t leaves
    rw [← Bool.not_eq_true]
    intro isStop
    rcases laid.out_cases leaves with ⟨i, r, seg, lo, hi, found, -, rfl, -⟩ | ⟨mode, inside, rfl, -⟩ |
      ⟨i, r, seg, lo, hi, -, body, low, high, -⟩
    · rw [laid.isStop_start (List.getElem?_eq_some_iff.1 found).1] at isStop
      cases isStop
    · rw [laid.isStop_entry inside] at isStop
      cases isStop
    · rw [isStop_of_inner (body.inner n low high)] at isStop
      cases isStop
  · intro r stop stops
    have inside : r < g.rules.length := by
      by_contra outside
      rw [ruleStop?, laid.ruleStops] at stops
      simp [outside] at stops
    rw [laid.ruleStop?_eq inside] at stops
    cases stops
    exact laid.isStop_stop inside

/-- A rule whose body is crossed is crossed. -/
theorem crossable (laid : net.LaidOut g) {i : Nat} {r : RuleDef} {seg : Segment} {lo hi : Nat}
    (found : g.rules[i]? = some r) (body : net.BodyAt g i r.body seg lo hi)
    (crosses : net.Crosses seg.left seg.right) : net.Crossable i := by
  have inside : i < g.rules.length := (List.getElem?_eq_some_iff.1 found).1
  refine ⟨2 * i + 1, laid.ruleStop?_eq inside, ?_⟩
  rw [laid.ruleStart_eq inside]
  exact (crosses_single body.starts).trans (crosses.trans (crosses_single body.stops))

end LaidOut

/-- From the end of a round a loop comes back to its start. -/
theorem Repeated.returns {q : Quantifier} {greedy : Bool} {segs : List Segment} {seg : Segment} {mid hi : Nat}
    (around : net.Repeated greedy segs mid q seg hi) (loops : q ≠ .optional) : net.Crosses (mid + 1) mid := by
  have again {n : Nat} {exit : List Transition} (decides : net.out n = inOrder greedy [.epsilon mid] exit) :
      net.Crosses n mid := by
    apply crosses_epsilon
    rw [decides]
    cases greedy <;> simp [inOrder]
  cases around with
  | optional enters ends => exact absurd rfl loops
  | star enters ends stops returns decides =>
    exact (crosses_single stops).trans ((crosses_single returns).trans (again decides))
  | plus enters ends stops decides => exact (crosses_single stops).trans (again decides)

/-! ## The check is exact -/

section Checked

variable (laid : net.LaidOut g) (marked : g.nullableRules = .ok known)
  (checked : ∀ r ∈ g.rules, g.checkLoops known r.name r.body = .ok ())

include laid marked

/-- Every marked rule is crossed, since the rules that were marked before it are. -/
theorem LaidOut.crossable_of_marked (i : Nat) (isMarked : known.getD i false = true) : net.Crossable i := by
  apply Grammar.nullableRules_induction marked _ isMarked
  intro i r known' found before isNullable
  obtain ⟨seg, lo, hi, body⟩ := laid.body i r found
  exact laid.crossable found body ((body.laid.crossed before).crosses isNullable)

include checked

theorem LaidOut.marked_of_start {i : Nat} (inside : i < g.rules.length) (passes : net.Passes (net.ruleStart i)) :
    known.getD i false = true :=
  (laid.marked_of_passes (Grammar.nullableRules_closed marked) checked passes).1 i inside (laid.ruleStart_eq inside)

theorem LaidOut.marked_iff_crossable {i : Nat} (inside : i < g.rules.length) :
    known.getD i false = true ↔ net.Crossable i := by
  constructor
  · exact laid.crossable_of_marked marked i
  · rintro ⟨stop, stops, crosses⟩
    exact laid.marked_of_start marked checked inside (crosses.passes laid.quiet (laid.quiet.stop i stop stops))

/-- Wherever a part of a rule lies, it can match nothing exactly if its right end is reached from its left end. -/
theorem LaidOut.nullable_iff_crosses {i : Nat} {r : RuleDef} {e : Element} {seg : Segment} {lo hi : Nat}
    (found : g.rules[i]? = some r) (part : e.Part r.body) (place : net.Laid g i e seg lo hi) :
    ∃ b, g.nullable known e = .ok b ∧ (b = true ↔ net.Crosses seg.left seg.right) := by
  have ranked := place.ranked (fun _ => laid.marked_of_start marked checked)
    (Grammar.checkLoops_part part (checked r (List.mem_of_getElem? found)))
  obtain ⟨b, decided⟩ := ranked.decided
  refine ⟨b, decided, ?_⟩
  constructor
  · rintro rfl
    exact (place.crossed (laid.crossable_of_marked marked)).crosses decided
  · intro crosses
    have run := (crosses_iff.1 crosses).lift id fun _ _ step => step.glides laid.quiet
    exact Except.ok.inj (decided.symm.trans (ranked.rank.crossed run))

theorem LaidOut.not_crossing_circle (n : Nat) : ¬ Relation.TransGen net.Crossing n n := by
  intro circle
  apply laid.circleFree (Grammar.nullableRules_closed marked) checked n
  exact circle.lift id fun _ _ step => step.glides laid.quiet

/-- A round that could be crossed would lead in a circle. -/
theorem LaidOut.not_crosses_round {i : Nat} {r : RuleDef} {q : Quantifier} {greedy : Bool} {body : Element}
    {segs : List Segment} {seg : Segment} {mid hi : Nat} (found : g.rules[i]? = some r)
    (part : Element.Part (.repeated q greedy body) r.body) (loops : q ≠ .optional)
    (around : net.Repeated greedy segs mid q seg hi) :
    g.nullable known body = .ok false ∧ ¬ net.Crosses mid (mid + 1) := by
  have checked' := Grammar.checkLoops_part part (checked r (List.mem_of_getElem? found))
  constructor
  · exact (Grammar.checkLoops_repeated checked').2 loops
  · intro crosses
    rcases Relation.reflTransGen_iff_eq_or_transGen.1 (crosses_iff.1 crosses) with same | run
    · omega
    · exact laid.not_crossing_circle marked checked mid (run.trans_left (crosses_iff.1 (around.returns loops)))

end Checked

/-- What the check of a grammar says of its elements holds of the network. -/
structure Exact (net : Network) (g : Grammar) (known : Array Bool) : Prop where
  size : known.size = g.rules.length
  /-- The body of a rule can match nothing, given the marks, exactly if the rule is marked. -/
  fixed : ∀ i r, g.rules[i]? = some r → g.nullable known r.body = .ok (known.getD i false)
  /-- Other marks that are fixed in this way, or that are only closed under the bodies, mark no fewer rules. -/
  least : ∀ other, g.MarksClosed other → ∀ i, known.getD i false = true → other.getD i false = true
  /-- A rule is marked exactly if its stop is reached from its start. -/
  rule : ∀ i < g.rules.length, known.getD i false = true ↔ net.Crossable i
  /-- The parts of the rules lie in the network. -/
  placed : ∀ i r e, g.rules[i]? = some r → e.Part r.body → ∃ seg lo hi, net.Laid g i e seg lo hi
  element : ∀ i r e seg lo hi, g.rules[i]? = some r → e.Part r.body → net.Laid g i e seg lo hi →
    ∃ b, g.nullable known e = .ok b ∧ (b = true ↔ net.Crosses seg.left seg.right)
  /-- The rounds of a loop lie in a block of its own, from `mid` to `mid + 1`. They cannot match nothing, and the end
  of the block is not reached from its start. -/
  round : ∀ i r q greedy body segs seg lo mid hi, g.rules[i]? = some r →
    Element.Part (.repeated q greedy body) r.body → q ≠ .optional →
    Consecutive (net.Laid g i) body.branches segs lo mid → net.Repeated greedy segs mid q seg hi →
    g.nullable known body = .ok false ∧ ¬ net.Crosses mid (mid + 1)
  /-- No crossings lead back to where they began. -/
  circleFree : ∀ n, ¬ Relation.TransGen net.Crossing n n

theorem LaidOut.exact (laid : net.LaidOut g) (marked : g.nullableRules = .ok known)
    (checked : ∀ r ∈ g.rules, g.checkLoops known r.name r.body = .ok ()) : net.Exact g known where
  size := Grammar.nullableRules_size marked
  fixed _ _ := Grammar.nullable_body laid marked
  least _ := Grammar.nullableRules_le laid marked
  rule _ := laid.marked_iff_crossable marked checked
  placed i r e found part := by
    obtain ⟨seg, lo, hi, body⟩ := laid.body i r found
    exact body.laid.part part
  element _ _ _ _ _ _ := laid.nullable_iff_crosses marked checked
  round _ _ _ _ _ _ _ _ _ _ found part loops _ around := laid.not_crosses_round marked checked found part loops around
  circleFree := laid.not_crossing_circle marked checked

end Network

/-- For every grammar that is compiled, the check of the loops is exact on the network that is laid out. -/
theorem Grammar.compile_nullable {g : Grammar} {compiled : CompiledGrammar} (assembled : g.Assembled)
    (run : g.compile = .ok compiled) :
    ∃ known net, g.nullableRules = .ok known ∧ g.layOut = .ok net ∧ net.Exact g known := by
  obtain ⟨known, net, marked, checked, layOut, -, -⟩ := Grammar.compile_steps run
  exact ⟨known, net, marked, layOut, (Grammar.layOut_laidOut assembled.moded layOut).exact marked checked⟩

/-- Two rules that call each other and loops within each other. -/
def mutualRules : Grammar :=
  ((Grammar.parser "Mutual" {}).rule "a" (.seq [.opt (.ref "b"), .star (.alt [.plus (.symbol 1), .symbol 2])])).rule "b"
    (.alt [.seq [.ref "a", .symbol 3], .pred 0])

theorem Grammar.compile_nullable_mutual : ∃ compiled, mutualRules.compile = .ok compiled ∧
    ∃ known net, mutualRules.nullableRules = .ok known ∧ mutualRules.layOut = .ok net ∧
      net.Exact mutualRules known := by
  have assembled : mutualRules.Assembled := .rule "b" _ (.rule "a" _ (.parser "Mutual" _))
  have compiles : mutualRules.compile.toOption.isSome = true := by decide +kernel
  obtain ⟨compiled, run⟩ := Option.isSome_iff_exists.1 compiles
  have run' := except_ok_of_some run
  exact ⟨compiled, run', Grammar.compile_nullable assembled run'⟩

end AdaptiveLL
