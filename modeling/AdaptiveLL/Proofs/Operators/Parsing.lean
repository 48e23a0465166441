import AdaptiveLL.Proofs.Operators.Compiling
import AdaptiveLL.Proofs.Operators.Glancing
import AdaptiveLL.Proofs.Parser.Stepping

/-!
# Parses of expressions

A parser reads an expression as precedence climbing does. Where a call of the rule of expressions has read an
operand, it goes round the loop for each operator that binds as tightly as the call asks, and calls the rule for
the right operand (`loop_advances`). The turns are counted along what precedence climbing reads: sixteen for
each operator. So the tree that it builds is the expression that precedence climbing builds
(`parse_climbs`).
-/

set_option autoImplicit false

namespace AdaptiveLL.Operators

open Prediction Network Layout Session AdaptiveLL.Parser

variable {η : Type} {net : Network} {v : Sites} {primary : Int} {ops : List Infix} {fuel : Nat} {tape : TokenTape}
  {K : DfaCache → Prop} {place : Nat} {q : Int}

/-! ## Predictions -/

/-- What is predicted at the two decisions, as long as `K` holds of what was learned. -/
structure Answers (η : Type) (net : Network) (v : Sites) (ops : List Infix) (fuel : Nat) (tape : TokenTape)
    (K : DfaCache → Prop) : Prop where
  entry : ∀ d, Decides net v.entry d → ∀ place q,
    (tape.typeAt place = endOfInput ∨ ∃ op ∈ ops, op.type = tape.typeAt place) →
    Predicts η net fuel tape K place d q (loopPlace v ops q (tape.typeAt place)).alt
  block : ∀ d, Decides net v.block d → ∀ place q, ∀ op ∈ ops, op.type = tape.typeAt place →
    q ≤ (v.count : Int) - rank ops op.type → Predicts η net fuel tape K place d q (rank ops op.type + 1)

theorem enough_block {k : Nat} (enough : 12 * k + 22 ≤ fuel) : 6 ≤ fuel := by omega

/-- What was learned at the two decisions is right. -/
def Learned (η : Type) (x : Expressive net v primary ops) (tokens : Tokens primary ops)
    (enough : 12 * (net.out (2 * v.expr + 1)).length + 22 ≤ fuel) (c : DfaCache) : Prop :=
  (∀ d (decides : Decides net v.entry d), d < c.dfas.size ∧
    (c.dfa d).Settled (x.loopSettling (η := η) tokens decides enough)) ∧
  ∀ d (decides : Decides net v.block d), d < c.dfas.size ∧
    (c.dfa d).Settled (x.blockSettling (η := η) tokens decides (enough_block enough))

theorem Decides.unique {n d d' : Nat} (decides : Decides net n d) (decides' : Decides net n d') : d = d' :=
  Option.some.inj (decides.2.1.symm.trans decides'.2.1)

theorem Decides.site {n n' d : Nat} (decides : Decides net n d) (decides' : Decides net n' d) : n = n' :=
  Option.some.inj (decides.1.symm.trans decides'.1)

namespace Expressive

theorem block_ne_entry (v : Sites) : v.block ≠ v.entry := by
  unfold Sites.entry
  omega

theorem answers (x : Expressive net v primary ops) (tokens : Tokens primary ops)
    (enough : 12 * (net.out (2 * v.expr + 1)).length + 22 ≤ fuel) (long : tape.body.length < fuel) :
    Answers η net v ops fuel tape (Learned η x tokens enough) := by
  constructor
  · intro d decides place q asked s evaluator callStack known views compares
    have settled : s.Settled (x.loopSettling (η := η) tokens decides enough) :=
      ⟨(known.1 d decides).1, (known.1 d decides).2⟩
    refine (Simulator.predict_settles settled compares views long asked (fun h => ?_) callStack).imp
      fun r s' ⟨ok, learns, views'⟩ => ⟨ok, ⟨fun d' decides' => ?_, fun d' decides' => ?_⟩, views'⟩
    · have always : (loopPlace v ops q (tape.typeAt place)).guard = .always := by
        unfold loopPlace
        split <;> rfl
      change ((loopPlace v ops q (tape.typeAt place)).guard.eval evaluator).run h = (true, h)
      rw [always]
      rfl
    · obtain rfl := decides.unique decides'
      exact ⟨learns.settled.inside, learns.settled.dfa⟩
    · have other : d' ≠ d := fun same => block_ne_entry v ((same ▸ decides').site decides)
      obtain ⟨inside, right⟩ := known.2 d' decides'
      exact ⟨learns.size ▸ inside, by rw [learns.others d' other]; exact right⟩
  · intro d decides place q op member type tight s evaluator callStack known views compares
    have settled : s.Settled (x.blockSettling (η := η) tokens decides (enough_block enough)) :=
      ⟨(known.2 d decides).1, (known.2 d decides).2⟩
    have settles := Simulator.predict_settles settled compares views long ⟨op, member, type⟩ (fun h => ?_) callStack
    · refine settles.imp fun r s' ⟨ok, learns, views'⟩ => ⟨?_, ⟨fun d' decides' => ?_, fun d' decides' => ?_⟩, views'⟩
      · rw [ok]
        change Except.ok (blockPlace v ops (tape.typeAt place)).alt = _
        rw [← type]
        rfl
      · have other : d' ≠ d := fun same => block_ne_entry v (decides.site (same ▸ decides'))
        obtain ⟨inside, right⟩ := known.1 d' decides'
        exact ⟨learns.size ▸ inside, by rw [learns.others d' other]; exact right⟩
      · obtain rfl := decides.unique decides'
        exact ⟨learns.settled.inside, learns.settled.dfa⟩
    · change ((blockPlace v ops (tape.typeAt place)).guard.eval evaluator).run h = (true, h)
      rw [← type]
      change evaluator.precedence ((v.count : Int) - rank ops op.type) h = (true, h)
      rw [compares, decide_eq_true tight]

/-- Before anything was learned, what was learned is right. -/
theorem learned_fresh (x : Expressive net v primary ops) (tokens : Tokens primary ops)
    (enough : 12 * (net.out (2 * v.expr + 1)).length + 22 ≤ fuel) : Learned η x tokens enough (.ofNetwork net) := by
  refine ⟨fun d decides => DfaCache.settled_fresh (σ := x.loopSettling tokens decides enough) x.parser decides.1
    ((x.loop _).2 rfl), fun d decides => DfaCache.settled_fresh
      (σ := x.blockSettling tokens decides (enough_block enough)) x.parser decides.1 ?_⟩
  exact Bool.eq_false_iff.2 fun loops => block_ne_entry v ((x.loop _).1 loops)

end Expressive

/-! ## Trees of expressions -/

/-- The subtree is that of the expression, with a node of the rule for each operand and each operator. -/
inductive Draws (rule : Nat) : Expr → Subtree → Prop
  | primary {id leaf : Nat} {t : Token} : Draws rule (.primary t) (.rule id rule [.token leaf t])
  | binary {id leaf : Nat} {l r : Expr} {o : Token} {L R : Subtree} (left : Draws rule l L) (right : Draws rule r R) :
    Draws rule (.binary l o r) (.rule id rule [L, .token leaf o, R])

/-- The tokens of steps. -/
def tokensOf (steps : List Step) : List Token := steps.flatMap fun step => [step.1, step.2]

/-- The steps are made of operators of the table and of primaries. -/
def Written (primary : Int) (ops : List Infix) (steps : List Step) : Prop :=
  ∀ step ∈ steps, (∃ op ∈ ops, op.type = step.1.type) ∧ step.2.type = primary

theorem level_eq (ops : List Infix) (o : Token) : level ops o = (ops.length : Int) - rank ops o.type := rfl

theorem next_eq {ops : List Infix} {i : Nat} {op : Infix} {o : Token} (distinct : (ops.map (·.type)).Nodup)
    (found : ops[i]? = some op) (type : op.type = o.type) :
    next ops o = nextOf op.assoc ((ops.length : Int) - i) := by
  have isRank : ops.findIdx (·.type == o.type) = i := type ▸ rank_eq distinct found
  have assoc : assocOf ops o = op.assoc := by
    rw [assocOf, isRank, found]
    rfl
  have isLevel : level ops o = (ops.length : Int) - i := by rw [level, isRank]
  cases grouped : op.assoc <;> simp only [next, nextOf, assoc, grouped, isLevel]

/-- Precedence climbing reads all steps, since the loosest operator has level 1. -/
theorem Written.climbs {primary : Int} {ops : List Infix} {steps : List Step} (written : Written primary ops steps)
    (t : Token) : Climbs ops 0 (.primary t) steps (climb ops 0 (.primary t) steps).1.1 [] := by
  have all : (climb ops 0 (.primary t) steps).1.2 = [] := by
    refine climb_all (fun step among => ?_) _
    obtain ⟨op, member, type⟩ := (written step among).1
    have known := rank_lt member
    rw [level_eq, ← type]
    omega
  exact all ▸ climbs_climb ops 0 (.primary t) steps

/-! ## Turns -/

variable {state n follow root : Nat} {levels : List Int} {frames rest : List Frame} {f g : Frame} {p : Parser η}
  {leftRecursive : Bool} {o t : Token} {steps left : List Step} {e whole : Expr}

namespace Expressive

/-- Only the loop has several ways to go on that wrap what was built. -/
theorem plain (x : Expressive net v primary ops) {t : Transition} (out : net.out n = [t]) :
    (net.state n).kind.isPrecedenceLoop = false := by
  refine Bool.eq_false_iff.2 fun loops => ?_
  obtain rfl := (x.loop n).1 loops
  rw [x.entry_out] at out
  cases (List.cons.inj out).2

theorem passes (x : Expressive net v primary ops) (poised : Poised net fuel tape K state levels frames place p)
    (inner : net.isStop state = false) (out : net.out state = [.epsilon n]) :
    Reaches (turn fuel root leftRecursive) p fun r p' => r = none ∧ Poised net fuel tape K n levels frames place p' :=
  poised.passes inner out (x.plain out)

theorem calls (x : Expressive net v primary ops) (poised : Poised net fuel tape K state levels (f :: rest) place p)
    (long : tape.body.length < fuel) (inner : net.isStop state = false) {b : Int}
    (out : net.out state = [⟨net.ruleStart v.expr, .rule v.expr b follow⟩]) :
    Reaches (turn fuel root leftRecursive) p fun result p' => result = none ∧ ∃ id,
      Poised net fuel tape K (2 * v.expr) (b :: levels)
        ({ id, rule := v.expr, invoking := some state, recursive := true } :: f :: rest) place p' := by
  rw [x.ruleStart _ x.knownExpr] at out
  exact poised.calls long inner (x.walkable.number state) out x.recursiveExpr

theorem comesBack (x : Expressive net v primary ops)
    (poised : Poised net fuel tape K (2 * v.expr + 1) (q :: levels) (f :: g :: rest) place p)
    (long : tape.body.length < fuel) (recursive : f.recursive = true) {s target : Nat} {b : Int}
    (invoking : f.invoking = some s) (out : net.out s = [⟨target, .rule v.expr b follow⟩]) :
    Reaches (turn fuel root leftRecursive) p fun result p' =>
      result = none ∧ Poised net fuel tape K follow levels (g.add f.finished :: rest) place p' := by
  obtain ⟨stop, owner⟩ := x.stop v.expr x.knownExpr
  refine poised.returns long stop owner ?_ recursive invoking ?_
  · rw [x.ruleStart _ x.knownExpr]
    exact x.recursiveExpr
  · rw [Network.follow?, State.follow?, show (net.state s).transitions = _ from out]

/-- The block leads to the tail of the operator. -/
theorem block_turn (x : Expressive net v primary ops)
    (answers : Answers η net v ops fuel tape K) (long : tape.body.length < fuel)
    (poised : Poised net fuel tape K v.block (q :: levels) frames place p) {op : Infix} (member : op ∈ ops)
    (type : op.type = tape.typeAt place) (tight : q ≤ (v.count : Int) - rank ops op.type) :
    Reaches (turn fuel root leftRecursive) p fun r p' => r = none ∧
      Poised net fuel tape K (v.tail (rank ops op.type)) (q :: levels) frames place p' := by
  have block := v.block_eq
  have known : rank ops op.type < v.count := x.count ▸ rank_lt member
  have inner : net.isStop v.block = false := x.inner (by omega) (by omega)
  have plain : (net.state v.block).kind.isPrecedenceLoop = false :=
    Bool.eq_false_iff.2 fun loops => block_ne_entry v ((x.loop _).1 loops)
  rcases Nat.lt_or_ge 1 v.count with several | one
  · obtain ⟨d, decides⟩ := x.blockDecides several
    refine poised.turn_choice long inner decides.2.1 decides.2.2 ?_ (.inl ?_)
      (answers.block d decides place q op member type tight) (t := .epsilon (v.tail (rank ops op.type))) ?_
      fun p₁ poised₁ => (poised₁.takes_free plain).imp fun _ _ poised' => poised'.goesTo _
    · rw [x.block_out, List.length_map, List.length_range]
      exact several
    · exact type ▸ x.nextTokens_block member
    · rw [x.block_out, Nat.add_sub_cancel, List.getElem?_map, List.getElem?_range known]
      rfl
  · have isOne : v.count = 1 := by omega
    have isFirst : rank ops op.type = 0 := by omega
    refine x.passes poised inner ?_
    rw [x.block_out, isOne, isFirst]
    rfl

/-- The loop leads on to the block where an operator binds tightly enough. -/
theorem entry_turn (x : Expressive net v primary ops) (answers : Answers η net v ops fuel tape K)
    (long : tape.body.length < fuel) (poised : Poised net fuel tape K v.entry (q :: levels) (f :: rest) place p)
    (recursive : f.recursive = true) {op : Infix} (member : op ∈ ops) (visible : 0 < op.type)
    (type : op.type = tape.typeAt place) (tight : q ≤ (v.count : Int) - rank ops op.type) :
    Reaches (turn fuel root leftRecursive) p fun r p' => r = none ∧ ∃ id,
      Poised net fuel tape K v.block (q :: levels) ({ f with id, done := [f.finished] } :: rest) place p' := by
  have block := v.block_eq
  have isEntry : v.entry = v.block + 2 := rfl
  obtain ⟨d, decides⟩ := x.entryDecides
  have predicts := answers.entry d decides place q (.inr ⟨op, member, type⟩)
  have first : (loopPlace v ops q (tape.typeAt place)).alt = 1 := by
    unfold loopPlace
    rw [← type, if_neg (by unfold endOfInput; omega), if_pos tight]
  rw [first] at predicts
  refine poised.turn_choice long (x.inner (n := v.entry) (by omega) (by omega)) decides.2.1 decides.2.2
    (by rw [x.entry_out]; exact Nat.one_lt_two) (.inr x.nextTokens_entry) predicts (t := .epsilon v.block)
    (by rw [x.entry_out]; rfl) fun p₁ poised₁ => ?_
  exact (poised₁.takes_grow long ((x.loop _).2 rfl) x.blockKind recursive).imp fun _ _ ⟨id, poised'⟩ =>
    ⟨id, poised'.goesTo _⟩

/-- The loop ends where no operator binds tightly enough. -/
theorem exit_turn (x : Expressive net v primary ops) (answers : Answers η net v ops fuel tape K)
    (long : tape.body.length < fuel) (poised : Poised net fuel tape K v.entry (q :: levels) frames place p)
    (asked : tape.typeAt place = endOfInput ∨ ∃ op ∈ ops, op.type = tape.typeAt place)
    (looser : tape.typeAt place = endOfInput ∨ ¬ q ≤ (v.count : Int) - rank ops (tape.typeAt place)) :
    Reaches (turn fuel root leftRecursive) p fun r p' => r = none ∧
      Poised net fuel tape K v.exit (q :: levels) frames place p' := by
  have block := v.block_eq
  have isEntry : v.entry = v.block + 2 := rfl
  obtain ⟨d, decides⟩ := x.entryDecides
  have predicts := answers.entry d decides place q asked
  have second : (loopPlace v ops q (tape.typeAt place)).alt = 2 := by
    unfold loopPlace
    split
    · rfl
    · rename_i noEnd
      rw [if_neg (looser.resolve_left noEnd)]
  rw [second] at predicts
  refine poised.turn_choice long (x.inner (n := v.entry) (by omega) (by omega)) decides.2.1 decides.2.2
    (by rw [x.entry_out]; exact Nat.one_lt_two) (.inr x.nextTokens_entry) predicts (t := .epsilon v.exit)
    (by rw [x.entry_out]; rfl) fun p₁ poised₁ => ?_
  exact (poised₁.takes_leave x.exitKind).imp fun _ _ poised' => poised'.goesTo _

/-- The rule of expressions reads a primary and comes to its loop. -/
theorem operand_advances (x : Expressive net v primary ops) (long : tape.body.length < fuel)
    (poised : Poised net fuel tape K (2 * v.expr) levels (f :: rest) place p) (empty : f.done = [])
    (rule : f.rule = v.expr) {ts : List Token} (ahead : tape.Ahead place (t :: ts)) (type : t.type = primary) :
    Advances fuel root leftRecursive 3 (fun p' => ∃ f' next,
      Poised net fuel tape K v.entry levels (f' :: rest) next p' ∧ tape.Ahead next ts ∧ f'.recursive = f.recursive ∧ f'.rule = v.expr ∧ f'.invoking = f.invoking ∧
      Draws v.expr (.primary t) f'.finished) p := by
  have block := v.block_eq
  refine .next (x.passes poised (x.begin v.expr x.knownExpr) x.enterExpr) fun p₁ poised₁ => ?_
  refine .next (poised₁.reads long (x.inner (by omega) (by omega)) x.exprBody.primary ahead type)
    fun p₂ ⟨leaf, next, poised₂, ahead'⟩ => ?_
  have enters := x.exprBody.enters
  rw [← x.count] at enters
  refine .next (x.passes poised₂ (x.inner (by omega) (by omega)) enters) fun p₃ poised₃ =>
    ⟨_, next, poised₃, ahead', rfl, rule, rfl, ?_⟩
  rw [Frame.finished, Frame.add, rule, empty]
  exact .primary

/-- An operator that binds tightly enough is read, and the rule of expressions called for its right operand. -/
theorem operator_advances (x : Expressive net v primary ops) (tokens : Tokens primary ops)
    (answers : Answers η net v ops fuel tape K) (long : tape.body.length < fuel)
    (poised : Poised net fuel tape K v.entry (q :: levels) (f :: rest) place p) (recursive : f.recursive = true)
    {op : Infix} (member : op ∈ ops) (type : op.type = o.type) (tight : q ≤ (v.count : Int) - rank ops op.type)
    {ts : List Token} (ahead : tape.Ahead place (o :: ts)) :
    Advances fuel root leftRecursive 7 (fun p' => ∃ id leaf id' next, Poised net fuel tape K (2 * v.expr)
      (nextOf op.assoc ((v.count : Int) - rank ops op.type) :: q :: levels)
      ({ id := id', rule := v.expr, invoking := some (v.tail (rank ops op.type) + 4), recursive := true } ::
        { f with id, done := [f.finished, .token leaf o] } :: rest) next p' ∧ tape.Ahead next ts) p := by
  have known : rank ops op.type < v.count := x.count ▸ rank_lt member
  obtain ⟨op', found, tail⟩ := x.tail known
  obtain ⟨i, here⟩ := List.mem_iff_getElem?.1 member
  rw [rank_eq tokens.distinct here, here] at found
  obtain rfl := Option.some.inj found
  have typeAt : op.type = tape.typeAt place := type.trans ahead.typeAt_first.symm
  refine .next (x.entry_turn answers long poised recursive member (tokens.visible.2 op member) typeAt tight)
    fun p₁ ⟨id, poised₁⟩ => ?_
  refine .next (x.block_turn answers long poised₁ member typeAt tight) fun p₂ poised₂ => ?_
  refine .next (poised₂.guards (x.tail_inner known (j := 0) (by omega)) tail.guard tight) fun p₃ poised₃ => ?_
  refine .next (x.passes poised₃ (x.tail_inner known (by omega)) tail.guarded) fun p₄ poised₄ => ?_
  refine .next (poised₄.reads long (x.tail_inner known (by omega)) tail.token ahead type.symm)
    fun p₅ ⟨leaf, next, poised₅, ahead'⟩ => ?_
  refine .next (x.passes poised₅ (x.tail_inner known (by omega)) tail.matched) fun p₆ poised₆ => ?_
  refine .next (x.calls poised₆ long (x.tail_inner known (by omega)) tail.operand) fun p₇ ⟨id', poised₇⟩ => ?_
  exact ⟨id, leaf, id', next, poised₇, ahead'⟩

/-- The right operand of an operator is complete, and the loop goes on. -/
theorem back_advances (x : Expressive net v primary ops) (long : tape.body.length < fuel) {i : Nat}
    (inside : i < v.count) (poised : Poised net fuel tape K (2 * v.expr + 1) (q :: levels) (f :: g :: rest) place p)
    (recursive : f.recursive = true) (invoking : f.invoking = some (v.tail i + 4)) :
    Advances fuel root leftRecursive 4
      (Poised net fuel tape K v.entry levels (g.add f.finished :: rest) place) p := by
  obtain ⟨op, -, tail⟩ := x.tail inside
  have block := v.block_eq
  refine .next (x.comesBack poised long recursive invoking tail.operand) fun p₁ poised₁ => ?_
  refine .next (x.passes poised₁ (x.tail_inner inside (by omega)) (x.tail_end inside)) fun p₂ poised₂ => ?_
  refine .next (x.passes poised₂ (x.inner (by omega) (by omega)) x.block_end) fun p₃ poised₃ => ?_
  exact .next (x.passes poised₃ (x.inner (by omega) (by omega)) x.loop_back) fun p₄ poised₄ => poised₄

/-- From its loop on, the rule of expressions reads what precedence climbing reads, and builds the same
expression. -/
theorem loop_advances (x : Expressive net v primary ops) (tokens : Tokens primary ops)
    (answers : Answers η net v ops fuel tape K) (long : tape.body.length < fuel)
    (climbs : Climbs ops q e steps whole left) (written : Written primary ops steps) {k : Nat}
    (count : steps.length = left.length + k)
    (poised : Poised net fuel tape K v.entry (q :: levels) (f :: rest) place p)
    (ahead : tape.Ahead place (tokensOf steps)) (recursive : f.recursive = true) (rule : f.rule = v.expr)
    (draws : Draws v.expr e f.finished) :
    Advances fuel root leftRecursive (16 * k + 2) (fun p' => ∃ f' next,
      Poised net fuel tape K (2 * v.expr + 1) (q :: levels) (f' :: rest) next p' ∧ tape.Ahead next (tokensOf left) ∧
      f'.recursive = true ∧ f'.invoking = f.invoking ∧ Draws v.expr whole f'.finished) p := by
  have block := v.block_eq
  have isExit : v.exit = v.block + 4 := rfl
  induction climbs generalizing k levels f rest place p with
  | @finish q e steps looser =>
    obtain rfl : k = 0 := by omega
    -- The next token is an operator that is too loose, or the end of the input.
    have next : tape.typeAt place = endOfInput ∨
        (∃ op ∈ ops, op.type = tape.typeAt place) ∧ ¬ q ≤ (v.count : Int) - rank ops (tape.typeAt place) := by
      cases steps with
      | nil => exact .inl ahead.typeAt_last
      | cons step steps =>
        have here : tape.typeAt place = step.1.type := ahead.typeAt_first
        have below := looser step rfl
        rw [level_eq, ← x.count] at below
        rw [here]
        exact .inr ⟨(written step List.mem_cons_self).1, Int.not_le.2 below⟩
    refine .next (x.exit_turn answers long poised (next.imp id And.left) (next.imp id And.right)) fun p₁ poised₁ => ?_
    exact .next (x.passes poised₁ (x.inner (n := v.exit) (by omega) (by omega)) x.leaveExpr) fun p₂ poised₂ =>
      ⟨f, place, poised₂, ahead, recursive, rfl, draws⟩
  | @grow q e right whole o t steps left left' tight inner outer insideOf around =>
    obtain ⟨⟨op, member, type⟩, isPrimary⟩ := written (o, t) List.mem_cons_self
    have written' : Written primary ops steps := fun step among => written step (List.mem_cons_of_mem _ among)
    have known : rank ops op.type < v.count := x.count ▸ rank_lt member
    obtain ⟨i, found⟩ := List.mem_iff_getElem?.1 member
    have isRank : rank ops op.type = i := rank_eq tokens.distinct found
    have tight' : q ≤ (v.count : Int) - rank ops op.type := by
      rw [type, x.count]
      exact tight
    -- The tokens of the steps are read by the calls for the right operand and by the rest of the loop.
    obtain ⟨k₁, count₁⟩ := Nat.exists_eq_add_of_le inner.suffix.length_le
    obtain ⟨k₂, count₂⟩ := Nat.exists_eq_add_of_le outer.suffix.length_le
    have whole' : 16 * k + 2 = 7 + (3 + ((16 * k₁ + 2) + (4 + (16 * k₂ + 2)))) := by
      rw [List.length_cons] at count
      omega
    rw [whole']
    refine (x.operator_advances tokens answers long poised recursive member type tight' ahead).trans
      fun p₁ ⟨id, leaf, id', next₁, poised₁, ahead₁⟩ => ?_
    refine (x.operand_advances long poised₁ rfl rfl ahead₁ isPrimary).trans
      fun p₂ ⟨g, next₂, poised₂, ahead₂, recursive₂, rule₂, invoking₂, draws₂⟩ => ?_
    have level : nextOf op.assoc ((v.count : Int) - rank ops op.type) = next ops o := by
      rw [next_eq tokens.distinct found type, isRank, x.count]
    rw [level] at poised₂
    refine (insideOf written' count₁ poised₂ ahead₂ recursive₂ rule₂ draws₂).trans
      fun p₃ ⟨g', next₃, poised₃, ahead₃, recursive₃, invoking₃, draws₃⟩ => ?_
    refine (x.back_advances long known poised₃ recursive₃ (invoking₃.trans invoking₂)).trans fun p₄ poised₄ => ?_
    refine (around (fun step among => written' step (inner.suffix.mem among)) count₂ poised₄ ahead₃ recursive rule
      ?_).imp fun _ holds => holds
    rw [Frame.finished, Frame.add]
    change Draws v.expr (.binary e o right) (.rule id f.rule [f.finished, .token leaf o, g'.finished])
    rw [rule]
    exact .binary draws draws₃

/-- The start rule reads an expression and the end of the input, and comes to its end. -/
theorem start_advances (x : Expressive net v primary ops) (tokens : Tokens primary ops)
    (answers : Answers η net v ops fuel tape K) (long : tape.body.length < fuel) {first : Token}
    (type : first.type = primary) (written : Written primary ops steps)
    (poised : Poised net fuel tape K (2 * v.start) levels [f] place p) (empty : f.done = [])
    (ahead : tape.Ahead place (first :: tokensOf steps)) :
    Advances fuel root leftRecursive (16 * steps.length + 11) (fun p' => ∃ leaf T next,
      Poised net fuel tape K (2 * v.start + 1) levels [{ f with done := [T, .token leaf tape.last] }] next p' ∧
      Draws v.expr (climb ops 0 (.primary first) steps).1.1 T) p := by
  have climbs := written.climbs first
  have count : 16 * steps.length + 11 = 3 + ((16 * steps.length + 2) + 4) + 2 := by omega
  rw [count]
  refine .next (x.passes poised (x.begin v.start x.knownStart) x.enterStart) fun p₁ poised₁ => ?_
  refine .next (x.calls poised₁ long (x.insideStart _ (by omega) (by omega)).1 x.startBody.call)
    fun p₂ ⟨id, poised₂⟩ => ?_
  refine (x.operand_advances long poised₂ rfl rfl ahead type).trans
    fun p₃ ⟨g, next₁, poised₃, ahead₁, recursive, rule, invoking, draws⟩ => ?_
  refine (x.loop_advances tokens answers long climbs written (Nat.zero_add _).symm poised₃ ahead₁ recursive rule
    draws).trans fun p₄ ⟨g', next₂, poised₄, ahead₂, recursive', invoking', draws'⟩ => ?_
  refine .next (x.comesBack poised₄ long recursive' (invoking'.trans invoking) x.startBody.call) fun p₅ poised₅ => ?_
  refine .next (x.passes poised₅ (x.insideStart _ (by omega) (by omega)).1 x.startBody.called) fun p₆ poised₆ => ?_
  refine .next (poised₆.readsEnd long x.call_inner x.startBody.last ahead₂) fun p₇ ⟨leaf, poised₇⟩ => ?_
  refine .next (x.passes poised₇ (x.insideStart _ (by omega) (by omega)).1 x.leaveStart) fun p₈ poised₈ => ?_
  refine ⟨leaf, g'.finished, next₂, ?_, draws'⟩
  rw [Frame.add, Frame.add, empty] at poised₈
  exact poised₈

end Expressive

theorem logParse_reaches (rule : Nat) (p : Parser η) :
    Reaches (logParse rule) p fun _ p' => p'.tree = p.tree ∧ p'.syntaxErrors = p.syntaxErrors :=
  fun _ => ⟨_, _, _, rfl, rfl, rfl⟩

/-- A parser reads an expression as precedence climbing does, in every mode of prediction: without a syntax error,
and its tree is that of the expression which precedence climbing builds. Each operator of that expression is grouped
by its precedence, and uses of one operator to the side that it declares. -/
theorem parse_climbs {g : Grammar} {s e : Nat} {expr : String} {primary : Element} {table : List (Element × Infix)}
    {type : Int} {compiled : CompiledGrammar} {verify : Bool} (described : Describes g s e expr primary table)
    (named : Names g primary type) (names : ∀ o ∈ table, Names g o.1 o.2.type)
    (tokens : Tokens type (table.map (·.2))) (representable : g.Representable) (run : g.compile = .ok compiled)
    (decoded : Network.decode compiled.words verify = .ok net) {source : TokenSource η}
    (delivers : ∃ enough, ∀ fuel ≥ enough, source.Delivers fuel (tape.body ++ [tape.eof])) {first : Token}
    (isPrimary : first.type = type) (written : Written type (table.map (·.2)) steps)
    (shown : tape.shown = first :: tokensOf steps) :
    ∃ enough, ∀ fuel ≥ enough, ∀ p : Parser η, p.net = net → p.buildTrees = true →
      p.sim.cache = .ofNetwork net → p.sim.stream = { source, channel := tape.channel } →
      Reaches (parse fuel s) p fun result p' => p'.syntaxErrors = 0 ∧ ∃ whole id leaf T,
        result = .ok id ∧ p'.tree.Holds none (.rule id s [T, .token leaf tape.last]) ∧ Draws e whole T ∧
        whole = (climb (table.map (·.2)) 0 (.primary first) steps).1.1 ∧
        whole.Grouped (table.map (·.2)) ∧ whole.first = first ∧ whole.rest = steps := by
  obtain ⟨call, operand, x⟩ := compile_expressive described named names representable run decoded
  obtain ⟨enough, delivers⟩ := delivers
  refine ⟨enough + 12 * (net.out (2 * e + 1)).length + tape.body.length + 16 * steps.length + 22,
    fun fuel more p onNet trees fresh stream => ?_⟩
  have ample : 12 * (net.out (2 * e + 1)).length + 22 ≤ fuel := by omega
  have long : tape.body.length < fuel := by omega
  have views : p.stream.Views fuel tape none := by
    rw [Parser.stream, stream]
    exact .fresh (delivers fuel (by omega))
  have known : Learned η x tokens ample p.sim.cache := fresh ▸ x.learned_fresh tokens ample
  have begins : net.ruleStart s = 2 * s := x.ruleStart s x.knownStart
  have plain : isLeftRecursive net s = false := by
    rw [isLeftRecursive, begins]
    exact x.plainStart
  rw [parse_eq]
  refine .get_bind ?_
  rw [onNet, if_neg (by rw [x.numRules]; exact Nat.not_le.2 x.knownStart), plain]
  refine (opening_poised onNet trees views known long plain).bind ?_
  rintro root p₁ ⟨isRoot, poised⟩
  subst isRoot
  rw [begins] at poised
  refine ((x.start_advances tokens (x.answers tokens ample long) long isPrimary written poised rfl
    (shown ▸ tape.ahead_shown)).walk (by omega) ?_).bind
    (P := fun result p₂ => result = .ok 0 ∧ p₂.syntaxErrors = 0 ∧ ∃ leaf T,
      p₂.tree.Holds none (.rule 0 s [T, .token leaf tape.last]) ∧
        Draws e (climb (table.map (·.2)) 0 (.primary first) steps).1.1 T) fun result p₂ holds => ?_
  · rintro p₂ ⟨leaf, T, next, poised₂, draws⟩
    refine (poised₂.finishes long (x.stop s x.knownStart).1 rfl).imp ?_
    rintro result p₃ ⟨isRoot, standing, clean⟩
    exact ⟨_, isRoot, rfl, clean, leaf, T, standing.holds.1, draws⟩
  · obtain ⟨rfl, clean, leaf, T, holds, draws⟩ := holds
    have whole := (written.climbs first).tokens
    rw [List.append_nil] at whole
    refine (logParse_reaches s p₂).bind ?_
    rintro _ p₃ ⟨tree, errors⟩
    exact .pure ⟨errors.trans clean, _, 0, leaf, T, rfl, tree ▸ holds, draws, rfl, climb_grouped _ _ _ _, whole⟩

/-- Powers, which group to the right, and products and sums, which group to the left. -/
def sums : Grammar :=
  (Grammar.parser "Sums" { literalNames := [none, some "'n'", some "'^'", some "'*'", some "'+'"] })
    |>.rule "all" (.seq [.rule "sum" 0, .eof])
    |>.leftRecursive "sum" [.literal "n"]
      [.binary (.literal "^") .right, .binary (.literal "*") .left, .binary (.literal "+") .left]

/-- The operators of `sums`. -/
def sumTable : List (Element × Infix) :=
  [(.literal "^", ⟨2, .right⟩), (.literal "*", ⟨3, .left⟩), (.literal "+", ⟨4, .left⟩)]

/-- A token of `sums`. -/
def sumToken (type : Int) (index : Option Nat) : Token where
  type
  channel := defaultChannel
  start := 0
  stop := 0
  line := 1
  column := 0
  index
  text := none

/-- The tokens of `n + n ^ n ^ n * n + n`. -/
def sumList : TokenList where
  tokens := ([1, 4, 1, 2, 1, 2, 1, 3, 1, 4, 1].map (sumToken · none)).toArray

/-- The tape of `sumList`. -/
def sumTape : TokenTape where
  body := sumList.tokens.toList
  eof := sumList.eof
  channel := defaultChannel
  inner := by decide
  ends := by decide

/-- A parser of `sumList`. -/
def sumParser (net : Network) (mode : PredictionMode) : Parser Unit where
  net
  info := sums.info
  hooks := .silent
  sim := { cache := .ofNetwork net, mode, stream := { source := .list sumList () } }

/-- A place of the tape, as a token. -/
def sumAt (type : Int) (place : Nat) : Token := sumToken type (some place)

/-- The operand at a place of the tape. -/
def sumOperand (place : Nat) : Expr := .primary (sumAt 1 place)

/-- The expression `(n + ((n ^ (n ^ n)) * n)) + n`. -/
def sumExpr : Expr :=
  .binary
    (.binary (sumOperand 0) (sumAt 4 1)
      (.binary
        (.binary (sumOperand 2) (sumAt 2 3) (.binary (sumOperand 4) (sumAt 2 5) (sumOperand 6)))
        (sumAt 3 7) (sumOperand 8)))
    (sumAt 4 9) (sumOperand 10)

theorem sums_representable : sums.Representable := by
  intro r member e leaf
  rcases List.mem_cons.1 member with rfl | member
  · simp only [Element.leaves, Element.leavesAll, List.append_nil, List.cons_append, List.nil_append,
      List.mem_cons, List.not_mem_nil, or_false] at leaf
    rcases leaf with rfl | rfl <;> simp [Element.Representable]
  · obtain rfl := List.mem_singleton.1 member
    simp only [Element.leaves, Element.leavesAll, Operator.body, Operator.tails, Operator.tail, List.zipIdx_cons,
      List.zipIdx_nil, List.map_cons, List.map_nil, Element.star, List.append_nil, List.cons_append,
      List.nil_append, List.mem_cons, List.not_mem_nil, or_false] at leaf
    rcases leaf with rfl | rfl | rfl | rfl | rfl | rfl | rfl | rfl | rfl | rfl <;> simp [Element.Representable]

/-- In every mode, `n + n ^ n ^ n * n + n` is read as `(n + ((n ^ (n ^ n)) * n)) + n`. -/
theorem parse_climbs_sum : ∃ net enough, (∃ compiled, sums.compile = .ok compiled ∧
    Network.decode compiled.words true = .ok net) ∧ ∀ fuel ≥ enough, ∀ mode,
      Reaches (parse fuel 0) (sumParser net mode) fun result p => p.syntaxErrors = 0 ∧ ∃ id leaf T,
        result = .ok id ∧ p.tree.Holds none (.rule id 0 [T, .token leaf sumTape.last]) ∧ Draws 1 sumExpr T := by
  have answer : (do
      let compiled ← sums.compile.toOption
      let net ← (Network.decode compiled.words true).toOption
      return net.numRules) = some 2 := by decide +kernel
  simp only [Option.bind_eq_bind, Option.bind_eq_some_iff] at answer
  obtain ⟨compiled, compiles, net, decodes, -⟩ := answer
  have described : Describes sums 0 1 "sum" (.literal "n") sumTable :=
    ⟨.leftRecursive _ _ _ (.rule _ _ (.parser _ _)), rfl, rfl, by decide, rfl, ⟨_, rfl, rfl, rfl⟩, ⟨_, rfl, rfl, rfl⟩⟩
  have names {text : String} {k : Nat} (known : sums.vocabulary.tokenType ("'" ++ text ++ "'") = some k) :
      Names sums (.literal text) k := .literal known
  have named : ∀ o ∈ sumTable, Names sums o.1 o.2.type := by
    intro o member
    simp only [sumTable, List.mem_cons, List.not_mem_nil, or_false] at member
    rcases member with rfl | rfl | rfl
    · exact names (k := 2) rfl
    · exact names (k := 3) rfl
    · exact names (k := 4) rfl
  have tokens : Tokens 1 (sumTable.map (·.2)) := ⟨by decide, by decide, by decide, by decide⟩
  have delivers : ∃ enough, ∀ fuel ≥ enough, (TokenSource.list sumList ()).Delivers fuel
      (sumTape.body ++ [sumTape.eof]) :=
    ⟨0, fun fuel _ => TokenSource.delivers_list sumList (by decide) () fuel⟩
  have written : Written 1 (sumTable.map (·.2)) sumExpr.rest := by
    unfold Written
    decide
  have isPrimary : sumExpr.first.type = 1 := rfl
  obtain ⟨enough, parses⟩ := parse_climbs described (names (k := 1) rfl) named tokens sums_representable
    (except_ok_of_some compiles) (except_ok_of_some decodes) delivers isPrimary written (by decide)
  refine ⟨net, enough, ⟨compiled, except_ok_of_some compiles, except_ok_of_some decodes⟩, fun fuel more mode => ?_⟩
  refine (parses fuel more (sumParser net mode) rfl rfl rfl rfl).imp ?_
  rintro result p ⟨clean, whole, id, leaf, T, ok, holds, draws, -, grouped, first, rest⟩
  have isGrouped : sumExpr.Grouped (sumTable.map (·.2)) := by decide
  obtain rfl := grouped.unique isGrouped first rest
  exact ⟨clean, id, leaf, T, ok, holds, draws⟩

end AdaptiveLL.Operators
