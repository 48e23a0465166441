import AdaptiveLL.Proofs.Operators.Laying
import AdaptiveLL.Proofs.Prediction.Passing

/-!
# The closures of a grammar of expressions

The block of the tails closes over the tokens of all operators, each guarded by its precedence. The exit of
the loop closes over what can follow an expression: the end of the input, and the tokens of all operators
again, behind the operand of one that is not in view. The closure comes to the end of the rule once more
behind each call, and ends because it passes every way back only once (`stop_round`).
-/

set_option autoImplicit false

namespace AdaptiveLL.Operators

open Prediction Network Layout

variable {η : Type} {net : Network} {v : Sites} {primary : Int} {ops : List Infix} {env : Env η} {X : Nat → Prop}
  {fuel : Nat} {w w' w'' : Work η} {c : Config} {collect : Bool} {depth : Int}

/-- Predictions with local context, before the end of the input. -/
abbrev ahead : Purpose := ⟨false, false⟩

theorem Sites.block_eq (v : Sites) : v.block = v.operand + 2 + 6 * v.count := rfl

namespace Expressive

/-- The states of the body of the rule of expressions do not end it. -/
theorem inner (x : Expressive net v primary ops) {n : Nat} (low : v.operand ≤ n) (high : n < v.block + 5) :
    net.isStop n = false := (x.insideExpr n low high).1

theorem tail_inner (x : Expressive net v primary ops) {i j : Nat} (inside : i < v.count) (few : j < 6) :
    net.isStop (v.tail i + j) = false := by
  have block := v.block_eq
  exact x.inner (by simp only [Sites.tail, tailAt]; omega) (by simp only [Sites.tail, tailAt]; omega)

theorem tail (x : Expressive net v primary ops) {i : Nat} (inside : i < v.count) : ∃ op, ops[i]? = some op ∧
    Tail net v.expr ((v.count : Int) - i) (nextOf op.assoc ((v.count : Int) - i)) (atomLabel op.type) (v.tail i) := by
  rw [x.count] at inside
  have tail := x.exprBody.tail i ops[i] (List.getElem?_eq_getElem inside)
  rw [← x.count] at tail
  exact ⟨ops[i], List.getElem?_eq_getElem inside, tail⟩

theorem block_out (x : Expressive net v primary ops) :
    net.out v.block = (List.range v.count).map fun i => .epsilon (v.tail i) := by
  have block := x.exprBody.block
  rw [← x.count] at block
  exact block

theorem entry_out (x : Expressive net v primary ops) : net.out v.entry = [.epsilon v.block, .epsilon v.exit] := by
  have entry := x.exprBody.entry
  rw [← x.count] at entry
  exact entry

theorem tail_end (x : Expressive net v primary ops) {i : Nat} (inside : i < v.count) :
    net.out (v.tail i + 5) = [.epsilon (v.block + 1)] := by
  have ends := x.exprBody.ends i (x.count ▸ inside)
  rw [← x.count] at ends
  exact ends

theorem block_end (x : Expressive net v primary ops) : net.out (v.block + 1) = [.epsilon (v.block + 3)] := by
  have stops := x.exprBody.stops
  rw [← x.count] at stops
  exact stops

theorem loop_back (x : Expressive net v primary ops) : net.out (v.block + 3) = [.epsilon v.entry] := by
  have returns := x.exprBody.returns
  rw [← x.count] at returns
  exact returns

/-! ## The tails -/

/-- The tail of an operator closes over its token. Its precedence is asked for within the decision only. -/
theorem tail_gains (x : Expressive env.net v primary ops) {i : Nat} (inside : i < v.count) (here : c.state = v.tail i)
    (bottom : c.context = .empty) (exposed : c.filterSuppressed = false) (exempting : Exempting X w.configs) :
    Yields (closure env ahead (fuel + 6) c collect depth) w fun _ w' => Gains X w (· = ⟨v.tail i + 2, c.alt,
      if collect && depth == 0 then c.guard.and (.precedence ((v.count : Int) - i)) else c.guard⟩) w' := by
  obtain ⟨op, found, tail⟩ := x.tail inside
  have out : env.net.out c.state = [⟨v.tail i + 1, .precedence ((v.count : Int) - i)⟩] := here ▸ tail.guard
  have inner : env.net.isStop c.state = false := here ▸ x.tail_inner inside (j := 0) (by omega)
  have free : ∀ t ∈ env.net.out c.state, t.label.isEpsilon = true := by
    rw [out]
    intro t member
    rw [List.mem_singleton.1 member]
    rfl
  rw [closure_forM x.refreshed bottom rfl (by rw [out]; simp) free, out]
  change Yields (passEdge env ahead (fuel + 4) c collect depth _ >>= fun _ => pure ()) w _
  rw [bind_pure, passEdge_precedence inner rfl rfl]
  -- Behind the predicate stand the transition to the token and the token.
  have rest (d : Config) (state : d.state = v.tail i + 1) (alt : d.alt = c.alt) (bottom : d.context = .empty)
      (exposed : d.filterSuppressed = false) :
      Yields (closure env ahead (fuel + 4) d collect depth) w fun _ w' =>
        Gains X w (· = ⟨v.tail i + 2, c.alt, d.guard⟩) w' := by
    rw [closure_one x.refreshed bottom rfl (state ▸ x.tail_inner inside (by omega)) (state ▸ tail.guarded)]
    refine (closure_rest (p := ahead) (c := d.withState (v.tail i + 2)) x.refreshed bottom rfl ?_ (.inl rfl) ?_
      exempting).imp fun _ w' gains =>
      gains.congr fun q => ?_
    · change ∀ t ∈ env.net.out (v.tail i + 2), _
      rw [tail.token]
      intro t member
      rw [List.mem_singleton.1 member]
      exact atomLabel_consumes _
    · exact fun suppressed => absurd (exposed.symm.trans suppressed) Bool.false_ne_true
    · rw [← alt]
      rfl
  cases collect && depth == 0 with
  | true => exact rest _ rfl rfl bottom exposed
  | false => exact rest _ rfl rfl bottom exposed

/-- The block of the tails closes over the tokens of all operators. -/
theorem block_gains (x : Expressive env.net v primary ops) (here : c.state = v.block) (bottom : c.context = .empty)
    (exposed : c.filterSuppressed = false) (some' : 0 < v.count) (exempting : Exempting X w.configs) :
    Yields (closure env ahead (fuel + 8) c collect depth) w fun _ w' => Gains X w (fun q => ∃ i < v.count,
      q = ⟨v.tail i + 2, c.alt,
        if collect && depth == 0 then c.guard.and (.precedence ((v.count : Int) - i)) else c.guard⟩) w' := by
  have block := v.block_eq
  have inner : env.net.isStop c.state = false := here ▸ x.inner (by omega) (by omega)
  have free : ∀ t ∈ env.net.out c.state, t.label = .epsilon none := by
    rw [here, x.block_out]
    intro t member
    obtain ⟨i, -, rfl⟩ := List.mem_map.1 member
    rfl
  have nonempty : env.net.out c.state ≠ [] := by
    rw [here, x.block_out, ← List.length_pos_iff]
    simpa using some'
  rw [closure_forM x.refreshed bottom rfl nonempty fun t member => by rw [free t member]; rfl, here, x.block_out]
  refine (forM_gains (U := fun t q => ∃ i < v.count, t = .epsilon (v.tail i) ∧ q = ⟨v.tail i + 2, c.alt,
    if collect && depth == 0 then c.guard.and (.precedence ((v.count : Int) - i)) else c.guard⟩) ?_ exempting).imp
    fun _ w' gains => gains.congr fun q => ?_
  · intro t member w exempting
    obtain ⟨i, inside, rfl⟩ := List.mem_map.1 member
    have inside := List.mem_range.1 inside
    rw [passEdge_epsilon inner (o := none) rfl]
    refine (x.tail_gains (c := c.withState (v.tail i)) inside rfl bottom exposed exempting).imp fun _ w' gains =>
      gains.congr fun q => ?_
    constructor
    · exact fun same => ⟨i, inside, rfl, same⟩
    · rintro ⟨j, -, same, rfl⟩
      obtain rfl : i = j := by
        simp only [Transition.epsilon, Transition.mk.injEq, Sites.tail, tailAt, and_true] at same
        omega
      rfl
  · constructor
    · rintro ⟨t, -, i, inside, -, same⟩
      exact ⟨i, inside, same⟩
    · rintro ⟨i, inside, same⟩
      exact ⟨_, List.mem_map_of_mem (List.mem_range.2 inside), i, inside, rfl, same⟩

end Expressive

/-! ## The ways back from the rule -/

/-- A configuration without a guard at the bottom of the stack. -/
def thread (n alt : Nat) (exempt : Bool) (outer : Nat) : Config :=
  { state := n, alt, outerDepth := outer, filterSuppressed := exempt }

/-- What follows an expression that was called with the state behind the call: the end of the input behind the
start rule, the tokens of all operators behind an operand. -/
def Behind (v : Sites) (alt n : Nat) (q : Place) : Prop :=
  (n = v.call + 1 ∧ q = ⟨v.call + 2, alt, .always⟩) ∨
    (∃ i < v.count, n = v.tail i + 5) ∧ ∃ j < v.count, q = ⟨v.tail j + 2, alt, .always⟩

/-- How a way back is noted when it is passed. -/
def noted (env : Env η) (alt : Nat) (t : Transition) : Config := thread t.target alt (returnsOutermost env t) 0

/-- The ways back. -/
def ways (env : Env η) (v : Sites) : List Transition := env.net.out (2 * v.expr + 1)

/-- What the closure does from the end of the rule on: where it passes a way back that was not noted, it adds
what stands behind the call. -/
structure Round (env : Env η) (v : Sites) (alt : Nat) (w w' : Work η) : Prop where
  exempting : Exempting (· = v.call + 2) w'.configs
  hooks : w'.scratch.hooks = w.scratch.hooks
  busy : ∀ t, w.busy.contains (noted env alt t) = true → w'.busy.contains (noted env alt t) = true
  kept : ∀ q, w.configs.At q → w'.configs.At q
  only : ∀ q, w'.configs.At q → w.configs.At q ∨ ∃ t ∈ ways env v, Behind v alt t.target q
  new : ∀ t ∈ ways env v, w.busy.contains (noted env alt t) = false → w'.busy.contains (noted env alt t) = true →
    ∀ q, Behind v alt t.target q → w'.configs.At q

namespace Round

variable {alt : Nat}

theorem refl (exempting : Exempting (· = v.call + 2) w.configs) : Round env v alt w w :=
  ⟨exempting, rfl, fun _ => id, fun _ => id, fun _ => .inl, fun _ _ absent present => by
    rw [absent] at present
    cases present⟩

theorem trans (first : Round env v alt w w') (second : Round env v alt w' w'') : Round env v alt w w'' := by
  refine ⟨second.exempting, second.hooks.trans first.hooks, fun t => second.busy t ∘ first.busy t,
    fun q => second.kept q ∘ first.kept q, fun q here => ?_, fun t member absent present q behind => ?_⟩
  · exact (second.only q here).elim (first.only q) .inr
  · cases between : w'.busy.contains (noted env alt t) with
    | true => exact second.kept q (first.new t member absent between q behind)
    | false => exact second.new t member between present q behind

/-- A closure that does not come to the end of the rule. -/
theorem of_gains {U : Place → Prop} (gains : Gains (· = v.call + 2) w U w')
    (behind : ∀ q, U q → ∃ t ∈ ways env v, Behind v alt t.target q) : Round env v alt w w' := by
  refine ⟨gains.exempting, gains.hooks, fun t => ?_, fun q here => (gains.at_iff q).2 (.inl here),
    fun q here => ((gains.at_iff q).1 here).imp id (behind q), fun t member absent present => ?_⟩
  · rw [gains.busy]
    exact id
  · rw [gains.busy, absent] at present
    cases present

end Round

/-- The number of ways back that were not noted. -/
def left (env : Env η) (v : Sites) (alt : Nat) (w : Work η) : Nat :=
  (ways env v).countP fun t => !w.busy.contains (noted env alt t)

theorem left_le {alt : Nat}
    (busy : ∀ t, w.busy.contains (noted env alt t) = true → w'.busy.contains (noted env alt t) = true) :
    left env v alt w' ≤ left env v alt w := by
  refine List.countP_mono_left fun t _ absent => ?_
  cases before : w.busy.contains (noted env alt t) with
  | true => simp [busy t before] at absent
  | false => rfl

theorem left_lt {alt : Nat} {t : Transition} (member : t ∈ ways env v)
    (busy : ∀ t, w.busy.contains (noted env alt t) = true → w'.busy.contains (noted env alt t) = true)
    (absent : w.busy.contains (noted env alt t) = false) (present : w'.busy.contains (noted env alt t) = true) :
    left env v alt w' < left env v alt w := by
  obtain ⟨before, behind, split⟩ := List.append_of_mem member
  have le (l : List Transition) : (l.countP fun t => !w'.busy.contains (noted env alt t)) ≤
      l.countP fun t => !w.busy.contains (noted env alt t) := by
    refine List.countP_mono_left fun t _ absent => ?_
    cases before : w.busy.contains (noted env alt t) with
    | true => simp [busy t before] at absent
    | false => rfl
  have first := le before
  have last := le behind
  simp only [left, split, List.countP_append, List.countP_cons, absent, present]
  simp only [Bool.not_true, Bool.not_false, Bool.false_eq_true, if_true, if_false]
  omega

theorem passEdge_return {alt outer : Nat} {t : Transition} {o : Option Nat} {n : Nat}
    (isStop : env.net.isStop n = true) (label : t.label = .epsilon o) :
    passEdge env ahead fuel (thread n alt false outer) true depth t = (do
      if ← isNew (thread t.target alt (returnsOutermost env t) (outer + 1)) then
        modify fun w => { w with configs := { w.configs with dipsIntoOuter := true } }
        closure env ahead fuel (thread t.target alt (returnsOutermost env t) (outer + 1)) true (depth - 1)) := by
  have stopped : (env.net.state n).kind.isRuleStop = true := isStop
  simp [passEdge, epsilonTarget, label, isAction, thread, Config.withState, stopped]

/-- From the end of the rule the closure passes all ways back, if fewer than `u` are left. -/
def Stops (env : Env η) (v : Sites) (alt u : Nat) : Prop :=
  ∀ {w : Work η} {outer : Nat} {depth : Int} {fuel : Nat}, Exempting (· = v.call + 2) w.configs → left env v alt w < u →
    depth ≤ 0 → 12 * u + 8 ≤ fuel →
    Yields (closure env ahead fuel (thread (2 * v.expr + 1) alt false outer) true depth) w fun _ w' =>
      Round env v alt w w' ∧ ∀ t ∈ ways env v, w'.busy.contains (noted env alt t) = true

namespace Expressive

variable {alt outer u : Nat}

theorem isStop_expr (x : Expressive net v primary ops) : net.isStop (2 * v.expr + 1) = true :=
  (x.stop v.expr x.knownExpr).1

theorem way_cases (x : Expressive env.net v primary ops) {t : Transition} (member : t ∈ ways env v) :
    t = ⟨v.call + 1, .epsilon (some v.expr)⟩ ∨ ∃ i < v.count, t = ⟨v.tail i + 5, .epsilon none⟩ :=
  (x.returns t).1 member

/-- Behind an operand the loop closes over the operators, and comes to the end of the rule. -/
theorem operand_round (x : Expressive env.net v primary ops) (stops : Stops env v alt u) {i : Nat}
    (inside : i < v.count) (deep : depth < 0) (exempting : Exempting (· = v.call + 2) w.configs)
    (few : left env v alt w < u) (enough : 12 * u + 18 ≤ fuel) :
    Yields (closure env ahead fuel (thread (v.tail i + 5) alt false outer) true depth) w fun _ w' =>
      Round env v alt w w' ∧ ∀ q, Behind v alt (v.tail i + 5) q → w'.configs.At q := by
  obtain ⟨m, rfl⟩ : ∃ m, fuel = m + 10 := ⟨fuel - 10, by omega⟩
  have block := v.block_eq
  have isEntry : v.entry = v.block + 2 := rfl
  have isExit : v.exit = v.block + 4 := rfl
  have entryInner : env.net.isStop v.entry = false := x.inner (by omega) (by omega)
  rw [closure_one (c := thread (v.tail i + 5) alt false outer) x.refreshed rfl rfl
      (x.tail_inner inside (by omega)) (x.tail_end inside)]
  change Yields (closure env ahead (m + 6 + 2) (thread (v.block + 1) alt false outer) true depth) w _
  rw [closure_one (c := thread (v.block + 1) alt false outer) x.refreshed rfl rfl
      (x.inner (n := v.block + 1) (by omega) (by omega)) x.block_end]
  change Yields (closure env ahead (m + 4 + 2) (thread (v.block + 3) alt false outer) true depth) w _
  rw [closure_one (c := thread (v.block + 3) alt false outer) x.refreshed rfl rfl
      (x.inner (n := v.block + 3) (by omega) (by omega)) x.loop_back]
  change Yields (closure env ahead (m + 2 + 2) (thread v.entry alt false outer) true depth) w _
  rw [closure_forM (c := thread v.entry alt false outer) x.refreshed rfl rfl
    (by change env.net.out v.entry ≠ []; rw [x.entry_out]; simp)
    (by change ∀ t ∈ env.net.out v.entry, _; rw [x.entry_out]; simp [Transition.epsilon, Label.isEpsilon])]
  change Yields ((env.net.out v.entry).forM _) w _
  rw [x.entry_out]
  change Yields (passEdge env ahead (m + 2) (thread v.entry alt false outer) true depth (.epsilon v.block) >>= fun _ =>
    passEdge env ahead (m + 2) (thread v.entry alt false outer) true depth (.epsilon v.exit) >>= fun _ => pure ()) w _
  rw [bind_pure, passEdge_epsilon entryInner (o := none) rfl, passEdge_epsilon entryInner (o := none) rfl]
  obtain ⟨k, rfl⟩ : ∃ k, m = k + 6 := ⟨m - 6, by omega⟩
  refine (x.block_gains (c := thread v.block alt false outer) rfl rfl rfl (by omega) exempting).bind
    fun _ w₁ gains => ?_
  have away : (true && depth == 0) = false := by
    rw [Bool.true_and, beq_eq_false_iff_ne]
    omega
  rw [away] at gains
  have round₁ : Round env v alt w w₁ := by
    refine .of_gains gains ?_
    rintro q ⟨j, before, rfl⟩
    exact ⟨_, (x.returns _).2 (.inr ⟨i, inside, rfl⟩), .inr ⟨⟨i, inside, rfl⟩, j, before, rfl⟩⟩
  change Yields (closure env ahead (k + 6 + 2) (thread v.exit alt false outer) true depth) w₁ _
  rw [closure_one (c := thread v.exit alt false outer) x.refreshed rfl rfl
    (x.inner (n := v.exit) (by omega) (by omega)) x.leaveExpr]
  refine (stops gains.exempting (Nat.lt_of_le_of_lt (left_le round₁.busy) few) (Int.le_of_lt deep) (by omega)).imp ?_
  rintro _ w₂ ⟨round₂, -⟩
  refine ⟨round₁.trans round₂, fun q behind => round₂.kept q ((gains.at_iff q).2 (.inr ?_))⟩
  rcases behind with ⟨same, -⟩ | ⟨-, j, before, rfl⟩
  · -- The state behind the call of the start rule belongs to another rule.
    have owner := (x.insideStart (v.call + 1) (by omega) (by omega)).2
    rw [← same, (x.insideExpr (v.tail i + 5) (by simp only [Sites.tail, tailAt]; omega)
      (by simp only [Sites.tail, tailAt]; omega)).2] at owner
    exact absurd (Option.some.inj owner).symm x.apart
  · exact ⟨j, before, rfl⟩

/-- Behind the call of the start rule the end of the input is expected. -/
theorem call_round (x : Expressive env.net v primary ops) {exempt : Bool}
    (exempting : Exempting (· = v.call + 2) w.configs) (enough : 4 ≤ fuel) :
    Yields (closure env ahead fuel (thread (v.call + 1) alt exempt outer) true depth) w fun _ w' =>
      Round env v alt w w' ∧ ∀ q, Behind v alt (v.call + 1) q → w'.configs.At q := by
  obtain ⟨m, rfl⟩ : ∃ m, fuel = m + 4 := ⟨fuel - 4, by omega⟩
  rw [closure_one (c := thread (v.call + 1) alt exempt outer) x.refreshed rfl rfl
    (x.insideStart _ (by simp only [thread]; omega) (by simp only [thread]; omega)).1 x.startBody.called]
  refine (closure_rest (p := ahead) (X := (· = v.call + 2)) (c := thread (v.call + 2) alt exempt outer)
    x.refreshed rfl rfl ?_ (.inl rfl) (fun _ => rfl) exempting).imp
    fun _ w' gains => ⟨.of_gains gains fun q same => ?_, fun q behind => (gains.at_iff q).2 (.inr ?_)⟩
  · change ∀ t ∈ env.net.out (v.call + 2), _
    rw [x.startBody.last]
    intro t member
    rw [List.mem_singleton.1 member]
    rfl
  · exact ⟨_, (x.returns _).2 (.inl rfl), .inl ⟨rfl, same⟩⟩
  · rcases behind with ⟨-, same⟩ | ⟨⟨i, inside, same⟩, -⟩
    · exact same
    · have owner := (x.insideStart (v.call + 1) (by omega) (by omega)).2
      have block := v.block_eq
      rw [same, (x.insideExpr (v.tail i + 5) (by simp only [Sites.tail, tailAt]; omega)
        (by simp only [Sites.tail, tailAt]; omega)).2] at owner
      exact absurd (Option.some.inj owner).symm x.apart

/-- A way back is noted, and what stands behind the call is added unless it was noted before. -/
theorem way_round (x : Expressive env.net v primary ops) (stops : Stops env v alt u) {t : Transition}
    (member : t ∈ ways env v) (deep : depth ≤ 0) (exempting : Exempting (· = v.call + 2) w.configs)
    (few : left env v alt w < u + 1) (enough : 12 * u + 18 ≤ fuel) :
    Yields (passEdge env ahead fuel (thread (2 * v.expr + 1) alt false outer) true depth t) w fun _ w' =>
      Round env v alt w w' ∧ w'.busy.contains (noted env alt t) = true := by
  have label : ∃ o, t.label = .epsilon o := by
    rcases x.way_cases member with rfl | ⟨i, -, rfl⟩ <;> exact ⟨_, rfl⟩
  obtain ⟨o, label⟩ := label
  rw [passEdge_return x.isStop_expr label]
  let w₁ : Work η := { w with busy := w.busy.insert (noted env alt t) }
  have isNoted : w₁.busy.contains (noted env alt t) = true := by simp [w₁]
  have busy (d : Config) (before : w.busy.contains d = true) : w₁.busy.contains d = true := by
    simp only [w₁, Std.HashSet.contains_insert, before, Bool.or_true]
  refine Yields.bind (P := fun new w' => w' = w₁ ∧ new = !w.busy.contains (noted env alt t)) ⟨_, w₁, rfl, rfl, rfl⟩ ?_
  rintro new w' ⟨rfl, rfl⟩
  cases before : w.busy.contains (noted env alt t) with
  | true =>
    refine .pure ⟨⟨exempting, rfl, fun t => busy _, fun _ => id, fun _ => .inl, fun t' _ absent present => ?_⟩, isNoted⟩
    simp only [w₁, Std.HashSet.contains_insert, absent, Bool.or_false, beq_iff_eq] at present
    rw [← present, before] at absent
    cases absent
  | false =>
    refine .modify_bind ?_
    let w₂ : Work η := { w₁ with configs := { w₁.configs with dipsIntoOuter := true } }
    have exempting₂ : Exempting (· = v.call + 2) w₂.configs :=
      ⟨⟨exempting.unordered, exempting.local', exempting.contexts⟩, exempting.exempt⟩
    have few₂ : left env v alt w₂ < u :=
      Nat.lt_of_lt_of_le (left_lt member (fun t => busy _) before isNoted) (Nat.le_of_lt_succ few)
    -- What is behind the call is added before anything else is noted.
    have behind : Yields
        (closure env ahead fuel (thread t.target alt (returnsOutermost env t) (outer + 1)) true (depth - 1)) w₂
        fun _ w' => Round env v alt w₂ w' ∧ ∀ q, Behind v alt t.target q → w'.configs.At q := by
      rcases x.way_cases member with rfl | ⟨i, inside, rfl⟩
      · exact x.call_round exempting₂ (by omega)
      · exact x.operand_round stops inside (by omega) exempting₂ few₂ enough
    refine behind.imp fun _ w₃ ⟨round, added⟩ => ⟨⟨round.exempting, round.hooks, fun t' before' =>
      round.busy t' (busy _ before'), round.kept, round.only, fun t' member' absent present => ?_⟩, round.busy t isNoted⟩
    cases between : w₂.busy.contains (noted env alt t') with
    | false => exact round.new t' member' between present
    | true =>
      simp only [w₂, w₁, Std.HashSet.contains_insert, absent, Bool.or_false, beq_iff_eq] at between
      have same : t.target = t'.target := congrArg Config.state between
      exact same ▸ added

theorem stops_all (x : Expressive env.net v primary ops) (u : Nat) : Stops env v alt u := by
  induction u with
  | zero => exact fun _ few => absurd few (Nat.not_lt_zero _)
  | succ u ih =>
    intro w outer depth fuel exempting few deep enough
    obtain ⟨m, rfl⟩ : ∃ m, fuel = m + 2 := ⟨fuel - 2, by omega⟩
    have free : ∀ t ∈ env.net.out (2 * v.expr + 1), t.label.isEpsilon = true := fun t member => by
      rcases x.way_cases member with rfl | ⟨i, -, rfl⟩ <;> rfl
    rw [closure_forM (c := thread (2 * v.expr + 1) alt false outer) x.refreshed rfl rfl
      (List.ne_nil_of_mem ((x.returns _).2 (.inl rfl))) free]
    change Yields ((ways env v).forM _) w _
    have all (l : List Transition) (among : ∀ t ∈ l, t ∈ ways env v) {w : Work η}
        (exempting : Exempting (· = v.call + 2) w.configs) (few : left env v alt w < u + 1) :
        Yields (l.forM (passEdge env ahead m (thread (2 * v.expr + 1) alt false outer) true depth)) w fun _ w' =>
          Round env v alt w w' ∧ ∀ t ∈ l, w'.busy.contains (noted env alt t) = true := by
      induction l generalizing w with
      | nil => exact .pure ⟨.refl exempting, nofun⟩
      | cons t rest later =>
        change Yields (passEdge env ahead m _ true depth t >>= fun _ => rest.forM _) w _
        refine (x.way_round ih (among t List.mem_cons_self) deep exempting few (by omega)).bind
          fun _ w₁ ⟨round, here⟩ => ?_
        refine (later (fun t' member => among t' (List.mem_cons_of_mem _ member)) round.exempting
          (Nat.lt_of_le_of_lt (left_le round.busy) few)).imp fun _ w₂ ⟨round', rest'⟩ => ⟨round.trans round', ?_⟩
        rintro t' (_ | ⟨_, member⟩)
        · exact round'.busy _ here
        · exact rest' t' member
    exact all _ (fun _ => id) exempting few

end Expressive

end AdaptiveLL.Operators
