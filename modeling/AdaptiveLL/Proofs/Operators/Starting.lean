import AdaptiveLL.Proofs.Operators.Closing

/-!
# Which operator comes next

At the loop of the rule of expressions one token decides: an operator that binds as tightly as the call asks is
read, and any other operator ends the loop, as the end of the input does. In the block of the tails the token
chooses the tail. So both decisions are settled by one token (`loopSettling`, `blockSettling`).

The threads of the loop begin at the tokens of all operators twice, with the first alternative, guarded by the
precedence of the operator, and with the second one, behind the end of the rule. The filter on precedences
leaves one of the two.
-/

set_option autoImplicit false

namespace AdaptiveLL.Operators

open Prediction Network Layout

variable {η : Type} {net : Network} {v : Sites} {primary : Int} {ops : List Infix} {env : Env η} {r : Scratch η}
  {i j : Nat} {x p : Int}

/-- The tokens of a grammar of expressions: there are operators, each with a token of its own. The types of tokens
are positive; the others stand for the end of the input and for no token. -/
structure Tokens (primary : Int) (ops : List Infix) : Prop where
  some' : 0 < ops.length
  distinct : (ops.map (·.type)).Nodup
  apart : ∀ o ∈ ops, o.type ≠ primary
  visible : 0 < primary ∧ ∀ o ∈ ops, 0 < o.type

/-- The place of the operator with the token type. -/
def rank (ops : List Infix) (x : Int) : Nat := ops.findIdx (·.type == x)

theorem rank_eq (distinct : (ops.map (·.type)).Nodup) {op : Infix} (found : ops[i]? = some op) :
    rank ops op.type = i := by
  obtain ⟨inside, rfl⟩ := List.getElem?_eq_some_iff.1 found
  have apart := List.pairwise_iff_getElem.1 (List.pairwise_map.1 distinct)
  exact (List.findIdx_eq inside).2 ⟨beq_self_eq_true _, fun j before =>
    beq_eq_false_iff_ne.2 (apart j i (Nat.lt_trans before inside) inside before)⟩

theorem rank_lt {op : Infix} (member : op ∈ ops) : rank ops op.type < ops.length :=
  List.findIdx_lt_length_of_exists ⟨op, member, beq_self_eq_true _⟩

theorem atomLabel_accepts {a : Int} {lo hi : Int} : (atomLabel a).accepts x lo hi = true ↔ x = a := by
  unfold atomLabel
  split
  · exact SymbolSet.contains_singleton a x
  · exact beq_iff_eq.trans eq_comm

namespace Sites

theorem tail_inj {a b : Nat} (same : v.tail i + a = v.tail j + b) (few : a < 6) (few' : b < 6) : i = j ∧ a = b := by
  simp only [tail, tailAt] at same
  omega

/-- The decision whether an operator follows. -/
def loopSite (v : Sites) (net : Network) (decision fuel : Nat) : DecisionSite := ⟨net, decision, v.entry, true, fuel⟩

/-- The decision which operator follows. -/
def blockSite (v : Sites) (net : Network) (decision fuel : Nat) : DecisionSite :=
  ⟨net, decision, v.block, false, fuel⟩

end Sites

namespace Expressive

/-- The two rules have no state in common. -/
theorem call_ne_tail (x : Expressive net v primary ops) {a b : Nat} (few : a < 4) (inside : i < v.count)
    (few' : b < 6) : v.call + a ≠ v.tail i + b := by
  intro same
  have block := v.block_eq
  have owner := (x.insideStart (v.call + a) (by omega) (by omega)).2
  rw [same, (x.insideExpr (v.tail i + b) (by simp only [Sites.tail, tailAt]; omega)
    (by simp only [Sites.tail, tailAt]; omega)).2] at owner
  exact x.apart (Option.some.inj owner).symm

theorem call_ne_stop (x : Expressive net v primary ops) {a : Nat} (few : a < 4) : v.call + a ≠ 2 * v.start + 1 := by
  intro same
  have inner := (x.insideStart (v.call + a) (by omega) (by omega)).1
  rw [same, (x.stop v.start x.knownStart).1] at inner
  cases inner

theorem call_inner (x : Expressive net v primary ops) : net.isStop (v.call + 2) = false :=
  (x.insideStart (v.call + 2) (by omega) (by omega)).1

theorem behind_iff (x : Expressive env.net v primary ops) {alt : Nat} {q : Place} :
    (∃ t ∈ ways env v, Behind v alt t.target q) ↔
      q = ⟨v.call + 2, alt, .always⟩ ∨ ∃ i < v.count, q = ⟨v.tail i + 2, alt, .always⟩ := by
  constructor
  · rintro ⟨t, -, ⟨-, same⟩ | ⟨-, j, inside, same⟩⟩
    · exact .inl same
    · exact .inr ⟨j, inside, same⟩
  · rintro (same | ⟨i, inside, same⟩)
    · exact ⟨_, (x.returns _).2 (.inl rfl), .inl ⟨rfl, same⟩⟩
    · exact ⟨_, (x.returns _).2 (.inr ⟨i, inside, rfl⟩), .inr ⟨⟨i, inside, rfl⟩, i, inside, same⟩⟩

/-! ## The loop -/

/-- The places with which the loop begins, before the filter on precedences. -/
def Raw (v : Sites) (q : Place) : Prop :=
  (∃ i < v.count, q = ⟨v.tail i + 2, 1, .precedence ((v.count : Int) - i)⟩) ∨
    q = ⟨v.call + 2, 2, .always⟩ ∨ ∃ i < v.count, q = ⟨v.tail i + 2, 2, .always⟩

theorem loop_startSet (x : Expressive env.net v primary ops) (start : env.startState = v.entry) (some' : 0 < v.count)
    (enough : 12 * ((ways env v).length + 1) + 10 ≤ env.fuel) :
    Yields (startSet env .empty false) r fun s r' =>
      r'.hooks = r.hooks ∧ Exempting (· = v.call + 2) s ∧ ∀ q, s.At q ↔ Raw v q := by
  obtain ⟨fuel, isFuel⟩ : ∃ fuel, env.fuel = fuel + 10 := ⟨env.fuel - 10, by omega⟩
  have unfolded : (startSet env .empty false : ScratchM η ConfigSet) = (do
      let s ← closureOf env ahead true (.ofParser false) [thread v.block 1 false 0]
      closureOf env ahead true s [thread v.exit 2 false 0]) := by
    unfold startSet
    change (env.net.out env.startState).zipIdx.foldlM _ _ = _
    rw [start, x.entry_out]
    change (closureOf env ahead true (.ofParser false) [thread v.block 1 false 0] >>= fun s =>
      closureOf env ahead true s [thread v.exit 2 false 0] >>= fun s => pure s) = _
    simp only [bind_pure]
  rw [unfolded]
  refine Yields.bind (P := fun s r' => r'.hooks = r.hooks ∧ Exempting (· = v.call + 2) s ∧
    ∀ q, s.At q ↔ ∃ i < v.count, q = ⟨v.tail i + 2, 1, .precedence ((v.count : Int) - i)⟩) (closureOf_yields ?_) ?_
  · change Yields (closure env ahead env.fuel (thread v.block 1 false 0) true 0 >>= fun _ => pure ()) _ _
    rw [bind_pure, isFuel]
    refine (x.block_gains (c := thread v.block 1 false 0) rfl rfl rfl some' (exempting_ofParser _)).imp
      fun _ w gains => ⟨gains.hooks, gains.exempting, fun q => ?_⟩
    rw [gains.at_iff, or_iff_right not_at_ofParser]
    rfl
  · rintro s r' ⟨hooks, exempting, at_iff⟩
    refine closureOf_yields ?_
    change Yields (closure env ahead env.fuel (thread v.exit 2 false 0) true 0 >>= fun _ => pure ()) _ _
    have block := v.block_eq
    have isExit : v.exit = v.block + 4 := rfl
    rw [bind_pure, isFuel, closure_one (c := thread v.exit 2 false 0) x.refreshed rfl rfl
      (x.inner (n := v.exit) (by omega) (by omega)) x.leaveExpr]
    have stops : Stops env v 2 ((ways env v).length + 1) := x.stops_all _
    refine (stops (w := { configs := s, scratch := r' }) exempting
      (Nat.lt_succ_of_le List.countP_le_length) (Int.le_refl 0) (by omega)).imp fun _ w ⟨round, all⟩ =>
        ⟨round.hooks.trans hooks, round.exempting, fun q => ?_⟩
    rw [Raw, ← at_iff, ← x.behind_iff]
    constructor
    · exact round.only q
    · rintro (before | ⟨t, member, behind⟩)
      · exact round.kept q before
      · exact round.new t member (by simp) (all t member) q behind

end Expressive

/-- The places with which the loop begins at a precedence. -/
def Loops (v : Sites) (p : Int) (q : Place) : Prop :=
  (∃ i < v.count, p ≤ (v.count : Int) - i ∧ q = ⟨v.tail i + 2, 1, .always⟩) ∨ q = ⟨v.call + 2, 2, .always⟩ ∨
    ∃ i < v.count, ¬ p ≤ (v.count : Int) - i ∧ q = ⟨v.tail i + 2, 2, .always⟩

/-- Where a token leads from the loop. -/
def loopPlace (v : Sites) (ops : List Infix) (p x : Int) : Place :=
  if x = endOfInput then ⟨2 * v.start + 1, 2, .always⟩
  else ⟨v.tail (rank ops x) + 3, if p ≤ (v.count : Int) - rank ops x then 1 else 2, .always⟩

/-- How a guard is answered at a precedence. -/
def answer (p : Int) : Guard → Option Guard
  | .precedence q => if q ≥ p then some .always else none
  | g => some g

theorem answer_eq_some {q : Int} {g : Guard} : answer p (.precedence q) = some g ↔ p ≤ q ∧ g = .always := by
  by_cases tight : p ≤ q <;> simp [answer, tight, eq_comm]

theorem resolve_precedence {evaluator : Guard.Evaluator η} (compares : evaluator.Compares p) {q : Int} (h : η) :
    ((Guard.precedence q).resolve evaluator).run h = (answer p (.precedence q), h) := by
  have asked : evaluator.precedence q h = (decide (q ≥ p), h) := compares q h
  simp only [Guard.resolve, answer]
  change (if (evaluator.precedence q h).1 = true then (pure (some .always) : StateM η (Option Guard))
    else pure none).run (evaluator.precedence q h).2 = _
  rw [asked]
  by_cases tight : q ≥ p <;> simp [tight] <;> rfl

namespace Expressive

/-- The filter leaves each operator to one alternative. -/
theorem loop_filter (x : Expressive env.net v primary ops) {s : ConfigSet} (compares : env.evaluator.Compares p)
    (exempting : Exempting (· = v.call + 2) s) (raw : ∀ q, s.At q ↔ Raw v q) :
    Yields (precedenceFilter env s) r fun s' r' => r'.hooks = r.hooks ∧ s'.Rooted ∧ ∀ q, s'.At q ↔ Loops v p q := by
  have firsts (q : Place) (here : s.At q) (first : q.alt = 1) :
      ∃ i < v.count, q = ⟨v.tail i + 2, 1, .precedence ((v.count : Int) - i)⟩ := by
    rcases (raw q).1 here with found | rfl | ⟨i, -, rfl⟩
    · exact found
    · cases first
    · cases first
  refine (precedenceFilter_yields (R := answer p) exempting (fun q here first => ?_) fun q here first h => ?_).imp
    fun s' r' ⟨hooks, rooted, at_iff⟩ => ⟨hooks, rooted, fun q => ?_⟩
  · obtain ⟨i, inside, rfl⟩ := firsts q here first
    exact (x.call_ne_tail (by omega) inside (by omega)).symm
  · obtain ⟨i, -, rfl⟩ := firsts q here first
    exact resolve_precedence compares h
  · rw [at_iff]
    constructor
    · rintro (⟨q', here, first, g, kept, rfl⟩ | ⟨here, second, dropped⟩)
      · obtain ⟨i, inside, rfl⟩ := firsts q' here first
        obtain ⟨tight, rfl⟩ := answer_eq_some.1 kept
        exact .inl ⟨i, inside, tight, rfl⟩
      · rcases (raw q).1 here with ⟨i, -, rfl⟩ | rfl | ⟨i, inside, rfl⟩
        · exact absurd rfl second
        · exact .inr (.inl rfl)
        · refine .inr (.inr ⟨i, inside, fun tight => ?_, rfl⟩)
          have none' := dropped _ ((raw _).2 (.inl ⟨i, inside, rfl⟩)) rfl rfl
          rw [answer_eq_some.2 ⟨tight, rfl⟩] at none'
          cases none'
    · rintro (⟨i, inside, tight, rfl⟩ | rfl | ⟨i, inside, loose, rfl⟩)
      · exact .inl ⟨_, (raw _).2 (.inl ⟨i, inside, rfl⟩), rfl, .always, answer_eq_some.2 ⟨tight, rfl⟩, rfl⟩
      · refine .inr ⟨(raw _).2 (.inr (.inl rfl)), Nat.succ_ne_self 1, fun q' here first same => ?_⟩
        obtain ⟨i, inside, rfl⟩ := firsts q' here first
        exact absurd same.symm (x.call_ne_tail (by omega) inside (by omega))
      · refine .inr ⟨(raw _).2 (.inr (.inr ⟨i, inside, rfl⟩)), Nat.succ_ne_self 1, fun q' here first same => ?_⟩
        obtain ⟨j, -, rfl⟩ := firsts q' here first
        obtain ⟨rfl, -⟩ := Sites.tail_inj (i := j) (j := i) same (by omega) (by omega)
        exact if_neg loose

end Expressive

namespace Expressive

theorem tail_token (x : Expressive net v primary ops) (inside : i < v.count) :
    ∃ op, ops[i]? = some op ∧ net.out (v.tail i + 2) = [⟨v.tail i + 3, atomLabel op.type⟩] := by
  rw [x.count] at inside
  have tail := x.exprBody.tail i ops[i] (List.getElem?_eq_getElem inside)
  rw [← x.count] at tail
  exact ⟨ops[i], List.getElem?_eq_getElem inside, tail.token⟩

/-- What a thread before a token does with the token of an operator. -/
theorem tail_accepts (x : Expressive net v primary ops) (tokens : Tokens primary ops) (inside : i < v.count)
    {op : Infix} (member : op ∈ ops) {a b : Int} {t : Transition} :
    t ∈ net.out (v.tail i + 2) ∧ t.label.accepts op.type a b = true ↔
      i = rank ops op.type ∧ t = ⟨v.tail i + 3, atomLabel op.type⟩ := by
  obtain ⟨op', found, out⟩ := x.tail_token inside
  rw [out, List.mem_singleton]
  constructor
  · rintro ⟨rfl, accepts⟩
    have same := atomLabel_accepts.1 accepts
    exact ⟨(same ▸ rank_eq tokens.distinct found).symm, by rw [same]⟩
  · rintro ⟨isRank, rfl⟩
    obtain ⟨j, found'⟩ := List.mem_iff_getElem?.1 member
    rw [rank_eq tokens.distinct found'] at isRank
    rw [isRank, found'] at found
    obtain rfl := Option.some.inj found
    exact ⟨rfl, atomLabel_accepts.2 rfl⟩

variable {s : ConfigSet} {q : Place} {op : Infix}

theorem loop_moves (x : Expressive env.net v primary ops) (tokens : Tokens primary ops)
    (opens : ∀ q, s.At q ↔ Loops v p q) (member : op ∈ ops) : Moves env s op.type q ↔ q = loopPlace v ops p op.type := by
  have visible := tokens.visible.2 op member
  have noEnd : op.type ≠ endOfInput := by unfold endOfInput; omega
  have known : rank ops op.type < v.count := x.count ▸ rank_lt member
  rw [moves_iff, loopPlace, if_neg noEnd]
  constructor
  · rintro ⟨q₀, here, -, t, moved, rfl⟩
    rcases (opens q₀).1 here with ⟨i, inside, tight, rfl⟩ | rfl | ⟨i, inside, loose, rfl⟩
    · obtain ⟨rfl, rfl⟩ := (x.tail_accepts tokens inside member).1 moved
      rw [if_pos tight]
    · obtain ⟨edge, accepts⟩ := moved
      rw [x.startBody.last, List.mem_singleton] at edge
      subst edge
      exact absurd (beq_iff_eq.1 accepts).symm noEnd
    · obtain ⟨rfl, rfl⟩ := (x.tail_accepts tokens inside member).1 moved
      rw [if_neg loose]
  · rintro rfl
    have moved := (x.tail_accepts tokens known member (a := 0) (b := env.net.maxTokenType)).2 ⟨rfl, rfl⟩
    split
    · rename_i tight
      exact ⟨_, (opens _).2 (.inl ⟨_, known, tight, rfl⟩), x.tail_inner known (by omega), _, moved, rfl⟩
    · rename_i loose
      exact ⟨_, (opens _).2 (.inr (.inr ⟨_, known, loose, rfl⟩)), x.tail_inner known (by omega), _, moved, rfl⟩

theorem loop_moves_end (x : Expressive env.net v primary ops) (tokens : Tokens primary ops)
    (opens : ∀ q, s.At q ↔ Loops v p q) : Moves env s endOfInput q ↔ q = ⟨v.call + 3, 2, .always⟩ := by
  -- No operator is the end of the input.
  have refuses {i : Nat} (inside : i < v.count) {t : Transition} (edge : t ∈ env.net.out (v.tail i + 2)) :
      t.label.accepts endOfInput 0 env.net.maxTokenType = false := by
    obtain ⟨op, found, out⟩ := x.tail_token inside
    have visible := tokens.visible.2 op (List.mem_of_getElem? found)
    rw [out, List.mem_singleton] at edge
    subst edge
    refine Bool.eq_false_iff.2 fun accepts => ?_
    have same := atomLabel_accepts.1 accepts
    unfold endOfInput at same
    omega
  rw [moves_iff]
  constructor
  · rintro ⟨q₀, here, -, t, ⟨edge, accepts⟩, rfl⟩
    rcases (opens q₀).1 here with ⟨i, inside, -, rfl⟩ | rfl | ⟨i, inside, -, rfl⟩
    · cases (refuses inside edge).symm.trans accepts
    · rw [x.startBody.last, List.mem_singleton] at edge
      rw [edge]
    · cases (refuses inside edge).symm.trans accepts
  · rintro rfl
    refine ⟨_, (opens _).2 (.inr (.inl rfl)), x.call_inner, ⟨v.call + 3, .atom endOfInput⟩,
      ⟨?_, beq_self_eq_true _⟩, rfl⟩
    rw [x.startBody.last]
    exact List.mem_singleton_self _

/-- Behind the end of the input the start rule ends. -/
theorem end_gains (x : Expressive env.net v primary ops) {c : Config} {w : Work η} {k : Nat}
    (here : c.state = v.call + 3) (bottom : c.context = .empty) (exempting : Exempting (fun _ => True) w.configs) :
    Yields (closure env ⟨false, true⟩ (k + 4) c false 0) w fun _ w' =>
      Gains (fun _ => True) w (· = ⟨2 * v.start + 1, c.alt, c.guard⟩) w' := by
  rw [closure_one x.refreshed bottom rfl (here ▸ (x.insideStart _ (by omega) (by omega)).1) (here ▸ x.leaveStart)]
  refine closure_rest (c := c.withState (2 * v.start + 1)) x.refreshed bottom rfl ?_ (.inr x.noReturns)
    (fun _ => trivial) exempting
  change ∀ t ∈ env.net.out (2 * v.start + 1), _
  rw [x.noReturns]
  exact List.forall_mem_nil _

section Loop

variable {decision fuel : Nat} {y p' : Int} {s : ConfigSet}

/-- What is asked about at the loop: the operators and the end of the input. -/
abbrev AskedAtLoop (ops : List Infix) (y : Int) : Prop := y = endOfInput ∨ ∃ op ∈ ops, op.type = y

theorem loop_valid (x : Expressive net v primary ops) (decides : Decides net v.entry decision) (p y : Int) :
    1 ≤ (loopPlace v ops p y).alt ∧ (loopPlace v ops p y).alt ≤ net.choices decision ∧
      (loopPlace v ops p y).guard.Normal := by
  have two : net.choices decision = 2 := by
    rw [Network.choices, Network.decisionState, Array.getD_eq_getD_getElem?, decides.1]
    exact congrArg List.length x.entry_out
  rw [two, loopPlace]
  split
  · exact ⟨by simp, Nat.le_refl 2, .always⟩
  · split
    · exact ⟨Nat.le_refl 1, by simp, .always⟩
    · exact ⟨by simp, Nat.le_refl 2, .always⟩

theorem loop_apart (x : Expressive net v primary ops) (asked : AskedAtLoop ops y) (opens : ∀ q, s.At q ↔ Loops v p q) :
    ¬ s.Only (loopPlace v ops p' y) := by
  intro only
  have same := (only _).1 ((opens _).2 (.inr (.inl rfl)))
  unfold loopPlace at same
  split at same
  · exact x.call_ne_stop (by omega) (congrArg Place.state same)
  · rename_i noEnd
    obtain ⟨op, member, rfl⟩ := asked.resolve_left noEnd
    exact x.call_ne_tail (by omega) (x.count ▸ rank_lt member) (by omega) (congrArg Place.state same)

/-- An operator binds tightly enough if its tail is among the places of the first alternative. -/
theorem tight_iff (opens : ∀ q, s.At q ↔ Loops v p q) (known : i < v.count) :
    s.At ⟨v.tail i + 2, 1, .always⟩ ↔ p ≤ (v.count : Int) - i := by
  rw [opens]
  constructor
  · rintro (⟨j, -, tight, same⟩ | same | ⟨j, -, -, same⟩)
    · obtain ⟨rfl, -⟩ := Sites.tail_inj (congrArg Place.state same) (by omega) (by omega)
      exact tight
    · cases congrArg Place.alt same
    · cases congrArg Place.alt same
  · exact fun tight => .inl ⟨_, known, tight, rfl⟩

theorem loop_agree (x : Expressive net v primary ops) (asked : AskedAtLoop ops y) (opens : ∀ q, s.At q ↔ Loops v p q)
    (opens' : ∀ q, s.At q ↔ Loops v p' q) : loopPlace v ops p y = loopPlace v ops p' y := by
  unfold loopPlace
  split
  · rfl
  · rename_i noEnd
    obtain ⟨op, member, rfl⟩ := asked.resolve_left noEnd
    have known : rank ops op.type < v.count := x.count ▸ rank_lt member
    have same : (p ≤ (v.count : Int) - rank ops op.type) = (p' ≤ (v.count : Int) - rank ops op.type) :=
      propext ((tight_iff opens known).symm.trans (tight_iff opens' known))
    simp only [same]

theorem loop_opens (x : Expressive net v primary ops) (tokens : Tokens primary ops)
    (enough : 12 * (net.out (2 * v.expr + 1)).length + 22 ≤ fuel) (evaluator : Guard.Evaluator η) (p : Int)
    (compares : evaluator.Compares p) (w : Scratch η) :
    Yields (startSet ((v.loopSite net decision fuel).env evaluator) .empty false) w fun s w' => w'.hooks = w.hooks ∧
      Yields (precedenceFilter ((v.loopSite net decision fuel).env evaluator) s) w' fun s' w'' =>
        w''.hooks = w.hooks ∧ s'.Rooted ∧ ∀ q, s'.At q ↔ Loops v p q := by
  have x' : Expressive ((v.loopSite net decision fuel).env evaluator).net v primary ops := x
  refine (x'.loop_startSet rfl (x.count ▸ tokens.some') ?_).imp ?_
  · change 12 * ((net.out (2 * v.expr + 1)).length + 1) + 10 ≤ fuel
    omega
  · rintro s w' ⟨hooks, exempting, raw⟩
    refine ⟨hooks, (x'.loop_filter compares exempting raw).imp ?_⟩
    rintro s' w'' ⟨hooks', rooted, opens⟩
    exact ⟨hooks'.trans hooks, rooted, opens⟩

theorem loop_follows (x : Expressive net v primary ops) (tokens : Tokens primary ops)
    (enough : 12 * (net.out (2 * v.expr + 1)).length + 22 ≤ fuel) (rooted : s.Rooted)
    (opens : ∀ q, s.At q ↔ Loops v p q) (asked : AskedAtLoop ops y) (evaluator : Guard.Evaluator η) (w : Scratch η) :
    Yields (reachSet ((v.loopSite net decision fuel).env evaluator) s y false) w fun r w' =>
      w'.hooks = w.hooks ∧ ∃ s', r = some s' ∧ s'.Rooted ∧ s'.Only (loopPlace v ops p y) := by
  have x' : Expressive ((v.loopSite net decision fuel).env evaluator).net v primary ops := x
  by_cases atEnd : y = endOfInput
  · subst atEnd
    obtain ⟨rest, isFuel⟩ : ∃ rest, fuel = rest + 4 := ⟨fuel - 4, by omega⟩
    refine reachSet_end rooted (fun c member => ?_) (fun q => x'.loop_moves_end tokens opens)
      (x.stop v.start x.knownStart).1 fun c here bottom w exempting => ?_
    · rcases (opens c.place).1 ⟨c, member, rfl⟩ with ⟨i, inside, -, same⟩ | same | ⟨i, inside, -, same⟩
      · exact (show c.state = _ from congrArg Place.state same) ▸ x'.tail_inner inside (by omega)
      · exact (show c.state = _ from congrArg Place.state same) ▸ x'.call_inner
      · exact (show c.state = _ from congrArg Place.state same) ▸ x'.tail_inner inside (by omega)
    · have gains := x'.end_gains (k := rest) (congrArg Place.state here) bottom exempting
      rw [show c.alt = 2 from congrArg Place.alt here, show c.guard = .always from congrArg Place.guard here,
        ← isFuel] at gains
      exact gains
  · obtain ⟨op, member, rfl⟩ := asked.resolve_left atEnd
    refine reachSet_only rooted atEnd (fun q => x'.loop_moves tokens opens member) ?_
    unfold loopPlace
    rw [if_neg atEnd]
    split <;> simp

/-- At the loop one token decides. -/
def loopSettling (x : Expressive net v primary ops) (tokens : Tokens primary ops) {decision fuel : Nat}
    (decides : Decides net v.entry decision) (enough : 12 * (net.out (2 * v.expr + 1)).length + 22 ≤ fuel) :
    Settling η (v.loopSite net decision fuel) where
  Opens p s := ∀ q, s.At q ↔ Loops v p q
  Asked x := x = endOfInput ∨ ∃ op ∈ ops, op.type = x
  place := loopPlace v ops
  alike opens alike q := (alike q).symm.trans (opens q)
  valid p y _ := x.loop_valid decides p y
  apart := x.loop_apart
  agree := x.loop_agree
  plain loop := by cases loop
  opens := x.loop_opens tokens enough
  follows := x.loop_follows tokens enough

end Loop

end Expressive

/-! ## The block of the tails -/

/-- The places with which the block begins. -/
def Branches (v : Sites) (q : Place) : Prop :=
  ∃ i < v.count, q = ⟨v.tail i + 2, i + 1, .precedence ((v.count : Int) - i)⟩

/-- Where a token leads from the block. -/
def blockPlace (v : Sites) (ops : List Infix) (x : Int) : Place :=
  ⟨v.tail (rank ops x) + 3, rank ops x + 1, .precedence ((v.count : Int) - rank ops x)⟩

namespace Expressive

variable {s : ConfigSet} {q : Place} {op : Infix}

theorem block_startSet (x : Expressive env.net v primary ops) (start : env.startState = v.block)
    (enough : 6 ≤ env.fuel) :
    Yields (startSet env .empty false) r fun s r' => r'.hooks = r.hooks ∧ s.Rooted ∧ ∀ q, s.At q ↔ Branches v q := by
  obtain ⟨fuel, isFuel⟩ : ∃ fuel, env.fuel = fuel + 6 := ⟨env.fuel - 6, by omega⟩
  have ways {t : Transition} {i : Nat} (member : (t, i) ∈ (env.net.out v.block).zipIdx) :
      i < v.count ∧ t = .epsilon (v.tail i) := by
    rw [List.mem_zipIdx_iff_getElem?, x.block_out] at member
    obtain ⟨j, found, rfl⟩ := Option.map_eq_some_iff.1 (List.getElem?_map .. ▸ member)
    obtain ⟨inside, here⟩ := List.getElem?_eq_some_iff.1 found
    rw [List.getElem_range] at here
    exact ⟨by simpa using inside, here ▸ rfl⟩
  unfold startSet
  change Yields ((env.net.out env.startState).zipIdx.foldlM _ _) _ _
  rw [start]
  refine (foldlM_extends (U := fun ti q => q = ⟨v.tail ti.2 + 2, ti.2 + 1, .precedence ((v.count : Int) - ti.2)⟩)
    (fun ti member s r rooted => ?_) ConfigSet.rooted_ofParser).imp fun s r' extends' =>
      ⟨extends'.hooks, extends'.rooted, fun q => ?_⟩
  · obtain ⟨t, i⟩ := ti
    obtain ⟨inside, rfl⟩ := ways member
    refine closureOf_yields ?_
    change Yields (closure env ahead env.fuel (thread (v.tail i) (i + 1) false 0) true 0 >>= fun _ => pure ()) _ _
    rw [bind_pure, isFuel]
    exact (x.tail_gains (c := thread (v.tail i) (i + 1) false 0) (w := { configs := s, scratch := r }) inside rfl rfl rfl
      (exempting_of_rooted rooted)).imp fun _ w gains => ⟨gains.exempting.toRooted, gains.hooks, gains.at_iff⟩
  · rw [extends'.at_iff, or_iff_right not_at_ofParser]
    constructor
    · rintro ⟨⟨t, i⟩, member, rfl⟩
      exact ⟨i, (ways member).1, rfl⟩
    · rintro ⟨i, inside, rfl⟩
      refine ⟨(.epsilon (v.tail i), i), List.mem_zipIdx_iff_getElem?.2 ?_, rfl⟩
      rw [x.block_out, List.getElem?_map, List.getElem?_range inside]
      rfl

theorem block_moves (x : Expressive env.net v primary ops) (tokens : Tokens primary ops)
    (opens : ∀ q, s.At q ↔ Branches v q) (member : op ∈ ops) : Moves env s op.type q ↔ q = blockPlace v ops op.type := by
  have known : rank ops op.type < v.count := x.count ▸ rank_lt member
  rw [moves_iff]
  constructor
  · rintro ⟨q₀, here, -, t, moved, rfl⟩
    obtain ⟨i, inside, rfl⟩ := (opens q₀).1 here
    obtain ⟨rfl, rfl⟩ := (x.tail_accepts tokens inside member).1 moved
    rfl
  · rintro rfl
    exact ⟨_, (opens _).2 ⟨_, known, rfl⟩, x.tail_inner known (by omega), _,
      (x.tail_accepts tokens known member).2 ⟨rfl, rfl⟩, rfl⟩

section Block

variable {decision fuel : Nat} {y : Int} {s : ConfigSet}

theorem block_valid (x : Expressive net v primary ops) (decides : Decides net v.block decision)
    (asked : ∃ op ∈ ops, op.type = y) : 1 ≤ (blockPlace v ops y).alt ∧
      (blockPlace v ops y).alt ≤ net.choices decision ∧ (blockPlace v ops y).guard.Normal := by
  obtain ⟨op, member, rfl⟩ := asked
  have known : rank ops op.type < v.count := x.count ▸ rank_lt member
  have several : net.choices decision = v.count := by
    rw [Network.choices, Network.decisionState, Array.getD_eq_getD_getElem?, decides.1]
    exact (congrArg List.length x.block_out).trans (by simp)
  exact ⟨Nat.succ_le_succ (Nat.zero_le _), several ▸ known, .precedence _⟩

theorem block_apart (x : Expressive net v primary ops) (tokens : Tokens primary ops)
    (opens : ∀ q, s.At q ↔ Branches v q) : ¬ s.Only (blockPlace v ops y) := by
  intro only
  have same := congrArg Place.state ((only _).1 ((opens _).2 ⟨0, x.count ▸ tokens.some', rfl⟩))
  obtain ⟨-, same⟩ := Sites.tail_inj same (by omega) (by omega)
  omega

theorem block_follows (x : Expressive net v primary ops) (tokens : Tokens primary ops) (rooted : s.Rooted)
    (opens : ∀ q, s.At q ↔ Branches v q) (asked : ∃ op ∈ ops, op.type = y) (evaluator : Guard.Evaluator η)
    (w : Scratch η) : Yields (reachSet ((v.blockSite net decision fuel).env evaluator) s y false) w fun r w' =>
      w'.hooks = w.hooks ∧ ∃ s', r = some s' ∧ s'.Rooted ∧ s'.Only (blockPlace v ops y) := by
  obtain ⟨op, member, rfl⟩ := asked
  have visible := tokens.visible.2 op member
  have x' : Expressive ((v.blockSite net decision fuel).env evaluator).net v primary ops := x
  exact reachSet_only rooted (by unfold endOfInput; omega) (fun q => x'.block_moves tokens opens member)
    (Nat.succ_le_succ (Nat.zero_le _))

/-- In the block of the tails one token decides. -/
def blockSettling (x : Expressive net v primary ops) (tokens : Tokens primary ops) {decision fuel : Nat}
    (decides : Decides net v.block decision) (enough : 6 ≤ fuel) : Settling η (v.blockSite net decision fuel) where
  Opens _ s := ∀ q, s.At q ↔ Branches v q
  Asked x := ∃ op ∈ ops, op.type = x
  place _ := blockPlace v ops
  alike opens alike q := (alike q).symm.trans (opens q)
  valid _ _ := x.block_valid decides
  apart _ := x.block_apart tokens
  agree _ _ _ := rfl
  plain _ _ _ _ opens := opens
  opens evaluator p compares w := by
    have x' : Expressive ((v.blockSite net decision fuel).env evaluator).net v primary ops := x
    exact x'.block_startSet rfl enough
  follows := x.block_follows tokens

end Block

end Expressive

end AdaptiveLL.Operators
