import AdaptiveLL.Proofs.Network.Looking
import AdaptiveLL.Proofs.Operators.Starting

/-!
# What may come next in an expression

Before a decision a parser compares the current token with those that can come next. In the block of the tails
these are the tokens of the operators (`nextTokens_block`). Behind an operand the end of the rule can be reached,
so that any token may come (`nextTokens_entry`).
-/

set_option autoImplicit false

namespace AdaptiveLL.Operators

open Network Layout

variable {net : Network} {v : Sites} {primary : Int} {ops : List Infix} {bottom : Int} {fuel : Nat} {acc : Look}

/-! ## The tails -/

namespace Expressive

/-- The walk passes through a tail to the token of its operator. -/
theorem look_tail (x : Expressive net v primary ops) {i : Nat} (inside : i < v.count)
    (fresh : ∀ j < 3, acc.seen.contains (v.tail i + j, []) = false) :
    (∀ m, (net.look bottom (fuel + 3) (v.tail i) [] [] acc).seen.contains (m, []) = true →
      acc.seen.contains (m, []) = true ∨ ∃ j < 3, m = v.tail i + j) ∧
    ∀ y, (acc.found.contains y = true ∨ ∃ op, ops[i]? = some op ∧ op.type = y) →
      (net.look bottom (fuel + 3) (v.tail i) [] [] acc).found.contains y = true := by
  obtain ⟨op, found, tail⟩ := x.tail inside
  have new₀ : acc.seen.contains (v.tail i, []) = false := fresh 0 (by omega)
  have new₁ : (acc.enter (v.tail i)).seen.contains (v.tail i + 1, []) = false := by
    refine Bool.eq_false_iff.2 fun seen => ?_
    rcases Look.seen_enter.1 seen with same | before
    · omega
    · cases (fresh 1 (by omega)).symm.trans before
  have new₂ : ((acc.enter (v.tail i)).enter (v.tail i + 1)).seen.contains (v.tail i + 2, []) = false := by
    refine Bool.eq_false_iff.2 fun seen => ?_
    rcases Look.seen_enter.1 seen with same | before
    · omega
    rcases Look.seen_enter.1 before with same | before
    · omega
    · cases (fresh 2 (by omega)).symm.trans before
  rw [look_one new₀ (x.tail_inner inside (j := 0) (by omega)) tail.guard (.inr ⟨_, rfl⟩),
    look_one new₁ (x.tail_inner inside (by omega)) tail.guarded (.inl ⟨_, rfl⟩),
    look_token new₂ (x.tail_inner inside (by omega)) tail.token]
  refine ⟨fun m seen => ?_, fun y wanted => (SymbolSet.contains_union _ _ _).2 (wanted.imp id ?_)⟩
  · rcases Look.seen_enter.1 seen with same | before
    · exact .inr ⟨2, by omega, same.symm⟩
    rcases Look.seen_enter.1 before with same | before
    · exact .inr ⟨1, by omega, same.symm⟩
    rcases Look.seen_enter.1 before with same | before
    · exact .inr ⟨0, by omega, same.symm⟩
    · exact .inl before
  · rintro ⟨op', found', same⟩
    obtain rfl := Option.some.inj (found.symm.trans found')
    exact (SymbolSet.contains_singleton _ _).2 same.symm

theorem look_tails (x : Expressive net v primary ops) (l : List Nat) (distinct : l.Nodup)
    (inside : ∀ i ∈ l, i < v.count)
    (fresh : ∀ i ∈ l, ∀ j < 3, acc.seen.contains (v.tail i + j, []) = false) :
    (∀ m, (l.foldl (fun acc i => net.look bottom (fuel + 3) (v.tail i) [] [] acc) acc).seen.contains (m, []) = true →
      acc.seen.contains (m, []) = true ∨ ∃ i ∈ l, ∃ j < 3, m = v.tail i + j) ∧
    ∀ y, (acc.found.contains y = true ∨ ∃ i ∈ l, ∃ op, ops[i]? = some op ∧ op.type = y) →
      (l.foldl (fun acc i => net.look bottom (fuel + 3) (v.tail i) [] [] acc) acc).found.contains y = true := by
  induction l generalizing acc with
  | nil => exact ⟨fun m seen => .inl seen, fun y found => found.elim id (by simp)⟩
  | cons i l ih =>
    obtain ⟨apart, distinct⟩ := List.nodup_cons.1 distinct
    obtain ⟨seenHere, foundHere⟩ := x.look_tail (inside i List.mem_cons_self) (fresh i List.mem_cons_self)
    obtain ⟨seen, found⟩ := ih distinct (fun k member => inside k (List.mem_cons_of_mem _ member))
      fun k member j few => by
      refine Bool.eq_false_iff.2 fun seen => ?_
      rcases seenHere _ seen with before | ⟨j', few', same⟩
      · cases (fresh k (List.mem_cons_of_mem _ member) j few).symm.trans before
      · obtain ⟨rfl, -⟩ := Sites.tail_inj same (by omega) (by omega)
        exact apart member
    refine ⟨fun m last => ?_, fun y wanted => found y ?_⟩
    · rcases seen m last with before | ⟨k, member, j, few, same⟩
      · exact (seenHere m before).imp id fun ⟨j, few, same⟩ => ⟨i, List.mem_cons_self, j, few, same⟩
      · exact .inr ⟨k, List.mem_cons_of_mem _ member, j, few, same⟩
    · rcases wanted with before | ⟨k, _ | ⟨_, member⟩, op, here⟩
      · exact .inl (foundHere y (.inl before))
      · exact .inl (foundHere y (.inr ⟨op, here⟩))
      · exact .inr ⟨k, member, op, here⟩

/-- From the block the walk comes to the tokens of all operators and stays within the block. -/
theorem look_block (x : Expressive net v primary ops) (fresh : acc.seen.contains (v.block, []) = false)
    (new : ∀ i < v.count, ∀ j < 3, acc.seen.contains (v.tail i + j, []) = false) :
    (∀ m, (net.look bottom (fuel + 4) v.block [] [] acc).seen.contains (m, []) = true →
      acc.seen.contains (m, []) = true ∨ v.operand ≤ m ∧ m ≤ v.block) ∧
    ∀ op ∈ ops, (net.look bottom (fuel + 4) v.block [] [] acc).found.contains op.type = true := by
  have block := v.block_eq
  have inner : net.isStop v.block = false := x.inner (by omega) (by omega)
  have walked : net.look bottom (fuel + 4) v.block [] [] acc =
      (List.range v.count).foldl (fun acc i => net.look bottom (fuel + 3) (v.tail i) [] [] acc) (acc.enter v.block) := by
    rw [look_free fresh inner, x.block_out, List.foldl_map]
    · rfl
    · rw [x.block_out]
      intro t member
      obtain ⟨i, -, rfl⟩ := List.mem_map.1 member
      exact .inl ⟨_, rfl⟩
  have fresh' : ∀ i ∈ List.range v.count, ∀ j < 3, (acc.enter v.block).seen.contains (v.tail i + j, []) = false :=
    fun i member j few => by
      refine Bool.eq_false_iff.2 fun seen => ?_
      rcases Look.seen_enter.1 seen with same | before
      · have := List.mem_range.1 member
        simp only [Sites.tail, tailAt] at same
        omega
      · cases (new i (List.mem_range.1 member) j few).symm.trans before
  obtain ⟨seen, found⟩ := x.look_tails (List.range v.count) List.nodup_range (fun i => List.mem_range.1) fresh'
  rw [walked]
  refine ⟨fun m last => ?_, fun op member => found _ ?_⟩
  · rcases seen m last with before | ⟨i, member, j, few, same⟩
    · rcases Look.seen_enter.1 before with same | before
      · exact .inr (by omega)
      · exact .inl before
    · have := List.mem_range.1 member
      simp only [Sites.tail, tailAt] at same
      exact .inr (by omega)
  · obtain ⟨i, here⟩ := List.mem_iff_getElem?.1 member
    exact .inr ⟨i, List.mem_range.2 (x.count ▸ (List.getElem?_eq_some_iff.1 here).1), op, here, rfl⟩

/-- The bound on walks is not small. -/
theorem lookBound_ge (x : Expressive net v primary ops) : 7 ≤ net.lookBound 0 := by
  have some' : 0 < net.states.size := by
    refine Nat.pos_of_ne_zero fun none' => ?_
    have stop := (x.stop v.expr x.knownExpr).1
    rw [Network.isStop, Network.state, Array.getD_eq_getD_getElem?, Array.getElem?_eq_none (by omega)] at stop
    cases stop
  rw [lookBound, x.numRules]
  calc 7 ≤ 2 ^ 4 := by decide
    _ ≤ (net.states.size + 1) ^ 4 := Nat.pow_le_pow_left (by omega) 4

theorem nextTokens_block (x : Expressive net v primary ops) {op : Infix} (member : op ∈ ops) :
    (net.nextTokens v.block).contains op.type = true := by
  obtain ⟨fuel, isBound⟩ : ∃ fuel, net.lookBound 0 = fuel + 4 := ⟨net.lookBound 0 - 4, by have := x.lookBound_ge; omega⟩
  rw [nextTokens, isBound]
  exact (x.look_block (by simp) fun _ _ _ _ => by simp).2 op member

theorem nextTokens_entry (x : Expressive net v primary ops) :
    (net.nextTokens v.entry).contains epsilonSymbol = true := by
  obtain ⟨fuel, isBound⟩ : ∃ fuel, net.lookBound 0 = fuel + 5 := ⟨net.lookBound 0 - 5, by have := x.lookBound_ge; omega⟩
  have block := v.block_eq
  have isEntry : v.entry = v.block + 2 := rfl
  have isExit : v.exit = v.block + 4 := rfl
  have begun {m : Nat} : (({} : Look).enter v.entry).seen.contains (m, []) = true ↔ v.entry = m := by
    rw [Look.seen_enter]
    simp
  rw [nextTokens, isBound, look_free (by simp) (x.inner (n := v.entry) (by omega) (by omega))
    (by rw [x.entry_out]; simp [Transition.epsilon]), x.entry_out]
  simp only [List.foldl_cons, List.foldl_nil, Transition.epsilon]
  -- The walk through the block sees neither the exit nor the end of the rule.
  have kept (m : Nat) :
      (net.look epsilonSymbol (fuel + 4) v.block [] [] (({} : Look).enter v.entry)).seen.contains (m, []) = true →
      (({} : Look).enter v.entry).seen.contains (m, []) = true ∨ v.operand ≤ m ∧ m ≤ v.block := by
    refine (x.look_block (Bool.eq_false_iff.2 fun seen => ?_) fun i inside j few => Bool.eq_false_iff.2 fun seen => ?_).1 m
    · have := begun.1 seen
      omega
    · have := begun.1 seen
      simp only [Sites.tail, tailAt] at this
      omega
  have outside {m : Nat} (high : m < v.operand ∨ v.block < m) (other : v.entry ≠ m) :
      (net.look epsilonSymbol (fuel + 4) v.block [] [] (({} : Look).enter v.entry)).seen.contains (m, []) = false := by
    refine Bool.eq_false_iff.2 fun seen => ?_
    rcases kept m seen with before | within
    · exact other (begun.1 before)
    · omega
  have stop := (x.stop v.expr x.knownExpr).1
  have apart {m : Nat} (low : v.operand ≤ m) (high : m < v.block + 5) : m ≠ 2 * v.expr + 1 := by
    rintro rfl
    cases stop.symm.trans (x.inner low high)
  rw [look_one (outside (.inr (by omega)) (by omega)) (x.inner (n := v.exit) (by omega) (by omega)) x.leaveExpr
    (.inl ⟨none, rfl⟩)]
  refine look_end (Bool.eq_false_iff.2 fun seen => ?_) stop
  rcases Look.seen_enter.1 seen with same | before
  · exact apart (by omega) (by omega) same
  · have absent := outside (m := 2 * v.expr + 1) (by
      by_contra within
      exact apart (m := 2 * v.expr + 1) (by omega) (by omega) rfl) (apart (by omega) (by omega))
    cases absent.symm.trans before

end Expressive

end AdaptiveLL.Operators
