import AdaptiveLL.Guard
import Mathlib.Data.List.Sort
import Mathlib.Order.Compare

/-!
# The order of guards

Guards are ordered by their kind, then by their contents as words in a dictionary. This order is total and
tells different guards apart (`TransCmp order`, `LawfulEqCmp order`), so the operands of a connective, which
are kept in order and without repetitions, are determined by which guards there are among them
(`mem_ordered`, `pairwise_ordered`).
-/

set_option autoImplicit false

namespace AdaptiveLL.Guard

open Std (OrientedCmp TransCmp ReflCmp LawfulEqCmp)

/-! ## A total order -/

/-- Guards of different kinds are ordered by their kinds. -/
theorem order_of_rank_ne {a b : Guard} (differ : a.rank ≠ b.rank) : order a b = compare a.rank b.rank := by
  cases a <;> cases b <;> first | exact absurd rfl differ | rfl

mutual

theorem order_eq_swap (a b : Guard) : order a b = (order b a).swap := by
  by_cases same : a.rank = b.rank
  · cases a <;> cases b <;> cases same
    · rfl
    · simp only [order, Ordering.swap_then]
      exact congrArg₂ _ OrientedCmp.eq_swap (congrArg₂ _ OrientedCmp.eq_swap OrientedCmp.eq_swap)
    · simp only [order]
      exact OrientedCmp.eq_swap
    · exact orderList_eq_swap _ _
    · exact orderList_eq_swap _ _
  · rw [order_of_rank_ne same, order_of_rank_ne (Ne.symm same)]
    exact OrientedCmp.eq_swap

theorem orderList_eq_swap (gs hs : List Guard) : orderList gs hs = (orderList hs gs).swap := by
  match gs, hs with
  | [], [] | [], _ :: _ | _ :: _, [] => rfl
  | g :: gs, h :: hs =>
    simp only [orderList, Ordering.swap_then]
    exact congrArg₂ _ (order_eq_swap g h) (orderList_eq_swap gs hs)

end

mutual

/-- Guards between which the order does not decide are the same. -/
theorem eq_of_order {a b : Guard} (tie : order a b = .eq) : a = b := by
  by_cases same : a.rank = b.rank
  · cases a <;> cases b <;> cases same
    · rfl
    · simp only [order, Ordering.then_eq_eq, LawfulEqCmp.compare_eq_iff_eq] at tie
      rw [tie.1, tie.2.1, tie.2.2]
    · simp only [order, LawfulEqCmp.compare_eq_iff_eq] at tie
      rw [tie]
    · exact congrArg all (eq_of_orderList tie)
    · exact congrArg any (eq_of_orderList tie)
  · rw [order_of_rank_ne same] at tie
    exact absurd (LawfulEqCmp.eq_of_compare tie) same

theorem eq_of_orderList {gs hs : List Guard} (tie : orderList gs hs = .eq) : gs = hs := by
  match gs, hs with
  | [], [] => rfl
  | g :: gs, h :: hs =>
    simp only [orderList, Ordering.then_eq_eq] at tie
    rw [eq_of_order tie.1, eq_of_orderList tie.2]

end

mutual

theorem order_self (a : Guard) : order a a = .eq := by
  cases a with
  | always => rfl
  | predicate r p c => simp [order]
  | precedence p => simp [order]
  | all gs => exact orderList_self gs
  | any gs => exact orderList_self gs

theorem orderList_self (gs : List Guard) : orderList gs gs = .eq := by
  match gs with
  | [] => rfl
  | g :: gs => simp only [orderList, order_self g, orderList_self gs, Ordering.then_eq_eq, and_self]

end

/-- What comes first in a comparison decides, and only a tie is settled by what comes after. -/
theorem then_isLE_trans {α : Type} {cmp : α → α → Ordering} {x y z : α} {p q r : Ordering}
    (swap : cmp y x = (cmp x y).swap) (eq : ∀ {x y}, cmp x y = .eq → x = y)
    (trans : (cmp x y).isLE → (cmp y z).isLE → (cmp x z).isLE) (later : p.isLE → q.isLE → r.isLE)
    (first : ((cmp x y).then p).isLE) (second : ((cmp y z).then q).isLE) :
    ((cmp x z).then r).isLE := by
  cases left : cmp x y with
  | gt => simp [left] at first
  | eq =>
    obtain rfl := eq left
    cases right : cmp x z with
    | gt => simp [right] at second
    | lt => rfl
    | eq =>
      rw [left] at first
      rw [right] at second
      exact later first second
  | lt =>
    have behind : (cmp x z).isLE := by
      refine trans (by rw [left]; rfl) ?_
      cases right : cmp y z with
      | gt => simp [right] at second
      | lt | eq => rfl
    cases straight : cmp x z with
    | gt => simp [straight] at behind
    | lt => rfl
    | eq =>
      -- the ends are the same, so the second step would lead back
      obtain rfl := eq straight
      rw [swap, left] at second
      simp at second

/-- The same for parts that are ordered lawfully. -/
theorem compare_then_isLE_trans {α : Type} [Ord α] [Std.TransOrd α] [Std.LawfulEqOrd α] {x y z : α}
    {p q r : Ordering} (later : p.isLE → q.isLE → r.isLE) (first : ((compare x y).then p).isLE)
    (second : ((compare y z).then q).isLE) : ((compare x z).then r).isLE :=
  then_isLE_trans OrientedCmp.eq_swap LawfulEqCmp.eq_of_compare TransCmp.isLE_trans later first second

theorem rank_le_of_isLE {a b : Guard} (le : (order a b).isLE) : a.rank ≤ b.rank := by
  by_cases same : a.rank = b.rank
  · exact same.le
  · rw [order_of_rank_ne same] at le
    exact Nat.isLE_compare.1 le

mutual

theorem order_isLE_trans {a b c : Guard} (first : (order a b).isLE) (second : (order b c).isLE) :
    (order a c).isLE := by
  by_cases same : a.rank = b.rank ∧ b.rank = c.rank
  · obtain ⟨sameAB, sameBC⟩ := same
    cases a <;> cases b <;> cases sameAB <;> cases c <;> cases sameBC
    · rfl
    · exact compare_then_isLE_trans (compare_then_isLE_trans TransCmp.isLE_trans) first second
    · simp only [order] at first second ⊢
      exact TransCmp.isLE_trans first second
    · exact orderList_isLE_trans first second
    · exact orderList_isLE_trans first second
  · have ascends := rank_le_of_isLE first
    have ascends' := rank_le_of_isLE second
    rw [order_of_rank_ne (by omega)]
    exact Nat.isLE_compare.2 (by omega)

theorem orderList_isLE_trans {gs hs ks : List Guard} (first : (orderList gs hs).isLE)
    (second : (orderList hs ks).isLE) : (orderList gs ks).isLE := by
  match gs, hs, ks with
  | [], _, [] | [], _, _ :: _ => rfl
  | g :: gs, h :: hs, k :: ks =>
    exact then_isLE_trans (order_eq_swap h g) eq_of_order order_isLE_trans orderList_isLE_trans first second

end

instance : TransCmp order where
  eq_swap {a b} := order_eq_swap a b
  isLE_trans := order_isLE_trans

instance : LawfulEqCmp order where
  compare_self {a} := order_self a
  eq_of_compare := eq_of_order

/-! ## Lists in order and without repetitions -/

/-- The first guard comes before the second. -/
def Before (a b : Guard) : Prop := order a b = .lt

instance : Std.Irrefl Before where
  irrefl a before := by
    rw [Before, order_self] at before
    cases before

instance : Std.Antisymm Before where
  antisymm a b before behind := by
    rw [Before, order_eq_swap, behind] at before
    cases before

theorem Before.trans {a b c : Guard} (first : Before a b) (second : Before b c) : Before a c :=
  TransCmp.lt_trans first second

theorem mem_insertOrdered {g h : Guard} {gs : List Guard} : h ∈ insertOrdered g gs ↔ h = g ∨ h ∈ gs := by
  induction gs with
  | nil => simp [insertOrdered]
  | cons k gs ih =>
    unfold insertOrdered
    split
    · exact List.mem_cons
    · rename_i tie
      rw [eq_of_order tie]
      simp
    · simp only [List.mem_cons, ih]
      exact or_left_comm

theorem pairwise_insertOrdered {g : Guard} {gs : List Guard} (ascends : gs.Pairwise Before) :
    (insertOrdered g gs).Pairwise Before := by
  induction gs with
  | nil => simp [insertOrdered]
  | cons k gs ih =>
    obtain ⟨first, later⟩ := List.pairwise_cons.1 ascends
    unfold insertOrdered
    split
    · rename_i before
      refine List.pairwise_cons.2 ⟨fun h member => ?_, ascends⟩
      rcases List.mem_cons.1 member with rfl | member
      · exact before
      · exact Before.trans before (first h member)
    · exact ascends
    · rename_i behind
      refine List.pairwise_cons.2 ⟨fun h member => ?_, ih later⟩
      rcases mem_insertOrdered.1 member with rfl | member
      · exact OrientedCmp.lt_of_gt behind
      · exact first h member

@[simp]
theorem mem_ordered {h : Guard} {gs : List Guard} : h ∈ ordered gs ↔ h ∈ gs := by
  induction gs with
  | nil => exact Iff.rfl
  | cons g gs ih =>
    rw [ordered, List.foldr_cons, mem_insertOrdered, ← ordered, ih, List.mem_cons]

theorem pairwise_ordered (gs : List Guard) : (ordered gs).Pairwise Before := by
  induction gs with
  | nil => exact .nil
  | cons g gs ih => exact pairwise_insertOrdered ih

end AdaptiveLL.Guard
