import AdaptiveLL.Network.Basic
import Mathlib.Tactic.Common

/-!
# Canonical sets of symbols

A set is canonical when its intervals are inhabited, ascend, and leave out at least one symbol between
each other. Adding symbols keeps a set canonical and adds just these symbols. A canonical set is
determined by its members (`Canonical.ext`), so whatever collects the members of a canonical set again,
in any order and with any overlap, arrives at the same list of intervals.
-/

set_option autoImplicit false

namespace AdaptiveLL.SymbolSet

/-! ## Intervals -/

/-- The symbol lies in one of the intervals. -/
def Covers (rs : List (Int × Int)) (v : Int) : Prop := ∃ r ∈ rs, r.1 ≤ v ∧ v ≤ r.2

/-- Inhabited, ascending intervals with gaps between them, none of which begins before `low`. -/
inductive Ascends : Int → List (Int × Int) → Prop
  | nil (low : Int) : Ascends low []
  | cons {low a b : Int} {rest : List (Int × Int)} (above : low ≤ a) (inhabited : a ≤ b)
      (later : Ascends (b + 2) rest) : Ascends low ((a, b) :: rest)

@[simp]
theorem covers_nil (v : Int) : ¬ Covers [] v := by simp [Covers]

@[simp]
theorem covers_cons (r : Int × Int) (rs : List (Int × Int)) (v : Int) :
    Covers (r :: rs) v ↔ (r.1 ≤ v ∧ v ≤ r.2) ∨ Covers rs v := by
  simp [Covers]

theorem contains_iff {s : SymbolSet} {v : Int} : s.contains v = true ↔ Covers s.intervals v := by
  simp [contains, Covers]

theorem Ascends.mono {low low' : Int} {rs : List (Int × Int)} (ascends : Ascends low rs)
    (le : low' ≤ low) : Ascends low' rs := by
  cases ascends with
  | nil => exact .nil low'
  | cons above inhabited later => exact .cons (Int.le_trans le above) inhabited later

theorem Ascends.le {low v : Int} {rs : List (Int × Int)} (ascends : Ascends low rs)
    (covered : Covers rs v) : low ≤ v := by
  induction ascends with
  | nil => exact absurd covered (covers_nil v)
  | cons above inhabited later ih =>
    rcases (covers_cons _ _ _).1 covered with ⟨here, -⟩ | there
    · exact Int.le_trans above here
    · have := ih there
      omega

theorem Ascends.inhabited {low : Int} {rs : List (Int × Int)} (ascends : Ascends low rs) :
    ∀ r ∈ rs, r.1 ≤ r.2 := by
  induction ascends with
  | nil => simp
  | cons above inhabited later ih =>
    intro r member
    rcases List.mem_cons.1 member with rfl | there
    · exact inhabited
    · exact ih r there

/-- Ascending intervals are determined by the symbols they cover. -/
theorem Ascends.ext {low low' : Int} {rs rs' : List (Int × Int)} (ascends : Ascends low rs)
    (ascends' : Ascends low' rs') (same : ∀ v, Covers rs v ↔ Covers rs' v) : rs = rs' := by
  induction ascends generalizing low' rs' with
  | nil =>
    cases ascends' with
    | nil => rfl
    | @cons _ a b rest above inhabited later =>
      exact absurd ((same a).2 ((covers_cons _ _ _).2 (.inl ⟨Int.le_refl a, inhabited⟩))) (covers_nil a)
  | @cons low a b rest above inhabited later ih =>
    cases ascends' with
    | nil =>
      exact absurd ((same a).1 ((covers_cons _ _ _).2 (.inl ⟨Int.le_refl a, inhabited⟩))) (covers_nil a)
    | @cons _ c d rest' above' inhabited' later' =>
      simp only [covers_cons] at same
      -- Both lists cover the same least symbol, and the first gap is at the same place.
      have first : a = c := by
        rcases (same a).1 (.inl ⟨Int.le_refl a, inhabited⟩) with here | there
        · rcases (same c).2 (.inl ⟨Int.le_refl c, inhabited'⟩) with here' | there'
          · omega
          · have := later.le there'
            omega
        · have := later'.le there
          rcases (same c).2 (.inl ⟨Int.le_refl c, inhabited'⟩) with here' | there'
          · omega
          · have := later.le there'
            omega
      have last : b = d := by
        by_contra other
        rcases Int.lt_or_gt_of_ne other with below | above
        · rcases (same (b + 1)).2 (.inl ⟨by omega, by omega⟩) with here | there
          · omega
          · have := later.le there
            omega
        · rcases (same (d + 1)).1 (.inl ⟨by omega, by omega⟩) with here | there
          · omega
          · have := later'.le there
            omega
      subst first last
      rw [ih later' fun v => ⟨fun covered => ?_, fun covered => ?_⟩]
      · refine ((same v).1 (.inr covered)).resolve_left ?_
        have := later.le covered
        omega
      · refine ((same v).2 (.inr covered)).resolve_left ?_
        have := later'.le covered
        omega

/-! ## Adding symbols -/

theorem covers_insertInterval (lo hi : Int) (rs : List (Int × Int)) (v : Int) (inhabited : lo ≤ hi) :
    Covers (insertInterval lo hi rs) v ↔ (lo ≤ v ∧ v ≤ hi) ∨ Covers rs v := by
  fun_induction insertInterval lo hi rs with
  | case1 => simp
  | case2 lo hi a b rest apart ih =>
    simp only [covers_cons, ih inhabited]
    exact or_left_comm
  | case3 lo hi a b rest before behind => simp
  | case4 lo hi a b rest before behind ih =>
    rw [ih (by omega), covers_cons, ← or_assoc]
    -- Intervals that overlap or touch cover together what lies between their outer ends.
    refine or_congr ⟨fun inside => ?_, fun inside => ?_⟩ Iff.rfl
    · dsimp only
      omega
    · dsimp only at inside
      omega

theorem Ascends.insertInterval {low lo hi : Int} {rs : List (Int × Int)} (ascends : Ascends low rs)
    (above : low ≤ lo) (inhabited : lo ≤ hi) : Ascends low (insertInterval lo hi rs) := by
  fun_induction SymbolSet.insertInterval lo hi rs generalizing low with
  | case1 lo hi => exact .cons above inhabited (.nil _)
  | case2 lo hi a b rest apart ih =>
    cases ascends with
    | cons above' inhabited' later => exact .cons above' inhabited' (ih later (by omega) inhabited)
  | case3 lo hi a b rest before behind =>
    cases ascends with
    | cons above' inhabited' later =>
      exact .cons above inhabited (.cons (by omega) inhabited' later)
  | case4 lo hi a b rest before behind ih =>
    cases ascends with
    | cons above' inhabited' later =>
      exact ih (later.mono (by omega)) (by omega) (by omega)

/-- The intervals of the set are inhabited, ascend and have gaps between them. -/
def Canonical (s : SymbolSet) : Prop := ∃ low, Ascends low s.intervals

theorem canonical_empty : empty.Canonical := ⟨0, .nil 0⟩

theorem Canonical.ext {s t : SymbolSet} (canonical : s.Canonical) (canonical' : t.Canonical)
    (same : ∀ v, s.contains v = true ↔ t.contains v = true) : s = t := by
  obtain ⟨low, ascends⟩ := canonical
  obtain ⟨low', ascends'⟩ := canonical'
  have intervals : s.intervals = t.intervals :=
    ascends.ext ascends' fun v => by rw [← contains_iff, ← contains_iff, same]
  obtain ⟨rs⟩ := s
  obtain ⟨rs'⟩ := t
  exact congrArg SymbolSet.mk intervals

theorem Canonical.addRange {s : SymbolSet} (canonical : s.Canonical) (lo hi : Int) :
    (s.addRange lo hi).Canonical := by
  unfold SymbolSet.addRange
  split
  · exact canonical
  · obtain ⟨low, ascends⟩ := canonical
    exact ⟨min low lo, (ascends.mono (by omega)).insertInterval (by omega) (by omega)⟩

theorem contains_addRange (s : SymbolSet) (lo hi v : Int) :
    (s.addRange lo hi).contains v = true ↔ s.contains v = true ∨ (lo ≤ v ∧ v ≤ hi) := by
  unfold addRange
  split
  · refine ⟨.inl, fun found => found.resolve_right ?_⟩
    omega
  · rw [contains_iff, contains_iff, covers_insertInterval _ _ _ _ (by omega), or_comm]

theorem contains_ofRange (lo hi v : Int) : (ofRange lo hi).contains v = true ↔ lo ≤ v ∧ v ≤ hi := by
  rw [ofRange, contains_addRange]
  simp [contains, empty]

theorem contains_singleton (v w : Int) : (singleton v).contains w = true ↔ w = v := by
  rw [singleton, contains_ofRange]
  omega

theorem canonical_ofRange (lo hi : Int) : (ofRange lo hi).Canonical := canonical_empty.addRange lo hi

/-- Adds all intervals. -/
def addRanges (s : SymbolSet) (rs : List (Int × Int)) : SymbolSet :=
  rs.foldl (fun s r => s.addRange r.1 r.2) s

theorem Canonical.addRanges {s : SymbolSet} (canonical : s.Canonical) (rs : List (Int × Int)) :
    (s.addRanges rs).Canonical := by
  induction rs generalizing s with
  | nil => exact canonical
  | cons r rs ih => exact ih (canonical.addRange r.1 r.2)

theorem contains_addRanges (s : SymbolSet) (rs : List (Int × Int)) (v : Int) :
    (s.addRanges rs).contains v = true ↔ s.contains v = true ∨ Covers rs v := by
  induction rs generalizing s with
  | nil => simp [addRanges]
  | cons r rs ih =>
    have step : s.addRanges (r :: rs) = (s.addRange r.1 r.2).addRanges rs := rfl
    rw [step, ih, contains_addRange, covers_cons, or_assoc]

theorem contains_union (s t : SymbolSet) (v : Int) :
    (s.union t).contains v = true ↔ s.contains v = true ∨ t.contains v = true := by
  rw [contains_iff (s := t)]
  exact contains_addRanges s t.intervals v

/-! ## Sets of 32-bit symbols -/

/-- A canonical set whose symbols are signed numbers of 32 bits. -/
structure Proper (s : SymbolSet) : Prop where
  canonical : s.Canonical
  low : ∀ v, s.contains v = true → -2147483648 ≤ v
  high : ∀ v, s.contains v = true → v < 2147483648

/-- The ends of the intervals of a canonical set are members. -/
theorem Canonical.ends_mem {s : SymbolSet} (canonical : s.Canonical) {r : Int × Int}
    (member : r ∈ s.intervals) : s.contains r.1 = true ∧ s.contains r.2 = true := by
  obtain ⟨low, ascends⟩ := canonical
  have inhabited := ascends.inhabited r member
  exact ⟨contains_iff.2 ⟨r, member, Int.le_refl _, inhabited⟩,
    contains_iff.2 ⟨r, member, inhabited, Int.le_refl _⟩⟩

theorem Proper.ends {s : SymbolSet} (proper : s.Proper) {r : Int × Int} (member : r ∈ s.intervals) :
    (-2147483648 ≤ r.1 ∧ r.1 < 2147483648) ∧ -2147483648 ≤ r.2 ∧ r.2 < 2147483648 := by
  obtain ⟨first, last⟩ := proper.canonical.ends_mem member
  exact ⟨⟨proper.low _ first, proper.high _ first⟩, proper.low _ last, proper.high _ last⟩

end AdaptiveLL.SymbolSet
