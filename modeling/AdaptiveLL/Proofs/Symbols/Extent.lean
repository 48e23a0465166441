import AdaptiveLL.Proofs.Symbols.Taking
import Mathlib.Data.Int.Interval
import Mathlib.Data.Set.Card

/-!
# The extent of a set of symbols

A canonical set ends where its members end, and it has as many of them as its intervals have symbols. What is left
when one set is taken from another, and what a set leaves out, is canonical again.
-/

set_option autoImplicit false

namespace AdaptiveLL.SymbolSet

variable {s t : SymbolSet} {rs : List (Int × Int)} {low : Int}

/-! ## Further operations -/

/-- Takes all intervals away. -/
def cutAll (s : SymbolSet) (rs : List (Int × Int)) : SymbolSet := rs.foldl (fun s r => s.cut r.1 r.2) s

theorem contains_cutAll (s : SymbolSet) (rs : List (Int × Int)) (v : Int) :
    (s.cutAll rs).contains v = true ↔ s.contains v = true ∧ ¬ Covers rs v := by
  induction rs generalizing s with
  | nil => simp [cutAll]
  | cons r rs ih =>
    have step : s.cutAll (r :: rs) = (s.cut r.1 r.2).cutAll rs := rfl
    rw [step, ih, contains_cut, covers_cons, not_or, and_assoc]

theorem Canonical.cutAll (canonical : s.Canonical) (inhabited : ∀ r ∈ rs, r.1 ≤ r.2) : (s.cutAll rs).Canonical := by
  induction rs generalizing s with
  | nil => exact canonical
  | cons r rs ih =>
    apply ih (canonical.cut (inhabited r (List.mem_cons_self ..)))
    intro r' member
    exact inhabited r' (List.mem_cons_of_mem _ member)

theorem contains_subtract (s t : SymbolSet) (v : Int) :
    (s.subtract t).contains v = true ↔ s.contains v = true ∧ ¬ t.contains v = true := by
  rw [contains_iff (s := t)]
  exact contains_cutAll s t.intervals v

theorem Canonical.subtract (canonical : s.Canonical) (canonical' : t.Canonical) : (s.subtract t).Canonical := by
  obtain ⟨low, ascends⟩ := canonical'
  exact canonical.cutAll ascends.inhabited

/-- The gaps behind `next` ascend from there. -/
theorem Ascends.gaps (ascends : Ascends low rs) (hi next : Int) : Ascends next (gaps hi next rs) := by
  have front (next' : Int) : Ascends next' (if next' ≤ hi then [(next', hi)] else []) := by
    split
    · exact .cons (Int.le_refl _) (by assumption) (.nil _)
    · exact .nil _
  induction ascends generalizing next with
  | nil low =>
    rw [SymbolSet.gaps]
    exact front next
  | @cons low a b rest above inhabited later ih =>
    rw [SymbolSet.gaps]
    split
    · exact ih next
    · split
      · exact front next
      · split
        · exact .cons (Int.le_refl _) (by omega) ((ih (b + 1)).mono (by omega))
        · exact (ih (b + 1)).mono (by omega)

theorem Canonical.complement (canonical : s.Canonical) (lo hi : Int) : (s.complement lo hi).Canonical := by
  obtain ⟨low, ascends⟩ := canonical
  exact ⟨lo, ascends.gaps hi lo⟩

/-! ## Least and greatest members -/

theorem Ascends.isLeast {a b : Int} (ascends : Ascends low ((a, b) :: rs)) :
    IsLeast { v | Covers ((a, b) :: rs) v } a := by
  cases ascends with
  | cons above inhabited later =>
    constructor
    · exact (covers_cons _ _ _).2 (.inl ⟨Int.le_refl a, inhabited⟩)
    · intro v covered
      exact (Ascends.cons (Int.le_refl a) inhabited later).le covered

theorem Ascends.isGreatest {r : Int × Int} (ascends : Ascends low rs) (last : rs.getLast? = some r) :
    IsGreatest { v | Covers rs v } r.2 := by
  induction ascends with
  | nil low => cases last
  | @cons low a b rest above inhabited later ih =>
    cases rest with
    | nil =>
      cases last
      constructor
      · exact (covers_singleton _ _).2 ⟨inhabited, Int.le_refl b⟩
      · intro v covered
        exact ((covers_singleton _ _).1 covered).2
    | cons next rest =>
      rw [List.getLast?_cons_cons] at last
      obtain ⟨reached, above'⟩ := ih last
      constructor
      · exact (covers_cons _ _ _).2 (.inr reached)
      · intro v covered
        rcases (covers_cons _ _ _).1 covered with ⟨-, before⟩ | behind
        · have := later.le reached
          exact Int.le_trans before (by omega)
        · exact above' behind

/-- The least member is where the first interval begins. -/
theorem Canonical.min?_eq_some (canonical : s.Canonical) (m : Int) :
    s.min? = some m ↔ IsLeast { v | s.contains v = true } m := by
  obtain ⟨low, ascends⟩ := canonical
  simp only [contains_iff]
  rw [min?]
  cases rs : s.intervals with
  | nil =>
    exact iff_of_false (by simp) fun least => covers_nil m least.1
  | cons r rest =>
    rw [rs] at ascends
    have least := ascends.isLeast
    simp only [List.head?_cons, Option.map_some, Option.some.injEq]
    constructor
    · rintro rfl
      exact least
    · exact least.unique

/-- The greatest member is where the last interval ends. -/
theorem Canonical.max?_eq_some (canonical : s.Canonical) (m : Int) :
    s.max? = some m ↔ IsGreatest { v | s.contains v = true } m := by
  obtain ⟨low, ascends⟩ := canonical
  simp only [contains_iff]
  rw [max?]
  cases last : s.intervals.getLast? with
  | none =>
    rw [List.getLast?_eq_none_iff.1 last]
    exact iff_of_false (by simp) fun greatest => covers_nil m greatest.1
  | some r =>
    have greatest := ascends.isGreatest last
    simp only [Option.map_some, Option.some.injEq]
    constructor
    · rintro rfl
      exact greatest
    · exact greatest.unique

/-! ## The number of members -/

/-- The number of symbols in intervals that do not overlap. -/
def sizes (rs : List (Int × Int)) : Nat := (rs.map intervalSize).sum

theorem size_eq (s : SymbolSet) : s.size = sizes s.intervals := by
  rw [size, sizes, List.sum_eq_foldl, List.foldl_map]

/-- The symbols from `lo` to `hi`. -/
def between (lo hi : Int) : Set Int := { v | lo ≤ v ∧ v ≤ hi }

theorem mem_between {lo hi v : Int} : v ∈ between lo hi ↔ lo ≤ v ∧ v ≤ hi := Iff.rfl

theorem finite_between (lo hi : Int) : (between lo hi).Finite := Set.finite_Icc lo hi

theorem ncard_between (lo hi : Int) : (between lo hi).ncard = intervalSize (lo, hi) := by
  have isIcc : between lo hi = ↑(Finset.Icc lo hi) := (Finset.coe_Icc lo hi).symm
  rw [isIcc, Set.ncard_coe_finset, Int.card_Icc, intervalSize]
  congr 1
  dsimp only
  omega

/-- The symbols of some intervals. -/
def symbols (rs : List (Int × Int)) : Set Int := { v | Covers rs v }

theorem symbols_nil : symbols [] = ∅ := by
  ext v
  exact iff_of_false (covers_nil v) (Set.notMem_empty v)

theorem symbols_cons (a b : Int) (rs : List (Int × Int)) : symbols ((a, b) :: rs) = between a b ∪ symbols rs := by
  ext v
  exact covers_cons (a, b) rs v

theorem finite_symbols (rs : List (Int × Int)) : (symbols rs).Finite := by
  induction rs with
  | nil =>
    rw [symbols_nil]
    exact Set.finite_empty
  | cons r rs ih =>
    rw [symbols_cons]
    exact (finite_between r.1 r.2).union ih

theorem Ascends.ncard_symbols (ascends : Ascends low rs) : (symbols rs).ncard = sizes rs := by
  induction ascends with
  | nil low =>
    rw [symbols_nil, Set.ncard_empty]
    rfl
  | @cons low a b rest above inhabited later ih =>
    have apart : Disjoint (between a b) (symbols rest) := by
      rw [Set.disjoint_left]
      intro v here there
      have := later.le there
      have := here.2
      omega
    calc (symbols ((a, b) :: rest)).ncard
      _ = (between a b).ncard + (symbols rest).ncard := by
        rw [symbols_cons, Set.ncard_union_eq apart (finite_between a b) (finite_symbols rest)]
      _ = intervalSize (a, b) + sizes rest := by rw [ncard_between, ih]
      _ = sizes ((a, b) :: rest) := by simp [sizes]

theorem members_eq (s : SymbolSet) : { v | s.contains v = true } = symbols s.intervals := by
  ext v
  exact contains_iff

/-- A canonical set has as many members as its size says. -/
theorem Canonical.size_eq_ncard (canonical : s.Canonical) : s.size = { v | s.contains v = true }.ncard := by
  obtain ⟨low, ascends⟩ := canonical
  rw [members_eq, ascends.ncard_symbols, size_eq]

end AdaptiveLL.SymbolSet
