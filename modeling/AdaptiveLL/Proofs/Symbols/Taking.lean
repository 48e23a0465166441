import AdaptiveLL.Proofs.Symbols.Canonical

/-!
# Taking symbols away

Taking a symbol away keeps a set canonical and takes away just this symbol (`contains_remove`). The gaps of a
canonical set between two symbols are the symbols there that it leaves out (`contains_complement`).
-/

set_option autoImplicit false

namespace AdaptiveLL.SymbolSet

variable {s : SymbolSet} {rs : List (Int × Int)} {low : Int}

theorem covers_append (rs rs' : List (Int × Int)) (v : Int) : Covers (rs ++ rs') v ↔ Covers rs v ∨ Covers rs' v := by
  simp only [Covers, List.mem_append, or_and_right, exists_or]

theorem covers_singleton (r : Int × Int) (v : Int) : Covers [r] v ↔ r.1 ≤ v ∧ v ≤ r.2 := by
  rw [covers_cons, or_iff_left (covers_nil v)]

/-- An interval that is listed as far as it has symbols. -/
theorem covers_inhabited {p : Prop} [Decidable p] {lo hi : Int} (inhabited : lo ≤ hi → p) (v : Int) :
    Covers (if p then [(lo, hi)] else []) v ↔ lo ≤ v ∧ v ≤ hi := by
  split
  · exact covers_singleton _ v
  · rename_i none
    exact iff_of_false (covers_nil v) fun both => none (inhabited (Int.le_trans both.1 both.2))

theorem contains_add (s : SymbolSet) (v w : Int) : (s.add v).contains w = true ↔ s.contains w = true ∨ w = v := by
  rw [add, contains_addRange]
  exact or_congr_right (by omega)

theorem contains_empty (v : Int) : empty.contains v = false := rfl

theorem Canonical.add (canonical : s.Canonical) (v : Int) : (s.add v).Canonical := canonical.addRange v v

theorem Canonical.union (canonical : s.Canonical) (t : SymbolSet) : (s.union t).Canonical := canonical.addRanges _

/-! ## Removing a symbol -/

theorem covers_cutInterval (lo hi : Int) (r : Int × Int) (v : Int) :
    Covers (cutInterval lo hi r) v ↔ (r.1 ≤ v ∧ v ≤ r.2) ∧ ¬ (lo ≤ v ∧ v ≤ hi) := by
  unfold cutInterval
  split
  · rw [covers_singleton]
    omega
  · rw [covers_append, covers_inhabited (by omega), covers_inhabited (by omega)]
    omega

/-- Takes the symbols from `lo` to `hi` away. -/
def cut (s : SymbolSet) (lo hi : Int) : SymbolSet := ⟨s.intervals.flatMap (cutInterval lo hi)⟩

theorem contains_cut (s : SymbolSet) (lo hi w : Int) :
    (s.cut lo hi).contains w = true ↔ s.contains w = true ∧ ¬ (lo ≤ w ∧ w ≤ hi) := by
  rw [contains_iff, contains_iff, cut]
  induction s.intervals with
  | nil => simp
  | cons r rs ih => rw [List.flatMap_cons, covers_append, covers_cutInterval, ih, covers_cons, or_and_right]

/-- What is left of the intervals begins no earlier, and it ascends. -/
theorem Ascends.cut (ascends : Ascends low rs) {lo hi : Int} (inhabited : lo ≤ hi) :
    Ascends low (rs.flatMap (cutInterval lo hi)) := by
  induction ascends with
  | nil low => exact .nil low
  | @cons low a b rest above inhabited' later ih =>
    rw [List.flatMap_cons]
    have behind {low' : Int} (le : low' ≤ b + 2) : Ascends low' (rest.flatMap (cutInterval lo hi)) := ih.mono le
    unfold cutInterval
    dsimp only
    split
    · exact .cons above inhabited' (behind (Int.le_refl _))
    · split
      · split
        · exact .cons above (by omega) (.cons (by omega) (by omega) (behind (Int.le_refl _)))
        · exact .cons above (by omega) (behind (by omega))
      · split
        · exact .cons (by omega) (by omega) (behind (Int.le_refl _))
        · exact behind (by omega)

theorem Canonical.cut (canonical : s.Canonical) {lo hi : Int} (inhabited : lo ≤ hi) : (s.cut lo hi).Canonical := by
  obtain ⟨low, ascends⟩ := canonical
  exact ⟨low, ascends.cut inhabited⟩

theorem contains_remove (s : SymbolSet) (v w : Int) :
    (s.remove v).contains w = true ↔ s.contains w = true ∧ w ≠ v := by
  rw [show s.remove v = s.cut v v from rfl, contains_cut]
  exact and_congr_right' (by omega)

theorem not_contains_remove (s : SymbolSet) (v : Int) : (s.remove v).contains v = false := by
  rw [← Bool.not_eq_true, contains_remove]
  exact fun both => both.2 rfl

theorem Canonical.remove (canonical : s.Canonical) (v : Int) : (s.remove v).Canonical :=
  canonical.cut (Int.le_refl v)

/-! ## Complements -/

theorem covers_gaps (hi next : Int) (ascends : Ascends low rs) (v : Int) :
    Covers (gaps hi next rs) v ↔ (next ≤ v ∧ v ≤ hi) ∧ ¬ Covers rs v := by
  induction ascends generalizing next with
  | nil low => rw [gaps, covers_inhabited id, and_iff_left (covers_nil v)]
  | @cons low a b rest above inhabited later ih =>
    -- Whatever the rest covers lies beyond the first interval.
    have beyond : Covers rest v → b + 2 ≤ v := later.le
    rw [gaps, covers_cons]
    split
    · rw [ih next]
      grind
    · split
      · rw [covers_inhabited id]
        grind
      · rw [covers_append, covers_inhabited (by omega), ih (b + 1)]
        grind

/-- The complement of a canonical set has the symbols between the ends that are left out. -/
theorem contains_complement (canonical : s.Canonical) (lo hi v : Int) :
    (s.complement lo hi).contains v = true ↔ (lo ≤ v ∧ v ≤ hi) ∧ s.contains v = false := by
  obtain ⟨low, ascends⟩ := canonical
  rw [contains_iff, complement, covers_gaps hi lo ascends, ← contains_iff, Bool.not_eq_true]

end AdaptiveLL.SymbolSet
