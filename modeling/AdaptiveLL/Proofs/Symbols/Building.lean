import AdaptiveLL.Proofs.Symbols.Checked

/-!
# Sets of 32-bit symbols

Whatever sequence of operations builds a set of 32-bit symbols, from any arguments, the set represents the members
that the same operations on mathematical sets give, no number on the way leaves its width, and two sets built so
are the same list of intervals exactly when they have the same members (`Building.represents_members`).
-/

set_option autoImplicit false

namespace AdaptiveLL.SymbolSet

/-- How a set is built by operations on 32-bit symbols. -/
inductive Building where
  | empty
  | single (v : Int32)
  | range (lo hi : Int32)
  | ranges (rs : List (Int32 × Int32))
  | add (b : Building) (v : Int32)
  | addRange (b : Building) (lo hi : Int32)
  | union (b c : Building)
  | remove (b : Building) (v : Int32)
  | complement (b : Building) (lo hi : Int32)
  | subtract (b c : Building)

namespace Building

/-- The ends of a range as whole numbers. -/
def wide (r : Int32 × Int32) : Int × Int := (r.1.toInt, r.2.toInt)

/-- The set that is built. -/
def set : Building → SymbolSet
  | empty => SymbolSet.empty
  | single v => singleton v.toInt
  | range lo hi => ofRange lo.toInt hi.toInt
  | ranges rs => ofRanges (rs.map wide)
  | add b v => b.set.add v.toInt
  | addRange b lo hi => b.set.addRange lo.toInt hi.toInt
  | union b c => b.set.union c.set
  | remove b v => b.set.remove v.toInt
  | complement b lo hi => b.set.complement lo.toInt hi.toInt
  | subtract b c => b.set.subtract c.set

/-- The set that is built with checks. -/
def checked : Building → Option SymbolSet
  | empty => some SymbolSet.empty
  | single v => SymbolSet.empty.addRange? v.toInt v.toInt
  | range lo hi => SymbolSet.empty.addRange? lo.toInt hi.toInt
  | ranges rs => SymbolSet.empty.addRanges? (rs.map wide)
  | add b v => do (← b.checked).addRange? v.toInt v.toInt
  | addRange b lo hi => do (← b.checked).addRange? lo.toInt hi.toInt
  | union b c => do (← b.checked).addRanges? (← c.checked).intervals
  | remove b v => do (← b.checked).cut? v.toInt v.toInt
  | complement b lo hi => do (← b.checked).complement? lo.toInt hi.toInt
  | subtract b c => do (← b.checked).cutAll? (← c.checked).intervals

/-- The members by the operations on mathematical sets. -/
def members : Building → Set Int
  | empty => ∅
  | single v => {v.toInt}
  | range lo hi => between lo.toInt hi.toInt
  | ranges rs => ⋃ r ∈ rs, between r.1.toInt r.2.toInt
  | add b v => b.members ∪ {v.toInt}
  | addRange b lo hi => b.members ∪ between lo.toInt hi.toInt
  | union b c => b.members ∪ c.members
  | remove b v => b.members \ {v.toInt}
  | complement b lo hi => between lo.toInt hi.toInt \ b.members
  | subtract b c => b.members \ c.members

/-! ## Every operation is carried out -/

theorem word (v : Int32) : Word v.toInt := ⟨v.le_toInt, v.toInt_lt⟩

theorem words_wide (rs : List (Int32 × Int32)) : Words (rs.map wide) := by
  intro r member
  obtain ⟨r, -, rfl⟩ := List.mem_map.1 member
  exact ⟨word r.1, word r.2⟩

theorem proper_empty : SymbolSet.empty.Proper :=
  ⟨canonical_empty, fun _ found => Bool.noConfusion found, fun _ found => Bool.noConfusion found⟩

/-- No check fails, and what is built is a canonical set of 32-bit symbols. -/
theorem checked_eq (b : Building) : b.checked = some b.set ∧ b.set.Proper := by
  induction b with
  | empty => exact ⟨rfl, proper_empty⟩
  | single v => exact ⟨addRange?_eq proper_empty (word v) (word v), proper_empty.addRange (word v) (word v)⟩
  | range lo hi => exact ⟨addRange?_eq proper_empty (word lo) (word hi), proper_empty.addRange (word lo) (word hi)⟩
  | ranges rs => exact addRanges?_eq proper_empty (words_wide rs)
  | add b v ih =>
    obtain ⟨through, proper⟩ := ih
    rw [checked, through]
    exact ⟨addRange?_eq proper (word v) (word v), proper.addRange (word v) (word v)⟩
  | addRange b lo hi ih =>
    obtain ⟨through, proper⟩ := ih
    rw [checked, through]
    exact ⟨addRange?_eq proper (word lo) (word hi), proper.addRange (word lo) (word hi)⟩
  | union b c ih ih' =>
    obtain ⟨through, proper⟩ := ih
    obtain ⟨through', proper'⟩ := ih'
    rw [checked, through, through']
    exact addRanges?_eq proper proper'.words
  | remove b v ih =>
    obtain ⟨through, proper⟩ := ih
    rw [checked, through]
    exact ⟨cut?_eq proper (word v) (word v), proper.cut (Int.le_refl _)⟩
  | complement b lo hi ih =>
    obtain ⟨through, proper⟩ := ih
    rw [checked, through]
    exact ⟨complement?_eq proper (word lo) (word hi), proper.complement (word lo) (word hi)⟩
  | subtract b c ih ih' =>
    obtain ⟨through, proper⟩ := ih
    obtain ⟨through', proper'⟩ := ih'
    rw [checked, through, through']
    have canonical : (b.set.subtract c.set).Canonical := proper.canonical.subtract proper'.canonical
    exact ⟨cutAll?_eq proper proper'.words proper'.ascends.inhabited,
      proper.of_subset canonical fun v found => ((contains_subtract _ _ v).1 found).1⟩

/-- A symbol is found exactly when the operations on mathematical sets give it. -/
theorem contains_set (b : Building) (v : Int) : b.set.contains v = true ↔ v ∈ b.members := by
  induction b with
  | empty => simp [set, members, contains_empty]
  | single w => exact contains_singleton w.toInt v
  | range lo hi => exact contains_ofRange lo.toInt hi.toInt v
  | ranges rs =>
    have listed := contains_addRanges SymbolSet.empty (rs.map wide) v
    rw [contains_empty, or_iff_right Bool.false_ne_true] at listed
    apply listed.trans
    simp only [Covers, List.mem_map, exists_exists_and_eq_and, wide, members, Set.mem_iUnion₂, mem_between, exists_prop]
  | add b w ih => rw [set, members, contains_add, ih, Set.mem_union, Set.mem_singleton_iff]
  | addRange b lo hi ih => rw [set, members, contains_addRange, ih, Set.mem_union, mem_between]
  | union b c ih ih' => rw [set, members, contains_union, ih, ih', Set.mem_union]
  | remove b w ih => rw [set, members, contains_remove, ih, Set.mem_sdiff, Set.mem_singleton_iff]
  | complement b lo hi ih =>
    rw [set, members, contains_complement b.checked_eq.2.canonical, ← Bool.not_eq_true, ih, Set.mem_sdiff, mem_between]
  | subtract b c ih ih' => rw [set, members, contains_subtract, ih, ih', Set.mem_sdiff]

end Building

/-! ## What a set represents -/

/-- The set has these members, in canonical intervals, and answers every question about them. -/
structure Represents (s : SymbolSet) (members : Set Int) : Prop where
  inhabited : ∀ r ∈ s.intervals, r.1 ≤ r.2
  apart : s.intervals.Pairwise fun r r' => r.2 + 1 < r'.1
  contains : ∀ v, s.contains v = true ↔ v ∈ members
  search : ∀ v, s.search v = true ↔ v ∈ members
  finite : members.Finite
  size : s.size? = some members.ncard ∧ s.size = members.ncard
  least : ∀ m, s.min? = some m ↔ IsLeast members m
  greatest : ∀ m, s.max? = some m ↔ IsGreatest members m

theorem Proper.represents {s : SymbolSet} (proper : s.Proper) : s.Represents { v | s.contains v = true } where
  inhabited := proper.ascends.inhabited
  apart := proper.ascends.pairwise
  contains _ := Iff.rfl
  search v := by
    rw [proper.canonical.search_eq]
    rfl
  finite := by
    rw [members_eq]
    exact finite_symbols _
  size := by
    rw [size?_eq proper, ← proper.canonical.size_eq_ncard]
    exact ⟨rfl, rfl⟩
  least := proper.canonical.min?_eq_some
  greatest := proper.canonical.max?_eq_some

/-- However a set is built, it represents the members of the mathematical set that is built in the same way, no step
leaves the width of its numbers, and sets with the same members are the same. -/
theorem Building.represents_members (b : Building) :
    b.checked = some b.set ∧ b.set.Represents b.members ∧ ∀ c : Building, b.set = c.set ↔ b.members = c.members := by
  have same (c : Building) : { v | c.set.contains v = true } = c.members := Set.ext c.contains_set
  obtain ⟨through, proper⟩ := b.checked_eq
  refine ⟨through, ?_, fun c => ?_⟩
  · rw [← same b]
    exact proper.represents
  · constructor
    · intro equal
      rw [← same b, ← same c, equal]
    · intro equal
      apply proper.canonical.ext c.checked_eq.2.canonical
      intro v
      rw [b.contains_set, c.contains_set, equal]

/-- The gaps of a set may reach both ends of the range. -/
example : (Building.complement (.single 7) Int32.minValue Int32.maxValue).checked =
    some ⟨[(-2147483648, 6), (8, 2147483647)]⟩ := by decide

end AdaptiveLL.SymbolSet
