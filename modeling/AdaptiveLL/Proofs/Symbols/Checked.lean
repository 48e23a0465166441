import AdaptiveLL.Proofs.Symbols.Extent

/-!
# Sets of symbols in numbers of fixed width

A set of symbols may be kept in signed numbers of 32 bits, with wider numbers only where a step goes one beyond a
symbol. The operations here do every such step with a check: a number that does not fit makes the operation fail.
On canonical sets of 32-bit symbols no check ever fails, at the ends of the range neither, and what comes out is what
the unbounded operations give (`addRange?_eq`, `remove?_eq`, `subtract?_eq`, `complement?_eq`, `size?_eq`). Membership
is found by halving the list of intervals (`Canonical.search_eq`).
-/

set_option autoImplicit false

namespace AdaptiveLL.SymbolSet

variable {s t : SymbolSet} {rs : List (Int × Int)} {low : Int}

/-! ## Numbers of fixed width -/

/-- The number, if it is a signed number of so many bits. -/
def fit (bits : Nat) (x : Int) : Option Int := if -2 ^ (bits - 1) ≤ x ∧ x < 2 ^ (bits - 1) then some x else none

/-- The number, if it is an unsigned number of 64 bits. -/
def fitCount (x : Int) : Option Nat := if 0 ≤ x ∧ x < 2 ^ 64 then some x.toNat else none

/-- A signed number of 32 bits. -/
def Word (x : Int) : Prop := -2147483648 ≤ x ∧ x < 2147483648

/-- The ends of the intervals are 32-bit numbers. -/
def Words (rs : List (Int × Int)) : Prop := ∀ r ∈ rs, Word r.1 ∧ Word r.2

theorem Word.fit {x : Int} (word : Word x) : fit 32 x = some x := if_pos word

/-- One beyond a 32-bit number there is room in 64 bits. -/
theorem Word.fit_succ {x : Int} (word : Word x) : SymbolSet.fit 64 (x + 1) = some (x + 1) := by
  obtain ⟨above, below⟩ := word
  exact if_pos ⟨by omega, by omega⟩

theorem Word.min {x y : Int} (word : Word x) (word' : Word y) : Word (min x y) := by
  simp only [Word] at *
  omega

theorem Word.max {x y : Int} (word : Word x) (word' : Word y) : Word (max x y) := by
  simp only [Word] at *
  omega

theorem Words.head {r : Int × Int} (words : Words (r :: rs)) : Word r.1 ∧ Word r.2 := words r (List.mem_cons_self ..)

theorem Words.tail {r : Int × Int} (words : Words (r :: rs)) : Words rs :=
  fun r' member => words r' (List.mem_cons_of_mem _ member)

theorem Proper.words (proper : s.Proper) : Words s.intervals := fun _ member => proper.ends member

/-- The intervals begin within the range. -/
theorem Proper.ascends (proper : s.Proper) : Ascends (-2147483648) s.intervals := by
  obtain ⟨low, ascends⟩ := proper.canonical
  have words := proper.words
  cases rs : s.intervals with
  | nil => exact .nil _
  | cons r rest =>
    rw [rs] at ascends words
    cases ascends with
    | cons above inhabited later => exact .cons words.head.1.1 inhabited later

/-! ## Adding an interval -/

/-- One pass that adds the interval from `lo` to `hi`; `placed` says that it stands before the intervals ahead. -/
def sweep? (lo hi : Int) (placed : Bool) : List (Int × Int) → Option (List (Int × Int))
  | [] => if placed then some [] else do return [(← fit 32 lo, ← fit 32 hi)]
  | (a, b) :: rest => do
    if (← fit 64 (b + 1)) < lo then
      return (a, b) :: (← sweep? lo hi placed rest)
    else if (← fit 64 (hi + 1)) < a then
      let here ← if placed then pure [] else do pure [(← fit 32 lo, ← fit 32 hi)]
      return here ++ (a, b) :: (← sweep? lo hi true rest)
    else
      sweep? (min lo a) (max hi b) placed rest

/-- Adds every symbol from `lo` to `hi` with checks. -/
def addRange? (s : SymbolSet) (lo hi : Int) : Option SymbolSet :=
  if hi < lo then some s else do return ⟨← sweep? lo hi false s.intervals⟩

/-- Adds all intervals with checks. -/
def addRanges? (s : SymbolSet) (rs : List (Int × Int)) : Option SymbolSet :=
  rs.foldlM (fun s r => s.addRange? r.1 r.2) s

/-- Behind the place of the interval every other one is passed. -/
theorem sweep?_placed {lo hi : Int} (ascends : Ascends low rs) (words : Words rs) (last : Word hi)
    (inhabited : lo ≤ hi) (behind : hi + 1 < low) : sweep? lo hi true rs = some rs := by
  induction ascends with
  | nil low => rfl
  | @cons low a b rest above inhabited' later ih =>
    simp only [sweep?, words.head.2.fit_succ, last.fit_succ, ih words.tail (by omega), Option.bind_eq_bind,
      Option.bind_some, Option.pure_def]
    rw [if_neg (by omega), if_pos (by omega)]
    rfl

theorem sweep?_eq {lo hi : Int} (ascends : Ascends low rs) (words : Words rs) (first : Word lo) (last : Word hi)
    (inhabited : lo ≤ hi) : sweep? lo hi false rs = some (insertInterval lo hi rs) := by
  induction ascends generalizing lo hi with
  | nil low => simp [sweep?, insertInterval, first.fit, last.fit]
  | @cons low a b rest above inhabited' later ih =>
    obtain ⟨first', last'⟩ := words.head
    simp only [sweep?, insertInterval, last'.fit_succ, last.fit_succ, Option.bind_eq_bind, Option.bind_some]
    split
    · rw [ih words.tail first last inhabited]
      rfl
    · split
      · rw [sweep?_placed later words.tail last inhabited (by omega)]
        simp [first.fit, last.fit]
      · exact ih words.tail (first.min first') (last.max last') (by omega)

theorem addRange?_eq (proper : s.Proper) {lo hi : Int} (first : Word lo) (last : Word hi) :
    s.addRange? lo hi = some (s.addRange lo hi) := by
  obtain ⟨low, ascends⟩ := proper.canonical
  unfold addRange? addRange
  split
  · rfl
  · rw [sweep?_eq ascends proper.words first last (by omega)]
    rfl

theorem Proper.addRange (proper : s.Proper) {lo hi : Int} (first : Word lo) (last : Word hi) :
    (s.addRange lo hi).Proper := by
  have bounds (v : Int) (found : (s.addRange lo hi).contains v = true) : Word v := by
    rcases (contains_addRange s lo hi v).1 found with before | ⟨above, below⟩
    · exact ⟨proper.low v before, proper.high v before⟩
    · exact ⟨Int.le_trans first.1 above, Int.lt_of_le_of_lt below last.2⟩
  exact ⟨proper.canonical.addRange lo hi, fun v found => (bounds v found).1, fun v found => (bounds v found).2⟩

/-- Adding any number of intervals goes through, and the set stays one of 32-bit symbols. -/
theorem addRanges?_eq (proper : s.Proper) (words : Words rs) :
    s.addRanges? rs = some (s.addRanges rs) ∧ (s.addRanges rs).Proper := by
  induction rs generalizing s with
  | nil => exact ⟨rfl, proper⟩
  | cons r rs ih =>
    obtain ⟨first, last⟩ := words.head
    obtain ⟨through, proper'⟩ := ih (proper.addRange first last) words.tail
    rw [addRanges?, List.foldlM_cons, addRange?_eq proper first last]
    exact ⟨through, proper'⟩

/-! ## Taking intervals away -/

/-- What is left of one interval, with checks. -/
def cutInterval? (lo hi : Int) (r : Int × Int) : Option (List (Int × Int)) :=
  if r.2 < lo ∨ hi < r.1 then some [r]
  else do
    let left ← if r.1 < lo then do pure [(r.1, ← fit 32 (lo - 1))] else pure []
    let right ← if hi < r.2 then do pure [(← fit 32 (hi + 1), r.2)] else pure []
    return left ++ right

/-- What is left of every interval, with checks. -/
def cutEach? (lo hi : Int) : List (Int × Int) → Option (List (Int × Int))
  | [] => some []
  | r :: rest => do return (← cutInterval? lo hi r) ++ (← cutEach? lo hi rest)

/-- Takes the symbols from `lo` to `hi` away with checks. -/
def cut? (s : SymbolSet) (lo hi : Int) : Option SymbolSet := do return ⟨← cutEach? lo hi s.intervals⟩

/-- Takes all intervals away with checks. -/
def cutAll? (s : SymbolSet) (rs : List (Int × Int)) : Option SymbolSet := rs.foldlM (fun s r => s.cut? r.1 r.2) s

/-- A number is stepped down only above a symbol of the interval, and up only below one. -/
theorem cutInterval?_eq {lo hi : Int} (first : Word lo) (last : Word hi) (r : Int × Int) (word : Word r.1)
    (word' : Word r.2) : cutInterval? lo hi r = some (cutInterval lo hi r) := by
  have down (above : r.1 < lo) : fit 32 (lo - 1) = some (lo - 1) :=
    Word.fit ⟨by have := word.1; omega, by have := first.2; omega⟩
  have up (below : hi < r.2) : fit 32 (hi + 1) = some (hi + 1) :=
    Word.fit ⟨by have := last.1; omega, by have := word'.2; omega⟩
  unfold cutInterval? cutInterval
  split
  · rfl
  · by_cases above : r.1 < lo <;> by_cases below : hi < r.2 <;> simp [above, below, down, up]

theorem cutEach?_eq {lo hi : Int} (first : Word lo) (last : Word hi) (words : Words rs) :
    cutEach? lo hi rs = some (rs.flatMap (cutInterval lo hi)) := by
  induction rs with
  | nil => rfl
  | cons r rest ih =>
    rw [cutEach?, cutInterval?_eq first last r words.head.1 words.head.2, ih words.tail, List.flatMap_cons]
    rfl

theorem cut?_eq (proper : s.Proper) {lo hi : Int} (first : Word lo) (last : Word hi) :
    s.cut? lo hi = some (s.cut lo hi) := by
  rw [cut?, cutEach?_eq first last proper.words]
  rfl

/-- A canonical set of some of the symbols of a set of 32-bit symbols. -/
theorem Proper.of_subset (proper : s.Proper) (canonical : t.Canonical)
    (subset : ∀ v, t.contains v = true → s.contains v = true) : t.Proper :=
  ⟨canonical, fun v found => proper.low v (subset v found), fun v found => proper.high v (subset v found)⟩

theorem Proper.cut (proper : s.Proper) {lo hi : Int} (inhabited : lo ≤ hi) : (s.cut lo hi).Proper :=
  proper.of_subset (proper.canonical.cut inhabited) fun v found => ((contains_cut s lo hi v).1 found).1

theorem cutAll?_eq (proper : s.Proper) (words : Words rs) (inhabited : ∀ r ∈ rs, r.1 ≤ r.2) :
    s.cutAll? rs = some (s.cutAll rs) := by
  induction rs generalizing s with
  | nil => rfl
  | cons r rs ih =>
    obtain ⟨first, last⟩ := words.head
    have here := inhabited r (List.mem_cons_self ..)
    rw [cutAll?, List.foldlM_cons, cut?_eq proper first last]
    exact ih (proper.cut here) words.tail fun r' member => inhabited r' (List.mem_cons_of_mem _ member)

/-! ## Complements -/

/-- The gaps between `next` and `hi`, with checks. -/
def gaps? (hi : Int) : Int → List (Int × Int) → Option (List (Int × Int))
  | next, [] => if next ≤ hi then do return [(← fit 32 next, hi)] else some []
  | next, (a, b) :: rest =>
    if b < next then gaps? hi next rest
    else if hi < a then if next ≤ hi then do return [(← fit 32 next, hi)] else some []
    else do
      let here ← if next < a then do pure [(← fit 32 next, ← fit 32 (a - 1))] else pure []
      return here ++ (← gaps? hi (← fit 64 (b + 1)) rest)

/-- The symbols from `lo` to `hi` that are not members, with checks. -/
def complement? (s : SymbolSet) (lo hi : Int) : Option SymbolSet := do return ⟨← gaps? hi lo s.intervals⟩

/-- Where the next gap would begin may lie one beyond the range, but no gap begins there. -/
theorem gaps?_eq {hi next : Int} (last : Word hi) (above : -2147483648 ≤ next) (words : Words rs) :
    gaps? hi next rs = some (gaps hi next rs) := by
  have front {next' : Int} (above' : -2147483648 ≤ next') {bound : Int} (word : Word bound) (le : next' ≤ bound) :
      fit 32 next' = some next' := Word.fit ⟨above', Int.lt_of_le_of_lt le word.2⟩
  have behind {next' : Int} (above' : -2147483648 ≤ next') :
      (if next' ≤ hi then do return [(← fit 32 next', hi)] else some []) =
        some (if next' ≤ hi then [(next', hi)] else []) := by
    split
    · rw [front above' last (by assumption)]
      rfl
    · rfl
  induction rs generalizing next with
  | nil => exact behind above
  | cons r rest ih =>
    obtain ⟨a, b⟩ := r
    obtain ⟨first', last'⟩ := words.head
    unfold gaps? gaps
    split
    · exact ih above words.tail
    · split
      · exact behind above
      · have later : gaps? hi (b + 1) rest = some (gaps hi (b + 1) rest) := by
          apply ih _ words.tail
          have := last'.1
          dsimp only at this
          omega
        rw [last'.fit_succ]
        split
        · have down : fit 32 (a - 1) = some (a - 1) := by
            apply Word.fit
            have := first'.2
            constructor <;> dsimp only at * <;> omega
          rw [front above first' (Int.le_of_lt (by assumption)), down]
          simp [later]
        · simp [later]

theorem complement?_eq (proper : s.Proper) {lo hi : Int} (first : Word lo) (last : Word hi) :
    s.complement? lo hi = some (s.complement lo hi) := by
  rw [complement?, gaps?_eq last first.1 proper.words]
  rfl

theorem Proper.complement (proper : s.Proper) {lo hi : Int} (first : Word lo) (last : Word hi) :
    (s.complement lo hi).Proper := by
  have bounds (v : Int) (found : (s.complement lo hi).contains v = true) : lo ≤ v ∧ v ≤ hi :=
    ((contains_complement proper.canonical lo hi v).1 found).1
  exact ⟨proper.canonical.complement lo hi, fun v found => Int.le_trans first.1 (bounds v found).1,
    fun v found => Int.lt_of_le_of_lt (bounds v found).2 last.2⟩

/-! ## Counting members -/

/-- The number of symbols in an interval, with checks. -/
def intervalSize? (r : Int × Int) : Option Nat := do fitCount (← fit 64 ((← fit 64 (r.2 - r.1)) + 1))

/-- The number of symbols in the intervals on top of a count, with checks. -/
def sizes? (count : Nat) : List (Int × Int) → Option Nat
  | [] => some count
  | r :: rest => do
    let size ← intervalSize? r
    sizes? (← fitCount (count + size)) rest

/-- The number of members, with checks. -/
def size? (s : SymbolSet) : Option Nat := sizes? 0 s.intervals

theorem fitCount_eq {x : Int} {n : Nat} (same : x = n) (small : n < 2 ^ 64) : fitCount x = some n := by
  subst same
  exact if_pos ⟨Int.natCast_nonneg n, by exact_mod_cast small⟩

/-- There are only so many symbols from `low` on. -/
theorem Ascends.sizes_le (ascends : Ascends low rs) (words : Words rs) : sizes rs ≤ (2147483648 - low).toNat := by
  induction ascends with
  | nil low => exact Nat.zero_le _
  | @cons low a b rest above inhabited later ih =>
    have rest' := ih words.tail
    have last := words.head.2.2
    have split : sizes ((a, b) :: rest) = intervalSize (a, b) + sizes rest := rfl
    rw [split, intervalSize]
    dsimp only at *
    omega

theorem intervalSize?_eq {r : Int × Int} (first : Word r.1) (last : Word r.2) (inhabited : r.1 ≤ r.2) :
    intervalSize? r = some (intervalSize r) := by
  obtain ⟨above, -⟩ := first
  obtain ⟨-, below⟩ := last
  have width : fit 64 (r.2 - r.1) = some (r.2 - r.1) := if_pos (by omega)
  have wider : fit 64 (r.2 - r.1 + 1) = some (r.2 - r.1 + 1) := if_pos (by omega)
  have counted : fitCount (r.2 - r.1 + 1) = some (intervalSize r) := by
    apply fitCount_eq
    · rw [intervalSize]
      omega
    · rw [intervalSize]
      omega
  exact Option.bind_eq_some_iff.2 ⟨_, width, Option.bind_eq_some_iff.2 ⟨_, wider, counted⟩⟩

theorem sizes?_eq (ascends : Ascends low rs) (words : Words rs) {count : Nat}
    (small : count + sizes rs ≤ 2 ^ 32) : sizes? count rs = some (count + sizes rs) := by
  induction ascends generalizing count with
  | nil low => rfl
  | @cons low a b rest above inhabited later ih =>
    have split : sizes ((a, b) :: rest) = intervalSize (a, b) + sizes rest := rfl
    rw [split] at small ⊢
    have here : intervalSize? (a, b) = some (intervalSize (a, b)) :=
      intervalSize?_eq words.head.1 words.head.2 inhabited
    have summed : fitCount (count + intervalSize (a, b)) = some (count + intervalSize (a, b)) :=
      fitCount_eq (by omega) (by omega)
    rw [← Nat.add_assoc]
    exact Option.bind_eq_some_iff.2 ⟨_, here, Option.bind_eq_some_iff.2 ⟨_, summed, ih words.tail (by omega)⟩⟩

theorem size?_eq (proper : s.Proper) : s.size? = some s.size := by
  have few : sizes s.intervals ≤ (2147483648 - -2147483648 : Int).toNat := proper.ascends.sizes_le proper.words
  have small : 0 + sizes s.intervals ≤ 2 ^ 32 := by
    rw [Nat.zero_add]
    exact few
  rw [size?, sizes?_eq proper.ascends proper.words small, size_eq, Nat.zero_add]

/-! ## Finding a symbol by halving -/

/-- The first place from `lo` to `hi` where `p` fails, found by halving. -/
def bisect (p : Nat → Bool) (lo hi : Nat) : Nat :=
  if lo < hi then
    let middle := lo + (hi - lo) / 2
    if p middle then bisect p (middle + 1) hi else bisect p lo middle
  else lo
termination_by hi - lo

/-- Is there an interval at the place, and does it end before the symbol? -/
def endsBefore (s : SymbolSet) (v : Int) (i : Nat) : Bool := s.intervals[i]?.any (·.2 < v)

/-- Does the first interval that does not end before the symbol have it? -/
def search (s : SymbolSet) (v : Int) : Bool :=
  s.intervals[bisect (s.endsBefore v) 0 s.intervals.length]?.any (·.1 ≤ v)

theorem bisect_spec (p : Nat → Bool) (lo hi : Nat) (falls : ∀ i j, i ≤ j → p j = true → p i = true) (le : lo ≤ hi)
    (before : ∀ i < lo, p i = true) (behind : ∀ i, hi ≤ i → p i = false) :
    (∀ i < bisect p lo hi, p i = true) ∧ p (bisect p lo hi) = false := by
  fun_induction bisect p lo hi with
  | case1 lo hi less middle holds ih =>
    apply ih (by omega)
    · intro i lt
      exact falls i middle (by omega) holds
    · exact behind
  | case2 lo hi less middle fails ih =>
    apply ih (by omega) before
    intro i ge
    by_contra holds
    exact fails (falls middle i ge (by simpa using holds))
  | case3 lo hi less =>
    exact ⟨before, behind lo (by omega)⟩

/-- Later intervals begin at least two symbols behind the end of an earlier one. -/
theorem Ascends.pairwise (ascends : Ascends low rs) : rs.Pairwise fun r r' => r.2 + 1 < r'.1 := by
  induction ascends with
  | nil low => exact .nil
  | @cons low a b rest above inhabited later ih =>
    apply List.Pairwise.cons _ ih
    intro r member
    have := later.le ⟨r, member, Int.le_refl _, later.inhabited r member⟩
    dsimp only
    omega

/-- Intervals stand in the order of both their ends. -/
theorem Ascends.ordered (ascends : Ascends low rs) {i j : Nat} {r r' : Int × Int} (le : i ≤ j) (here : rs[i]? = some r)
    (there : rs[j]? = some r') : r.1 ≤ r'.1 ∧ r.2 ≤ r'.2 := by
  rcases Nat.eq_or_lt_of_le le with rfl | less
  · cases here.symm.trans there
    exact ⟨Int.le_refl _, Int.le_refl _⟩
  · obtain ⟨bound, rfl⟩ := List.getElem?_eq_some_iff.1 here
    obtain ⟨bound', rfl⟩ := List.getElem?_eq_some_iff.1 there
    have apart := List.pairwise_iff_getElem.1 ascends.pairwise i j bound bound' less
    have inhabited := ascends.inhabited _ (List.getElem_mem bound)
    have inhabited' := ascends.inhabited _ (List.getElem_mem bound')
    omega

theorem endsBefore_iff (v : Int) (i : Nat) :
    s.endsBefore v i = true ↔ ∃ r, s.intervals[i]? = some r ∧ r.2 < v := by
  simp [endsBefore, Option.any_eq_true]

/-- The first interval that does not end before a symbol is the only one that can have it. -/
theorem Canonical.search_eq (canonical : s.Canonical) (v : Int) : s.search v = s.contains v := by
  obtain ⟨low, ascends⟩ := canonical
  have falls (i j : Nat) (le : i ≤ j) (holds : s.endsBefore v j = true) : s.endsBefore v i = true := by
    obtain ⟨r', there, less⟩ := (endsBefore_iff v j).1 holds
    obtain ⟨bound, -⟩ := List.getElem?_eq_some_iff.1 there
    have here : s.intervals[i]? = some s.intervals[i] := List.getElem?_eq_getElem (by omega)
    exact (endsBefore_iff v i).2 ⟨_, here, Int.lt_of_le_of_lt (ascends.ordered le here there).2 less⟩
  have behind (i : Nat) (ge : s.intervals.length ≤ i) : s.endsBefore v i = false := by
    rw [endsBefore, List.getElem?_eq_none ge, Option.any_none]
  obtain ⟨passed, reached⟩ := bisect_spec _ 0 s.intervals.length falls (Nat.zero_le _) (by simp) behind
  rw [search, Bool.eq_iff_iff, contains_iff, Option.any_eq_true]
  constructor
  · rintro ⟨r, here, first⟩
    have last : v ≤ r.2 := by
      by_contra less
      have holds := (endsBefore_iff v _).2 ⟨r, here, Int.not_le.1 less⟩
      exact absurd (holds.symm.trans reached) (by decide)
    exact ⟨r, List.mem_of_getElem? here, of_decide_eq_true first, last⟩
  · rintro ⟨r, member, first, last⟩
    obtain ⟨j, there⟩ := List.mem_iff_getElem?.1 member
    have le : bisect (s.endsBefore v) 0 s.intervals.length ≤ j := by
      by_contra beyond
      obtain ⟨r', there', less⟩ := (endsBefore_iff v j).1 (passed j (Nat.not_le.1 beyond))
      cases there.symm.trans there'
      omega
    obtain ⟨bound, -⟩ := List.getElem?_eq_some_iff.1 there
    have here := List.getElem?_eq_getElem (Nat.lt_of_le_of_lt le bound)
    exact ⟨_, here, decide_eq_true (Int.le_trans (ascends.ordered le here there).1 first)⟩

end AdaptiveLL.SymbolSet
