import AdaptiveLL.Proofs.Grammar.Nullable
import AdaptiveLL.Proofs.Network.Silent

/-!
# No circles within a rule

In a laid out element whose loops have bodies that cannot match nothing, every glide goes down in some
rank, so no glide runs in a circle. Together with the rank goes the set of the late states, those from
which the right end may be reached by gliding: a loop goes back from its late states to the others, and
it can, since the way into a body that cannot match nothing is not late.
-/

set_option autoImplicit false

namespace AdaptiveLL.Network

variable {net : Network} {passable : Nat → Prop}

/-! ## Ranks -/

/-- A rank that falls along every glide between `lo` and `hi` that does not leave one of the ends, and
a set of late states that no glide enters from outside and that the ends belong to. -/
structure Ranking (net : Network) (passable : Nat → Prop) (lo hi : Nat) (ends : List Nat)
    (rank : Nat → Nat) (late : Nat → Prop) : Prop where
  falls : ∀ n m, lo ≤ n → n < hi → n ∉ ends → net.Glides passable n m → rank m < rank n
  back : ∀ n m, lo ≤ n → n < hi → n ∉ ends → net.Glides passable n m → late m → late n
  stays : ∀ n m, lo ≤ n → n < hi → n ∉ ends → net.Glides passable n m → lo ≤ m ∧ m < hi
  ends : ∀ n ∈ ends, late n

/-- The element has a rank, and its left end is late only if it can match nothing. -/
structure HasRank (net : Network) (passable : Nat → Prop) (nullable : Prop) (seg : Segment)
    (lo hi : Nat) : Prop where
  left : lo ≤ seg.left ∧ seg.left < hi
  right : lo ≤ seg.right ∧ seg.right < hi
  ranked : ∃ rank late, net.Ranking passable lo hi [seg.right] rank late ∧ (late seg.left → nullable)

theorem exists_bound (rank : Nat → Nat) (hi : Nat) : ∃ bound, ∀ n < hi, rank n < bound := by
  induction hi with
  | zero => exact ⟨0, fun n none => absurd none (Nat.not_lt_zero n)⟩
  | succ hi ih =>
    obtain ⟨bound, below⟩ := ih
    refine ⟨max bound (rank hi + 1), fun n inside => ?_⟩
    rcases Nat.lt_or_eq_of_le (Nat.le_of_lt_succ inside) with early | rfl
    · have := below n early
      omega
    · omega

/-! ## Glides out of a state -/

theorem Glides.of_epsilons {n m : Nat} {targets : List Nat} (out : net.out n = targets.map .epsilon)
    (step : net.Glides passable n m) : m ∈ targets := by
  cases step with
  | free inner move => simpa [moves, out] using move
  | skip inner move passed => simp [moves, out] at move

theorem Glides.of_epsilon {n m k : Nat} (out : net.out n = [.epsilon k])
    (step : net.Glides passable n m) : m = k :=
  List.mem_singleton.1 (step.of_epsilons (out : net.out n = [k].map .epsilon))

theorem not_glides_of_consume {n m k : Nat} {label : Label} (out : net.out n = [⟨k, label⟩])
    (consumes : label.isEpsilon = false) : ¬ net.Glides passable n m := by
  intro step
  have plain : ∀ r p follow, label ≠ .rule r p follow := by
    rintro r p follow rfl
    cases consumes
  have move : net.moves n = [.consume k] := by
    rw [moves, out, List.map_singleton, Transition.move]
    split
    · exact absurd (by assumption) (plain _ _ _)
    · simp [consumes]
  cases step with
  | free inner here => simp [move] at here
  | skip inner here passed => simp [move] at here

/-- An element of two states whose first glides to the second or not at all. -/
theorem hasRank_pair {lo : Nat} {nullable : Prop}
    (step : ∀ m, net.Glides passable lo m → m = lo + 1 ∧ nullable) :
    net.HasRank passable nullable ⟨lo, lo + 1⟩ lo (lo + 2) := by
  refine ⟨⟨by simp only []; omega, by simp only []; omega⟩, ⟨by simp only []; omega,
    by simp only []; omega⟩, fun n => lo + 1 - n, fun n => n = lo → nullable, ⟨?_, ?_, ?_, ?_⟩,
    fun late => late rfl⟩
  · intro n m above below apart glide
    obtain rfl : n = lo := by simp only [List.mem_singleton] at apart; omega
    have := (step m glide).1
    omega
  · intro n m above below apart glide _ here
    obtain rfl : n = lo := here
    exact (step m glide).2
  · intro n m above below apart glide
    obtain rfl : n = lo := by simp only [List.mem_singleton] at apart; omega
    have := (step m glide).1
    omega
  · intro n isEnd here
    simp only [List.mem_singleton] at isEnd
    omega

/-! ## Elements side by side -/

/-- What the ranks of the parts of an element give for all of them together. -/
theorem ranking_all {nullable : Element → Prop} {es : List Element} {segs : List Segment} {lo hi : Nat}
    (parts : Consecutive (fun e => net.HasRank passable (nullable e)) es segs lo hi) :
    lo ≤ hi ∧ ∃ rank late, net.Ranking passable lo hi (segs.map (·.right)) rank late ∧
      ∀ s ∈ segs, lo ≤ s.left ∧ s.left < hi ∧ lo ≤ s.right ∧ s.right < hi ∧
        (late s.left → ∃ e ∈ es, nullable e) := by
  induction parts with
  | nil lo =>
    exact ⟨Nat.le_refl lo, fun _ => 0, fun _ => True, ⟨fun n m above below => by omega,
      fun n m above below => by omega, fun n m above below => by omega, by simp⟩, by simp⟩
  | cons first rest ih =>
    rename_i e es s ss lo mid hi
    obtain ⟨⟨leftLow, leftHigh⟩, ⟨rightLow, rightHigh⟩, rank₁, late₁, ranking₁, nullable₁⟩ := first
    obtain ⟨le, rank₂, late₂, ranking₂, ends₂⟩ := ih
    have apart₂ : ∀ n, n < mid → n ∉ ss.map (·.right) := by
      intro n early member
      obtain ⟨s', among, rfl⟩ := List.mem_map.1 member
      have := ends₂ s' among
      omega
    refine ⟨by omega, fun n => if n < mid then rank₁ n else rank₂ n,
      fun n => if n < mid then late₁ n else late₂ n, ⟨?_, ?_, ?_, ?_⟩, ?_⟩
    · intro n m above below apart glide
      simp only [List.map_cons, List.mem_cons, not_or] at apart
      rcases Nat.lt_or_ge n mid with early | later
      · have inside := ranking₁.stays n m above early (by simpa using apart.1) glide
        simp only [early, inside.2, if_true]
        exact ranking₁.falls n m above early (by simpa using apart.1) glide
      · have inside := ranking₂.stays n m later below apart.2 glide
        simp only [Nat.not_lt.2 later, Nat.not_lt.2 inside.1, if_false]
        exact ranking₂.falls n m later below apart.2 glide
    · intro n m above below apart glide
      simp only [List.map_cons, List.mem_cons, not_or] at apart
      rcases Nat.lt_or_ge n mid with early | later
      · have inside := ranking₁.stays n m above early (by simpa using apart.1) glide
        simp only [early, inside.2, if_true]
        exact ranking₁.back n m above early (by simpa using apart.1) glide
      · have inside := ranking₂.stays n m later below apart.2 glide
        simp only [Nat.not_lt.2 later, Nat.not_lt.2 inside.1, if_false]
        exact ranking₂.back n m later below apart.2 glide
    · intro n m above below apart glide
      simp only [List.map_cons, List.mem_cons, not_or] at apart
      rcases Nat.lt_or_ge n mid with early | later
      · have inside := ranking₁.stays n m above early (by simpa using apart.1) glide
        omega
      · have inside := ranking₂.stays n m later below apart.2 glide
        omega
    · intro n member
      simp only [List.map_cons, List.mem_cons] at member
      rcases member with rfl | later
      · simp only [rightHigh, if_true]
        exact ranking₁.ends _ (by simp)
      · have notEarly : ¬ n < mid := fun early => apart₂ n early later
        simp only [notEarly, if_false]
        exact ranking₂.ends n later
    · intro s' member
      rcases List.mem_cons.1 member with rfl | later
      · refine ⟨leftLow, by omega, rightLow, by omega, fun late => ⟨e, by simp, nullable₁ ?_⟩⟩
        simpa only [leftHigh, if_true] using late
      · obtain ⟨low, high, low', high', imp⟩ := ends₂ s' later
        refine ⟨by omega, high, by omega, high', fun late => ?_⟩
        obtain ⟨e', among, isNullable⟩ := imp (by simpa only [Nat.not_lt.2 low, if_false] using late)
        exact ⟨e', by simp [among], isNullable⟩

/-! ## Sequences -/

theorem Chained.hasRank {nullable : Element → Prop} {es : List Element} {segs : List Segment}
    {seg : Segment} {lo hi : Nat} (chained : net.Chained segs seg)
    (parts : Consecutive (fun e => net.HasRank passable (nullable e)) es segs lo hi) :
    net.HasRank passable (∀ e ∈ es, nullable e) seg lo hi := by
  induction chained generalizing es lo with
  | single s =>
    cases parts with
    | cons first rest =>
      cases rest
      obtain ⟨left, right, rank, late, ranking, isNullable⟩ := first
      exact ⟨left, right, rank, late, ranking,
        fun isLate e member => by rw [List.mem_singleton.1 member]; exact isNullable isLate⟩
  | cons joined later ih =>
    cases parts with
    | cons first rest =>
      rename_i a b ss right es e mid
      obtain ⟨⟨leftLow, leftHigh⟩, ⟨rightLow, rightHigh⟩, rank₁, late₁, ranking₁, nullable₁⟩ := first
      obtain ⟨⟨nextLow, nextHigh⟩, ⟨endLow, endHigh⟩, rank₂, late₂, ranking₂, nullable₂⟩ := ih rest
      simp only [] at nextLow nextHigh endLow endHigh
      obtain ⟨bound, below₂⟩ := exists_bound rank₂ hi
      refine ⟨⟨leftLow, by simp only []; omega⟩, ⟨by simp only []; omega, endHigh⟩,
        fun n => if n < mid then rank₁ n + bound else rank₂ n,
        fun n => if n < mid then late₁ n ∧ late₂ b.left else late₂ n, ⟨?_, ?_, ?_, ?_⟩, ?_⟩
      · intro n m above below apart glide
        rcases Nat.lt_or_ge n mid with early | later
        · by_cases isEnd : n = a.right
          · subst isEnd
            obtain rfl := glide.of_epsilon joined
            have := below₂ b.left nextHigh
            simp only [early, Nat.not_lt.2 nextLow, if_true, if_false]
            omega
          · have inside := ranking₁.stays n m above early (by simpa using isEnd) glide
            have := ranking₁.falls n m above early (by simpa using isEnd) glide
            simp only [early, inside.2, if_true]
            omega
        · have inside := ranking₂.stays n m later below apart glide
          simp only [Nat.not_lt.2 later, Nat.not_lt.2 inside.1, if_false]
          exact ranking₂.falls n m later below apart glide
      · intro n m above below apart glide
        rcases Nat.lt_or_ge n mid with early | later
        · by_cases isEnd : n = a.right
          · subst isEnd
            obtain rfl := glide.of_epsilon joined
            simp only [early, Nat.not_lt.2 nextLow, if_true, if_false]
            exact fun isLate => ⟨ranking₁.ends _ (by simp), isLate⟩
          · have inside := ranking₁.stays n m above early (by simpa using isEnd) glide
            simp only [early, inside.2, if_true]
            exact fun ⟨isLate, rest⟩ =>
              ⟨ranking₁.back n m above early (by simpa using isEnd) glide isLate, rest⟩
        · have inside := ranking₂.stays n m later below apart glide
          simp only [Nat.not_lt.2 later, Nat.not_lt.2 inside.1, if_false]
          exact ranking₂.back n m later below apart glide
      · intro n m above below apart glide
        rcases Nat.lt_or_ge n mid with early | later
        · by_cases isEnd : n = a.right
          · subst isEnd
            obtain rfl := glide.of_epsilon joined
            omega
          · have inside := ranking₁.stays n m above early (by simpa using isEnd) glide
            omega
        · have inside := ranking₂.stays n m later below apart glide
          omega
      · intro n member
        obtain rfl := List.mem_singleton.1 member
        simp only [Nat.not_lt.2 endLow, if_false]
        exact ranking₂.ends _ (by simp)
      · intro isLate e' member
        simp only [leftHigh, if_true] at isLate
        rcases List.mem_cons.1 member with rfl | among
        · exact nullable₁ isLate.1
        · exact nullable₂ isLate.2 e' among

/-! ## Alternatives and loops -/

/-- Alternatives that all end at `mid + 1`, with the way into them at `mid`. The rank of the block is
that of the alternatives, one higher, between its stop and its start. -/
theorem hasRank_block {nullable : Element → Prop} {es : List Element} {segs : List Segment}
    {lo mid : Nat} (exits : List Nat) {isNullable : Prop}
    (parts : Consecutive (fun e => net.HasRank passable (nullable e)) es segs lo mid)
    (enters : ∃ ts : List Nat, net.out mid = ts.map .epsilon ∧ ∀ m ∈ ts, m ∈ segs.map (·.left) ++ exits)
    (ends : net.EndAt segs (mid + 1)) (leaves : ∀ m ∈ exits, m = mid + 1 ∧ isNullable)
    (imp : ∀ e ∈ es, nullable e → isNullable) :
    net.HasRank passable isNullable ⟨mid, mid + 1⟩ lo (mid + 2) := by
  obtain ⟨le, rank, late, ranking, ends'⟩ := ranking_all parts
  obtain ⟨bound, below'⟩ := exists_bound rank mid
  obtain ⟨ts, outIs, targets⟩ := enters
  -- Where a glide leads: within an alternative, from its end to the stop, from the start into it.
  have step : ∀ n m, lo ≤ n → n < mid + 2 → n ≠ mid + 1 → net.Glides passable n m →
      (n < mid ∧ m < mid ∧ lo ≤ m ∧ rank m < rank n ∧ (late m → late n)) ∨
      (n < mid ∧ m = mid + 1 ∧ late n) ∨
      (n = mid ∧ ((∃ s ∈ segs, m = s.left) ∨ (m = mid + 1 ∧ isNullable))) := by
    intro n m above below apart glide
    rcases Nat.lt_or_ge n mid with early | later
    · by_cases isEnd : n ∈ segs.map (·.right)
      · obtain ⟨s, among, rfl⟩ := List.mem_map.1 isEnd
        exact .inr (.inl ⟨early, glide.of_epsilon (ends s among), ranking.ends _ isEnd⟩)
      · have inside := ranking.stays n m above early isEnd glide
        exact .inl ⟨early, inside.2, inside.1, ranking.falls n m above early isEnd glide,
          ranking.back n m above early isEnd glide⟩
    · obtain rfl : n = mid := by omega
      refine .inr (.inr ⟨rfl, ?_⟩)
      rcases List.mem_append.1 (targets m (glide.of_epsilons outIs)) with way | exit
      · obtain ⟨s, among, rfl⟩ := List.mem_map.1 way
        exact .inl ⟨s, among, rfl⟩
      · exact .inr (leaves m exit)
  refine ⟨⟨by simp only []; omega, by simp only []; omega⟩, ⟨by simp only []; omega,
    by simp only []; omega⟩, fun n => if n < mid then rank n + 1 else if n = mid then bound + 1 else 0,
    fun n => if n < mid then late n else n = mid → isNullable, ⟨?_, ?_, ?_, ?_⟩, ?_⟩
  · intro n m above below apart glide
    rcases step n m above below (by simpa using apart) glide with
      ⟨early, early', -, falls, -⟩ | ⟨early, rfl, -⟩ | ⟨rfl, ⟨s, among, rfl⟩ | ⟨rfl, -⟩⟩
    · simp only [early, early', if_true]
      omega
    · simp [early, show ¬ mid + 1 < mid by omega]
    · have := below' s.left (ends' s among).2.1
      simp only [(ends' s among).2.1, Nat.lt_irrefl, if_true, if_false]
      omega
    · simp [show ¬ n + 1 < n by omega]
  · intro n m above below apart glide
    rcases step n m above below (by simpa using apart) glide with
      ⟨early, early', -, -, back⟩ | ⟨early, rfl, isLate⟩ | ⟨rfl, ⟨s, among, rfl⟩ | ⟨rfl, holds⟩⟩
    · simp only [early, early', if_true]
      exact back
    · simp only [early, if_true]
      exact fun _ => isLate
    · simp only [(ends' s among).2.1, Nat.lt_irrefl, if_true, if_false]
      intro isLate _
      obtain ⟨e, member, holds⟩ := (ends' s among).2.2.2.2 isLate
      exact imp e member holds
    · simp only [Nat.lt_irrefl, if_false]
      exact fun _ _ => holds
  · intro n m above below apart glide
    rcases step n m above below (by simpa using apart) glide with
      ⟨early, early', low, -, -⟩ | ⟨early, rfl, -⟩ | ⟨rfl, ⟨s, among, rfl⟩ | ⟨rfl, -⟩⟩
    · omega
    · omega
    · have := ends' s among
      omega
    · omega
  · intro n isEnd
    obtain rfl := List.mem_singleton.1 isEnd
    simp
  · intro isLate
    simpa using isLate

/-- A loop around alternatives that cannot match nothing. Behind `mid + 1`, where the alternatives end,
a chain of states with the given heights leads down to the way back into them at `mid`; the late states
of the alternatives lie above that chain and the others below it. -/
theorem hasRank_loop {nullable : Element → Prop} {es : List Element} {segs : List Segment}
    {lo mid hi : Nat} {seg : Segment} (height : Nat → Nat) {isNullable : Prop}
    (parts : Consecutive (fun e => net.HasRank passable (nullable e)) es segs lo mid)
    (enters : net.out mid = waysIn segs) (ends : net.EndAt segs (mid + 1))
    (consumes : ∀ e ∈ es, ¬ nullable e)
    (left : mid ≤ seg.left ∧ seg.left < hi) (right : mid + 1 < seg.right ∧ seg.right < hi)
    (chain : ∀ n m, mid < n → n < hi → n ≠ seg.right → net.Glides passable n m →
      (mid ≤ m ∧ m < hi) ∧ (m = seg.right ∨ height m < height n))
    (low : ∀ n, mid < n → n < hi → height mid < height n)
    (imp : seg.left ≠ mid → isNullable) :
    net.HasRank passable isNullable seg lo hi := by
  obtain ⟨le, rank, late, ranking, ends'⟩ := ranking_all parts
  obtain ⟨bound, below'⟩ := exists_bound rank mid
  obtain ⟨top, below''⟩ := exists_bound height hi
  have notLate : ∀ s ∈ segs, ¬ late s.left := by
    intro s among isLate
    obtain ⟨e, member, holds⟩ := (ends' s among).2.2.2.2 isLate
    exact consumes e member holds
  have ways : net.out mid = (segs.map (·.left)).map .epsilon := by simp [enters, waysIn]
  classical
  let value (n : Nat) : Nat :=
    if n < mid then if late n then rank n + 1 + bound + top + 1 else rank n + 1
    else if n = seg.right then 0 else height n + bound + 1
  have step : ∀ n m, lo ≤ n → n < hi → n ≠ seg.right → net.Glides passable n m →
      (lo ≤ m ∧ m < hi) ∧ value m < value n ∧
        ((if m < mid then late m else m ≠ mid) → if n < mid then late n else n ≠ mid) := by
    intro n m above below apart glide
    rcases Nat.lt_trichotomy n mid with early | rfl | later
    · by_cases isEnd : n ∈ segs.map (·.right)
      · obtain ⟨s, among, rfl⟩ := List.mem_map.1 isEnd
        obtain rfl := glide.of_epsilon (ends s among)
        have isLate := ranking.ends _ isEnd
        have := below'' (mid + 1) (by omega)
        refine ⟨by omega, ?_, fun _ => by simp only [early, if_true]; exact isLate⟩
        simp only [value, early, isLate, if_true, show ¬ mid + 1 < mid by omega, if_false,
          show mid + 1 ≠ seg.right by omega]
        omega
      · have inside := ranking.stays n m above early isEnd glide
        have falls := ranking.falls n m above early isEnd glide
        have back := ranking.back n m above early isEnd glide
        refine ⟨by omega, ?_, by simp only [early, inside.2, if_true]; exact back⟩
        simp only [value, early, inside.2, if_true]
        have := below' m inside.2
        by_cases isLate : late m
        · simp only [isLate, back isLate, if_true]
          omega
        · simp only [isLate, if_false]
          split <;> omega
    · obtain ⟨s, among, rfl⟩ := List.mem_map.1 (glide.of_epsilons ways)
      have bounds := ends' s among
      have := below' s.left bounds.2.1
      refine ⟨by omega, ?_, fun isLate => absurd (by simpa only [bounds.2.1, if_true] using isLate)
        (notLate s among)⟩
      simp only [value, bounds.2.1, notLate s among, if_true, if_false, Nat.lt_irrefl,
        show n ≠ seg.right by omega]
      omega
    · obtain ⟨inside, falls⟩ := chain n m later below apart glide
      refine ⟨by omega, ?_, fun _ => by simp only [show ¬ n < mid by omega, if_false]; omega⟩
      simp only [value, show ¬ n < mid by omega, show ¬ m < mid by omega, if_false, apart]
      split
      · omega
      · rcases falls with isRight | falls
        · exact absurd isRight (by assumption)
        · omega
  refine ⟨by omega, by omega, value, fun n => if n < mid then late n else n ≠ mid,
    ⟨?_, ?_, ?_, ?_⟩, ?_⟩
  · exact fun n m above below apart glide => (step n m above below (by simpa using apart) glide).2.1
  · exact fun n m above below apart glide => (step n m above below (by simpa using apart) glide).2.2
  · exact fun n m above below apart glide => (step n m above below (by simpa using apart) glide).1
  · intro n isEnd
    obtain rfl := List.mem_singleton.1 isEnd
    simp only [show ¬ seg.right < mid by omega, if_false]
    omega
  · intro isLate
    simp only [show ¬ seg.left < mid by omega, if_false] at isLate
    exact imp isLate

/-! ## Every element -/

theorem Spelled.hasRank {cs : List Char} {left right : Nat} (spelled : net.Spelled cs left right) :
    net.HasRank passable (cs = []) ⟨left, right⟩ left (right + 1) := by
  induction spelled with
  | nil n =>
    refine ⟨by simp only []; omega, by simp only []; omega, fun _ => 0, fun _ => True, ⟨?_, ?_, ?_, ?_⟩,
      fun _ => rfl⟩
    · intro k m above below apart
      simp only [List.mem_singleton] at apart
      omega
    · exact fun _ _ _ _ _ _ _ => trivial
    · intro k m above below apart
      simp only [List.mem_singleton] at apart
      omega
    · exact fun _ _ => trivial
  | cons joined edge later ih =>
    rename_i c cs n right
    obtain ⟨⟨leftLow, leftHigh⟩, ⟨rightLow, rightHigh⟩, rank, late, ranking, -⟩ := ih
    simp only [] at leftLow leftHigh rightLow rightHigh
    -- The first character stands in the way, so nothing before it is late.
    have stuck {m : Nat} : ¬ net.Glides passable (n + 1) m :=
      not_glides_of_consume edge (Layout.atomLabel_consumes _)
    refine ⟨by simp only []; omega, by simp only []; omega,
      fun k => if k < n + 2 then n + 1 - k else rank k, fun k => n + 2 ≤ k ∧ late k, ⟨?_, ?_, ?_, ?_⟩, ?_⟩
    · intro k m above below apart glide
      rcases Nat.lt_or_ge k (n + 2) with early | later
      · obtain rfl | rfl : k = n ∨ k = n + 1 := by omega
        · obtain rfl := glide.of_epsilon joined
          simp
        · exact absurd glide stuck
      · have inside := ranking.stays k m later below apart glide
        simp only [Nat.not_lt.2 later, Nat.not_lt.2 inside.1, if_false]
        exact ranking.falls k m later below apart glide
    · intro k m above below apart glide isLate
      rcases Nat.lt_or_ge k (n + 2) with early | later
      · obtain rfl | rfl : k = n ∨ k = n + 1 := by omega
        · obtain rfl := glide.of_epsilon joined
          omega
        · exact absurd glide stuck
      · exact ⟨later, ranking.back k m later below apart glide isLate.2⟩
    · intro k m above below apart glide
      rcases Nat.lt_or_ge k (n + 2) with early | later
      · obtain rfl | rfl : k = n ∨ k = n + 1 := by omega
        · obtain rfl := glide.of_epsilon joined
          omega
        · exact absurd glide stuck
      · have inside := ranking.stays k m later below apart glide
        omega
    · intro k isEnd
      obtain rfl := List.mem_singleton.1 isEnd
      exact ⟨rightLow, ranking.ends _ (by simp)⟩
    · intro isLate
      simp only [] at isLate
      omega


/-- What is to be shown of an element: it has a rank, and it is decided whether it can match nothing. -/
structure Ranked (net : Network) (passable : Nat → Prop) (g : Grammar) (known : Array Bool)
    (e : Element) (seg : Segment) (lo hi : Nat) : Prop where
  rank : net.HasRank passable (g.nullable known e = .ok true) seg lo hi
  decided : g.Decided known e

theorem LeafLabel.ranked {g : Grammar} {known : Array Bool} {rule lo : Nat} {e : Element}
    {label : Label} (labelled : LeafLabel g rule e label) (edge : net.out lo = [⟨lo + 1, label⟩]) :
    net.Ranked passable g known e ⟨lo, lo + 1⟩ lo (lo + 2) := by
  have consuming (consumes : label.isEpsilon = false) (nullable : g.nullable known e = .ok false) :
      net.Ranked passable g known e ⟨lo, lo + 1⟩ lo (lo + 2) :=
    ⟨hasRank_pair fun m glide => absurd glide (not_glides_of_consume edge consumes), _, nullable⟩
  have asking (free : (Transition.mk (lo + 1) label).move = .free (lo + 1))
      (nullable : g.nullable known e = .ok true) :
      net.Ranked passable g known e ⟨lo, lo + 1⟩ lo (lo + 2) := by
    refine ⟨hasRank_pair fun m glide => ⟨?_, nullable⟩, _, nullable⟩
    have moves : net.moves lo = [.free (lo + 1)] := by rw [moves, edge, List.map_singleton, free]
    cases glide with
    | free inner move => simpa [moves] using move
    | skip inner move passed => simp [moves] at move
  cases labelled with
  | symbol v => exact consuming (Layout.atomLabel_consumes v) rfl
  | token type => exact consuming (Layout.atomLabel_consumes _) rfl
  | literal parser type =>
    exact consuming (Layout.atomLabel_consumes _) (by rw [Grammar.nullable, parser, Bool.false_and])
  | range inhabited => exact consuming (Layout.rangeLabel_consumes _ _) rfl
  | set s => exact consuming rfl rfl
  | notSet s => exact consuming rfl rfl
  | wildcard => exact consuming rfl rfl
  | eof => exact consuming rfl rfl
  | predicate pred ctx => exact asking rfl rfl
  | precedence p => exact asking rfl rfl
  | action i place => exact asking rfl rfl
  | command a place => exact asking rfl rfl

variable {g : Grammar} {known : Array Bool}

/-- The parts of an element, each with its rank, and which of them can match nothing. -/
theorem ranked_all {name : String} {es : List Element} {segs : List Segment} {lo hi : Nat}
    (parts : Consecutive (fun e seg lo hi => g.checkLoops known name e = .ok () →
      net.Ranked passable g known e seg lo hi) es segs lo hi)
    (checked : ∀ e ∈ es, g.checkLoops known name e = .ok ()) :
    Consecutive (fun e => net.HasRank passable (g.nullable known e = .ok true)) es segs lo hi ∧
      ∀ e ∈ es, g.Decided known e := by
  refine ⟨parts.imp fun e member seg lo hi ranked => (ranked (checked e member)).rank,
    fun e member => ?_⟩
  obtain ⟨seg, lo, hi, ranked⟩ := parts.each e member
  exact (ranked (checked e member)).decided

theorem Repeated.ranked {name : String} {q : Quantifier} {greedy : Bool} {body : Element}
    {segs : List Segment} {seg : Segment} {lo mid hi : Nat}
    (around : net.Repeated greedy segs mid q seg hi)
    (parts : Consecutive (fun e => net.HasRank passable (g.nullable known e = .ok true))
      body.branches segs lo mid)
    (decided : ∀ e ∈ body.branches, g.Decided known e)
    (checked : g.checkLoops known name (.repeated q greedy body) = .ok ()) :
    net.Ranked passable g known (.repeated q greedy body) seg lo hi := by
  obtain ⟨-, consumes⟩ := Grammar.checkLoops_repeated checked
  have noRound (loops : q ≠ .optional) : ∀ e ∈ body.branches, ¬ g.nullable known e = .ok true := by
    intro e member isNullable
    obtain ⟨b, any, iff⟩ := Grammar.nullableAny_ok decided
    rw [← Grammar.nullable_branches, consumes loops] at any
    cases any
    exact absurd (iff.2 ⟨e, member, isNullable⟩) (by simp)
  cases around with
  | optional enters ends =>
    have always : g.nullable known (.repeated .optional greedy body) = .ok true := rfl
    refine ⟨hasRank_block [mid + 1] parts ?_ ends (by simp [always]) fun _ _ _ => always,
      _, always⟩
    refine ⟨_, by rw [enters, show waysIn segs = (segs.map (·.left)).map .epsilon by simp [waysIn],
      show [Transition.epsilon (mid + 1)] = [mid + 1].map .epsilon from rfl, inOrder_epsilons],
      fun m member => ?_⟩
    cases greedy <;> simpa [or_comm] using member
  | star enters ends stops returns decides =>
    have always : g.nullable known (.repeated .star greedy body) = .ok true := rfl
    -- From the end of a round down to the way in: the block end, the loop back, the loop entry.
    let height (n : Nat) : Nat :=
      if n = mid + 1 then 3 else if n = mid + 3 then 2 else if n = mid then 0 else 1
    refine ⟨hasRank_loop height parts enters ends (noRound (by simp)) (by simp only []; omega)
      (by simp only []; omega) ?_ ?_ fun _ => always, _, always⟩
    · intro n m above below apart glide
      obtain rfl | rfl | rfl : n = mid + 1 ∨ n = mid + 2 ∨ n = mid + 3 := by
        simp only [] at apart
        omega
      · obtain rfl := glide.of_epsilon stops
        simp [height]
      · have among : m ∈ [mid, mid + 4] := by
          rw [show [Transition.epsilon mid] = [mid].map .epsilon from rfl,
            show [Transition.epsilon (mid + 4)] = [mid + 4].map .epsilon from rfl,
            inOrder_epsilons] at decides
          have := glide.of_epsilons decides
          cases greedy <;> simpa [or_comm] using this
        simp only [List.mem_cons, List.not_mem_nil, or_false] at among
        rcases among with rfl | rfl
        · simp [height]
        · simp
      · obtain rfl := glide.of_epsilon returns
        simp [height]
    · intro n above below
      have bottom : height mid = 0 := by simp [height]
      rw [bottom]
      simp only [height]
      split_ifs <;> omega
  | plus enters ends stops decides =>
    obtain ⟨b, any, iff⟩ := Grammar.nullableAny_ok decided
    rw [← Grammar.nullable_branches] at any
    let height (n : Nat) : Nat := if n = mid + 1 then 2 else if n = mid then 0 else 1
    refine ⟨hasRank_loop height parts enters ends (noRound (by simp)) (by simp only []; omega)
      (by simp only []; omega) ?_ ?_ fun apart => absurd rfl apart, b, any⟩
    · intro n m above below apart glide
      obtain rfl | rfl : n = mid + 1 ∨ n = mid + 2 := by
        simp only [] at apart
        omega
      · obtain rfl := glide.of_epsilon stops
        simp [height]
      · have among : m ∈ [mid, mid + 3] := by
          rw [show [Transition.epsilon mid] = [mid].map .epsilon from rfl,
            show [Transition.epsilon (mid + 3)] = [mid + 3].map .epsilon from rfl,
            inOrder_epsilons] at decides
          have := glide.of_epsilons decides
          cases greedy <;> simpa [or_comm] using this
        simp only [List.mem_cons, List.not_mem_nil, or_false] at among
        rcases among with rfl | rfl
        · simp [height]
        · simp
    · intro n above below
      have bottom : height mid = 0 := by simp [height]
      rw [bottom]
      simp only [height]
      split_ifs <;> omega

/-- Every element of a rule whose loops are in order has a rank. -/
theorem Laid.ranked {rule : Nat} {name : String}
    (callable : ∀ r < g.rules.length, passable (net.ruleStart r) → known.getD r false = true)
    {e : Element} {seg : Segment} {lo hi : Nat} (laid : net.Laid g rule e seg lo hi) :
    g.checkLoops known name e = .ok () → net.Ranked passable g known e seg lo hi := by
  refine laid.elim (P := fun e seg lo hi => g.checkLoops known name e = .ok () →
    net.Ranked passable g known e seg lo hi) ?_ ?_ ?_ ?_ ?_ ?_ ?_ ?_
  · intro e label lo labelled edge _
    exact LeafLabel.ranked labelled edge
  · intro name precedence callee lo index edge _
    have nullable : g.nullable known (.rule name precedence) = .ok (known.getD callee false) := by
      rw [Grammar.nullable, index]
      rfl
    refine ⟨hasRank_pair fun m glide => ?_, _, nullable⟩
    have moves : net.moves lo = [.call callee (net.ruleStart callee) (lo + 1)] := by
      rw [moves, edge]
      rfl
    cases glide with
    | free inner move => simp [moves] at move
    | skip inner move passed =>
      simp only [moves, List.mem_singleton, Move.call.injEq] at move
      obtain ⟨rfl, rfl, rfl⟩ := move
      exact ⟨rfl, by rw [nullable, callable _ (g.ruleIndex_lt index) passed]⟩
  · intro text lo right lexer spelled _
    have nullable : g.nullable known (.literal text) = .ok text.isEmpty := by
      rw [Grammar.nullable, lexer, Bool.true_and]
    have spelledRank : net.HasRank passable (text.toList = []) ⟨lo, right⟩ lo (right + 1) :=
      spelled.hasRank
    obtain ⟨left, right, rank, late, ranking, isNil⟩ := spelledRank
    refine ⟨⟨left, right, rank, late, ranking, fun isLate => ?_⟩, _, nullable⟩
    rw [nullable]
    have : text = "" := String.toList_eq_nil_iff.1 (isNil isLate)
    simp [this]
  · intro lo edge _
    have nullable : g.nullable known (.seq []) = .ok true := rfl
    exact ⟨hasRank_pair fun m glide => ⟨glide.of_epsilon edge, nullable⟩, _, nullable⟩
  · intro es segs seg lo hi parts chained checked
    rw [Grammar.checkLoops] at checked
    obtain ⟨ranks, decided⟩ := ranked_all parts (Grammar.checkLoopsAll_ok checked)
    obtain ⟨b, all, iff⟩ := Grammar.nullableAll_ok decided
    have rank := chained.hasRank ranks
    refine ⟨⟨rank.left, rank.right, ?_⟩, b, all⟩
    obtain ⟨rank, late, ranking, nullable⟩ := rank.ranked
    exact ⟨rank, late, ranking, fun isLate => by rw [Grammar.nullable, all, iff.2 (nullable isLate)]⟩
  · intro e seg lo hi part checked
    rw [Grammar.checkLoops] at checked
    have ranked := part (Grammar.checkLoopsAll_ok checked e (by simp))
    have same : g.nullable known (.alt [e]) = g.nullable known e := by
      rw [Grammar.nullable_branches (.alt [e])]
      exact (Grammar.nullableAny_single e)
    exact ⟨same ▸ ranked.rank, by rw [Grammar.Decided, same]; exact ranked.decided⟩
  · intro es segs lo mid _ parts enters ends checked
    rw [Grammar.checkLoops] at checked
    obtain ⟨ranks, decided⟩ := ranked_all parts (Grammar.checkLoopsAll_ok checked)
    obtain ⟨b, any, iff⟩ := Grammar.nullableAny_ok decided
    refine ⟨hasRank_block [] ranks ⟨segs.map (·.left), by simp [enters, waysIn], by simp⟩ ends
      (by simp) fun e member isNullable => ?_, b, any⟩
    rw [Grammar.nullable, any, iff.2 ⟨e, member, isNullable⟩]
  · intro q greedy body segs seg lo mid hi parts around checked
    obtain ⟨ranks, decided⟩ := ranked_all parts
      (Grammar.checkLoops_branches (Grammar.checkLoops_repeated checked).1)
    exact around.ranked ranks decided checked


end AdaptiveLL.Network
