import AdaptiveLL.Proofs.Context.Merging

/-!
# Remembered merges

A sequence of merges may share one memo, and each merge of the sequence has its own flag for what the
bottom of the stack means. The memo does not hold the flag. So a merge that finds a result which was
remembered with the other flag may give a wrong context.

This module says exactly when that happens. A merge *consults* the memo for its two contexts, and where
it finds nothing, for the continuations of their common return states. The merge gives what it gives
without a memo if and only if every result that it finds in this way is the right one for its own flag
(`Memo.Fits`). In particular merges that all have the same flag never disturb each other.
-/

set_option autoImplicit false

namespace AdaptiveLL.Context

/-! ## What a merge looks up -/

/-- Does a merge of two contexts look into the memo? Equal contexts are their own merge, and with local
context the bottom swallows a context of several entries at once. -/
def LooksUp (w : Bool) (a b : Context) : Prop :=
  a ≠ b ∧ ((a.isSingle = true ∧ b.isSingle = true) ∨ (w && (a.isEmpty || b.isEmpty)) = false)

/-- The memo is consulted for `x` and `y` in the course of a merge of `a` and `b`. -/
inductive Consults (w : Bool) (memo : Memo) : Context → Context → Context → Context → Prop where
  | here {a b : Context} (looks : LooksUp w a b) : Consults w memo a b a b
  | beneath {a b p q x y : Context} {ret : Nat} (looks : LooksUp w a b)
      (unknown : memo.find? a b = none) (left : (some ret, p) ∈ a.entries)
      (right : (some ret, q) ∈ b.entries) (deeper : Consults w memo p q x y) :
      Consults w memo a b x y

namespace Memo

/-- Every result that a merge of `a` and `b` finds in the memo is right for its flag. -/
def Fits (w : Bool) (memo : Memo) (a b : Context) : Prop :=
  ∀ x y c, Consults w memo a b x y → memo.find? x y = some c → c = merge w x y

/-- The memo gives the same answer for two contexts in either order. -/
def Coherent (memo : Memo) : Prop := ∀ a b, memo.find? a b = memo.find? b a

/-- The later memo keeps what the earlier one knows. What it knows beyond that is right for the flag,
and was found out by merges that the earlier memo did not mislead. -/
structure Extends (w : Bool) (earlier later : Memo) : Prop where
  kept : ∀ {x y c}, earlier.find? x y = some c → later.find? x y = some c
  right : ∀ {x y c}, earlier.find? x y = none → later.find? x y = some c → c = merge w x y
  fits : ∀ {x y c}, earlier.find? x y = none → later.find? x y = some c → earlier.Fits w x y
  coherent : later.Coherent

end Memo

theorem LooksUp.symm {w : Bool} {a b : Context} (looks : LooksUp w a b) : LooksUp w b a := by
  refine ⟨Ne.symm looks.1, ?_⟩
  rcases looks.2 with ⟨singleA, singleB⟩ | free
  · exact Or.inl ⟨singleB, singleA⟩
  · exact Or.inr (by rwa [Bool.or_comm])

theorem Consults.symm {w : Bool} {memo : Memo} (coherent : memo.Coherent) {a b x y : Context}
    (consults : Consults w memo a b x y) : Consults w memo b a y x := by
  induction consults with
  | here looks => exact .here looks.symm
  | beneath looks unknown left right _ ih =>
    exact .beneath looks.symm (by rwa [coherent]) right left ih

/-- What is consulted for well-formed contexts is well formed. -/
theorem Consults.wellFormed {w : Bool} {memo : Memo} {a b x y : Context}
    (consults : Consults w memo a b x y) (formedA : a.WellFormed) (formedB : b.WellFormed) :
    x.WellFormed ∧ y.WellFormed := by
  induction consults with
  | here _ => exact ⟨formedA, formedB⟩
  | beneath _ _ left right _ ih => exact ih (formedA.of_mem left).1 (formedB.of_mem right).1

theorem Memo.Fits.symm {w : Bool} {memo : Memo} (coherent : memo.Coherent) {a b : Context}
    (formedA : a.WellFormed) (formedB : b.WellFormed) (fits : memo.Fits w a b) :
    memo.Fits w b a := by
  intro x y c consults found
  have formed := consults.wellFormed formedB formedA
  rw [merge_comm w x y formed.1 formed.2]
  exact fits y x c (consults.symm coherent) (by rwa [coherent])

/-! ## How memos grow -/

namespace Memo

theorem Extends.refl {w : Bool} {memo : Memo} (coherent : memo.Coherent) :
    Extends w memo memo where
  kept found := found
  right unknown found := by rw [unknown] at found; cases found
  fits unknown found := by rw [unknown] at found; cases found
  coherent := coherent

/-- A memo that grew by right results misleads exactly the merges that it misled before. -/
theorem Extends.fits_iff {w : Bool} {earlier later : Memo} (growth : Extends w earlier later)
    {a b : Context} : later.Fits w a b ↔ earlier.Fits w a b := by
  constructor
  · intro fits x y c consults
    induction consults with
    | here looks => exact fun found => fits _ _ _ (.here looks) (growth.kept found)
    | @beneath a b p q x y ret looks unknown left right deeper ih =>
      intro found
      cases known : later.find? a b with
      | some d => exact growth.fits unknown known x y c (.beneath looks unknown left right deeper) found
      | none =>
        refine ih (fun x y c consults => ?_) found
        exact fits x y c (.beneath looks known left right consults)
  · intro fits x y c consults
    induction consults with
    | @here a b looks =>
      intro found
      cases known : earlier.find? a b with
      | none => exact growth.right known found
      | some d =>
        have same := growth.kept known
        rw [found] at same
        cases same
        exact fits _ _ _ (.here looks) known
    | @beneath a b p q x y ret looks unknown left right deeper ih =>
      have before : earlier.find? a b = none := by
        cases known : earlier.find? a b with
        | none => rfl
        | some d =>
          have still := growth.kept known
          rw [unknown] at still
          cases still
      exact ih fun x y c consults => fits x y c (.beneath looks before left right consults)

theorem Extends.trans {w : Bool} {first second third : Memo} (before : Extends w first second)
    (after : Extends w second third) : Extends w first third where
  kept found := after.kept (before.kept found)
  right {x y c} unknown found := by
    cases known : second.find? x y with
    | none => exact after.right known found
    | some d =>
      have same := after.kept known
      rw [found] at same
      cases same
      exact before.right unknown known
  fits {x y c} unknown found := by
    cases known : second.find? x y with
    | none => exact before.fits_iff.1 (after.fits known found)
    | some d => exact before.fits unknown known
  coherent := after.coherent

theorem store_fst (memo : Memo) (a b c : Context) : (memo.store a b c).1 = c :=
  share_fst memo c

theorem store_snd_known (memo : Memo) (a b c : Context) :
    (memo.store a b c).2.known = memo.known.insert (a, b) c := by
  have kept : (memo.share c).2.known = memo.known := by
    unfold share
    split <;> rfl
  show (memo.share c).2.known.insert (a, b) (memo.share c).1 = _
  rw [kept, share_fst]

/-- After a merge is remembered it is found in either order, and nothing else changes. -/
theorem store_find? {memo : Memo} (coherent : memo.Coherent) {a b c : Context}
    (agreed : ∀ d, memo.find? a b = some d → d = c) (x y : Context) :
    (memo.store a b c).2.find? x y =
      if (x = a ∧ y = b) ∨ (x = b ∧ y = a) then some c else memo.find? x y := by
  have unfolded : (memo.store a b c).2.find? x y =
      ((memo.known.insert (a, b) c)[(x, y)]?).or ((memo.known.insert (a, b) c)[(y, x)]?) := by
    rw [find?, store_snd_known]
  rw [unfolded]
  simp only [Std.HashMap.getElem?_insert]
  by_cases first : x = a ∧ y = b
  · obtain ⟨rfl, rfl⟩ := first
    simp
  · have differ : ((a, b) == (x, y)) = false := by
      simp only [beq_eq_false_iff_ne, ne_eq, Prod.mk.injEq]
      rintro ⟨rfl, rfl⟩
      exact first ⟨rfl, rfl⟩
    by_cases second : x = b ∧ y = a
    · obtain ⟨rfl, rfl⟩ := second
      rw [differ]
      simp only [Bool.false_eq_true, if_false, beq_self_eq_true, if_true, or_true, and_self]
      cases other : memo.known[(x, y)]? with
      | none => rfl
      | some d =>
        have found : memo.find? x y = some d := by simp [find?, other]
        rw [coherent] at found
        simp [agreed d found]
    · have differ' : ((a, b) == (y, x)) = false := by
        simp only [beq_eq_false_iff_ne, ne_eq, Prod.mk.injEq]
        rintro ⟨rfl, rfl⟩
        exact second ⟨rfl, rfl⟩
      simp [differ, differ', first, second, find?]

/-- Remembering a right result for contexts that the memo did not mislead is a growth. -/
theorem Extends.store {w : Bool} {memo : Memo} (coherent : memo.Coherent) {a b : Context}
    (formedA : a.WellFormed) (formedB : b.WellFormed)
    (agreed : ∀ d, memo.find? a b = some d → d = merge w a b) (fits : memo.Fits w a b) :
    Extends w memo (memo.store a b (merge w a b)).2 where
  kept {x y c} found := by
    rw [store_find? coherent agreed]
    split
    · next same =>
      rcases same with ⟨rfl, rfl⟩ | ⟨rfl, rfl⟩
      · rw [agreed c found]
      · rw [coherent] at found
        rw [agreed c found]
    · exact found
  right {x y c} unknown found := by
    rw [store_find? coherent agreed] at found
    split at found
    · next same =>
      cases found
      rcases same with ⟨rfl, rfl⟩ | ⟨rfl, rfl⟩
      · rfl
      · exact merge_comm w _ _ formedA formedB
    · rw [unknown] at found
      cases found
  fits {x y c} unknown found := by
    rw [store_find? coherent agreed] at found
    split at found
    · next same =>
      rcases same with ⟨rfl, rfl⟩ | ⟨rfl, rfl⟩
      · exact fits
      · exact fits.symm coherent formedA formedB
    · rw [unknown] at found
      cases found
  coherent := by
    intro x y
    rw [store_find? coherent agreed, store_find? coherent agreed, coherent x y]
    simp only [and_comm, or_comm]

end Memo

/-! ## One merge -/

/-- What follows the common return states of two lists is not misled by the memo. -/
def Memo.FitsEntries (w : Bool) (memo : Memo) (a b : Context) : Prop :=
  ∀ ret p q, (some ret, p) ∈ a.entries → (some ret, q) ∈ b.entries → memo.Fits w p q

theorem not_mem_of_above {c : Context} (formed : c.WellFormed) {r : Option Nat} (above : c.Above r)
    (p : Context) : (r, p) ∉ c.entries := fun member =>
  ne_of_precedes (precedes_of_mem formed above member) rfl

section FitsEntries

variable {w : Bool} {memo : Memo}

theorem fitsEntries_nil_left (b : Context) : memo.FitsEntries w .nil b := by
  intro ret p q left
  simp [entries] at left

theorem fitsEntries_nil_right (a : Context) : memo.FitsEntries w a .nil := by
  intro ret p q _ right
  simp [entries] at right

theorem fitsEntries_empty_left (b : Context) : memo.FitsEntries w empty b := by
  intro ret p q left
  simp [empty, entries] at left

theorem fitsEntries_empty_right (a : Context) : memo.FitsEntries w a empty := by
  intro ret p q _ right
  simp [empty, entries] at right

theorem fitsEntries_cons_same {n : Nat} {p q restA restB : Context}
    (formedA : (cons (some n) p restA).WellFormed) (formedB : (cons (some n) q restB).WellFormed) :
    memo.FitsEntries w (.cons (some n) p restA) (.cons (some n) q restB) ↔
      memo.Fits w p q ∧ memo.FitsEntries w restA restB := by
  constructor
  · intro fits
    refine ⟨fits n p q (by simp [entries]) (by simp [entries]), fun ret p' q' left right => ?_⟩
    exact fits ret p' q' (by simp [entries, left]) (by simp [entries, right])
  · rintro ⟨here, later⟩ ret p' q' left right
    simp only [entries, List.mem_cons, Prod.mk.injEq, Option.some.injEq] at left right
    rcases left with ⟨rfl, rfl⟩ | left
    · rcases right with ⟨_, rfl⟩ | right
      · exact here
      · exact absurd right (not_mem_of_above formedB.2.2.2 formedB.2.2.1 q')
    · rcases right with ⟨rfl, rfl⟩ | right
      · exact absurd left (not_mem_of_above formedA.2.2.2 formedA.2.2.1 p')
      · exact later ret p' q' left right

theorem fitsEntries_cons_left {r : Option Nat} {p restA b : Context} (formedB : b.WellFormed)
    (above : b.Above r) :
    memo.FitsEntries w (.cons r p restA) b ↔ memo.FitsEntries w restA b := by
  constructor
  · intro fits ret p' q' left right
    exact fits ret p' q' (by simp [entries, left]) right
  · intro fits ret p' q' left right
    simp only [entries, List.mem_cons, Prod.mk.injEq] at left
    rcases left with ⟨rfl, rfl⟩ | left
    · exact absurd right (not_mem_of_above formedB above q')
    · exact fits ret p' q' left right

theorem fitsEntries_cons_right {s : Option Nat} {q restB a : Context} (formedA : a.WellFormed)
    (above : a.Above s) :
    memo.FitsEntries w a (.cons s q restB) ↔ memo.FitsEntries w a restB := by
  constructor
  · intro fits ret p' q' left right
    exact fits ret p' q' left (by simp [entries, right])
  · intro fits ret p' q' left right
    simp only [entries, List.mem_cons, Prod.mk.injEq] at right
    rcases right with ⟨rfl, rfl⟩ | right
    · exact absurd left (not_mem_of_above formedA above p')
    · exact fits ret p' q' left right

theorem Memo.Extends.fitsEntries_iff {later : Memo} (growth : Memo.Extends w memo later)
    {a b : Context} : later.FitsEntries w a b ↔ memo.FitsEntries w a b := by
  unfold Memo.FitsEntries
  simp only [growth.fits_iff]

/-- A merge that finds nothing for its own contexts depends on what it finds below them. -/
theorem fits_iff_fitsEntries {a b : Context} (looks : LooksUp w a b)
    (unknown : memo.find? a b = none) : memo.Fits w a b ↔ memo.FitsEntries w a b := by
  constructor
  · intro fits ret p q left right x y c consults
    exact fits x y c (.beneath looks unknown left right consults)
  · intro fits x y c consults found
    cases consults with
    | here _ =>
      rw [unknown] at found
      cases found
    | beneath _ _ left right deeper => exact fits _ _ _ left right x y c deeper found

theorem fits_of_not_looksUp {a b : Context} (idle : ¬ LooksUp w a b) : memo.Fits w a b := by
  intro x y c consults
  cases consults with
  | here looks => exact absurd looks idle
  | beneath looks _ _ _ _ => exact absurd looks idle

end FitsEntries

section Steps

variable {w : Bool} {memo : Memo} {a b : Context}

theorem mergeMemo_of_not_looksUp (formedA : a.WellFormed) (formedB : b.WellFormed)
    (idle : ¬ LooksUp w a b) : mergeMemo w a b memo = (merge w a b, memo) := by
  rw [mergeMemo]
  by_cases same : a = b
  · rw [if_pos same, same, merge_self]
  · have swallowed : (w && (a.isEmpty || b.isEmpty)) = true := by
      by_contra free
      exact idle ⟨same, Or.inr (by simpa using free)⟩
    have several : ¬ (a.isSingle && b.isSingle) = true := fun single =>
      idle ⟨same, Or.inl (by simpa using single)⟩
    rw [if_neg same, if_neg several, merge_eq formedA formedB, if_pos swallowed]
    simp only [Bool.and_eq_true, Bool.or_eq_true] at swallowed
    rcases swallowed with ⟨rfl, bottom | bottom⟩
    · simp [formedA.eq_empty bottom]
    · by_cases bottomA : a.isEmpty = true
      · simp [formedA.eq_empty bottomA]
      · simp [bottomA, formedB.eq_empty bottom]

theorem mergeMemo_of_found (looks : LooksUp w a b) {c : Context} (found : memo.find? a b = some c) :
    mergeMemo w a b memo = (c, memo) := by
  rw [mergeMemo, if_neg looks.1]
  by_cases single : (a.isSingle && b.isSingle) = true
  · rw [if_pos single, found]
  · have free : (w && (a.isEmpty || b.isEmpty)) = false := by
      rcases looks.2 with both | free
      · exact absurd (by simpa using both) single
      · exact free
    simp only [Bool.and_eq_false_iff, Bool.or_eq_false_iff] at free
    rw [if_neg single, found]
    rcases free with rfl | ⟨freeA, freeB⟩
    · simp
    · simp [freeA, freeB]

/-- Two single entries, one of them the bottom, with local context. -/
theorem mergeMemo_of_swallowed (looks : LooksUp w a b) (unknown : memo.find? a b = none)
    (swallowed : (w && (a.isEmpty || b.isEmpty)) = true) :
    mergeMemo w a b memo = memo.store a b empty := by
  have single : (a.isSingle && b.isSingle) = true := by
    rcases looks.2 with both | free
    · simpa using both
    · rw [swallowed] at free
      cases free
  simp only [Bool.and_eq_true] at swallowed
  obtain ⟨rfl, bottom⟩ := swallowed
  rw [mergeMemo, if_neg looks.1, if_pos single, unknown]
  simp [mergeRoot, bottom]

theorem mergeParents_of_present {p q : Context} (presentP : p ≠ .nil) (presentQ : q ≠ .nil) :
    mergeParents w p q memo = mergeMemo w p q memo := by
  rw [mergeParents, if_neg presentP, if_neg presentQ]

theorem mergeEntriesMemo_nil_left : mergeEntriesMemo w .nil b memo = (b, memo) := by
  rw [mergeEntriesMemo.eq_def]

theorem mergeEntriesMemo_nil_right : mergeEntriesMemo w a .nil memo = (a, memo) := by
  rw [mergeEntriesMemo.eq_def]
  cases a <;> rfl

theorem mergeEntriesMemo_cons_same {r : Option Nat} {p q restA restB : Context} :
    mergeEntriesMemo w (.cons r p restA) (.cons r q restB) memo =
      let first := mergeParents w p q memo
      let later := mergeEntriesMemo w restA restB first.2
      (.cons r first.1 later.1, later.2) := by
  rw [mergeEntriesMemo.eq_def]
  simp only [if_true]

theorem mergeEntriesMemo_cons_left {r s : Option Nat} {p q restA restB : Context}
    (before : precedes r s = true) :
    mergeEntriesMemo w (.cons r p restA) (.cons s q restB) memo =
      let later := mergeEntriesMemo w restA (.cons s q restB) memo
      (.cons r p later.1, later.2) := by
  rw [mergeEntriesMemo.eq_def]
  simp only [if_neg (ne_of_precedes before), if_pos before]

theorem mergeEntriesMemo_cons_right {r s : Option Nat} {p q restA restB : Context}
    (behind : precedes s r = true) :
    mergeEntriesMemo w (.cons r p restA) (.cons s q restB) memo =
      let later := mergeEntriesMemo w (.cons r p restA) restB memo
      (.cons s q later.1, later.2) := by
  rw [mergeEntriesMemo.eq_def]
  simp only [if_neg (ne_of_precedes behind).symm, if_neg (not_precedes_of_precedes behind)]

theorem mergeEntriesMemo_of_ne {r s : Option Nat} {p q : Context} (differ : r ≠ s) :
    mergeEntriesMemo w (.cons r p .nil) (.cons s q .nil) memo =
      (mergeEntries w (.cons r p .nil) (.cons s q .nil), memo) := by
  rw [mergeEntries_cons, if_neg differ]
  by_cases before : precedes r s = true
  · rw [mergeEntriesMemo_cons_left before, if_pos before, mergeEntriesMemo_nil_left,
      mergeEntries_nil_left]
  · rw [mergeEntriesMemo_cons_right (precedes_of_ne differ before), if_neg before,
      mergeEntriesMemo_nil_right, mergeEntries_nil_right]

/-- The entries of a root merge that is not a merge of equal contexts have different return states. -/
theorem ne_of_mergeRoot {r s : Option Nat} {p q c : Context}
    (formedA : (cons r p .nil).WellFormed) (formedB : (cons s q .nil).WellFormed)
    (differ : cons r p .nil ≠ cons s q .nil)
    (root : mergeRoot false (.cons r p .nil) (.cons s q .nil) = some c) : r ≠ s := by
  rintro rfl
  cases r with
  | none =>
    have absentP := formedA.1.1 rfl
    have absentQ := formedB.1.1 rfl
    exact differ (by rw [absentP, absentQ])
  | some n => simp [mergeRoot, isEmpty] at root

/-- Two single entries are joined like longer lists. The result is remembered unless it is one of the
two. -/
theorem mergeMemo_of_singles {r s : Option Nat} {p q : Context}
    (formedA : (cons r p .nil).WellFormed) (formedB : (cons s q .nil).WellFormed)
    (looks : LooksUp w (.cons r p .nil) (.cons s q .nil))
    (unknown : memo.find? (.cons r p .nil) (.cons s q .nil) = none)
    (free : (w && ((cons r p .nil).isEmpty || (cons s q .nil).isEmpty)) = false) :
    let joined := mergeEntriesMemo w (.cons r p .nil) (.cons s q .nil) memo
    mergeMemo w (.cons r p .nil) (.cons s q .nil) memo = joined ∨
      mergeMemo w (.cons r p .nil) (.cons s q .nil) memo =
        joined.2.store (.cons r p .nil) (.cons s q .nil) joined.1 := by
  rw [mergeMemo, if_neg looks.1, if_pos (by simp [isSingle]), unknown]
  cases root : mergeRoot w (.cons r p .nil) (.cons s q .nil) with
  | some c =>
    have full : w = false := by
      cases w with
      | false => rfl
      | true =>
        have neither : ((cons r p .nil).isEmpty || (cons s q .nil).isEmpty) = false := by
          simpa using free
        simp [mergeRoot, neither] at root
    subst full
    right
    rw [mergeEntriesMemo_of_ne (ne_of_mergeRoot formedA formedB looks.1 root),
      mergeRoot_false formedA formedB looks.1 rfl rfl c root]
  | none =>
    simp only
    by_cases same : r = s
    · subst same
      rw [mergeEntriesMemo_cons_same]
      simp only [mergeSingles, if_true, mergeEntriesMemo_nil_left]
      by_cases first : (mergeParents w p q memo).1 = p
      · left
        simp [first]
      · by_cases second : (mergeParents w p q memo).1 = q
        · left
          have other : q ≠ p := fun same => first (second.trans same)
          simp [second, other]
        · right
          simp [first, second, singleton]
    · right
      by_cases before : precedes r s = true
      · rw [mergeEntriesMemo_cons_left before]
        simp [mergeSingles, same, before, mergeEntriesMemo_nil_left, singleton]
      · rw [mergeEntriesMemo_cons_right (precedes_of_ne same before)]
        simp [mergeSingles, same, before, mergeEntriesMemo_nil_right, singleton]

/-- A merge that finds nothing and swallows nothing joins the entries, and may remember the result. -/
theorem mergeMemo_of_entries (formedA : a.WellFormed) (formedB : b.WellFormed)
    (looks : LooksUp w a b) (unknown : memo.find? a b = none)
    (free : (w && (a.isEmpty || b.isEmpty)) = false) :
    let joined := mergeEntriesMemo w a b memo
    mergeMemo w a b memo = joined ∨ mergeMemo w a b memo = joined.2.store a b joined.1 := by
  by_cases single : (a.isSingle && b.isSingle) = true
  · simp only [Bool.and_eq_true] at single
    match a, b, single with
    | .cons r p .nil, .cons s q .nil, _ =>
      exact mergeMemo_of_singles formedA formedB looks unknown free
  · right
    rw [mergeMemo, if_neg looks.1, if_neg single, unknown]
    have freeA : ¬ (w && a.isEmpty) = true := by
      intro bottom
      simp only [Bool.and_eq_true] at bottom
      simp [bottom.1, bottom.2] at free
    have freeB : ¬ (w && b.isEmpty) = true := by
      intro bottom
      simp only [Bool.and_eq_true] at bottom
      simp [bottom.1, bottom.2] at free
    rw [if_neg freeA, if_neg freeB]
    simp only
    congr 1
    split
    · next same => exact same.symm
    · split
      · next same => exact same.symm
      · rfl

end Steps

mutual

/-- A merge gives what it gives without a memo exactly when the memo does not mislead it, and then the
memo grows by right results only. -/
theorem mergeMemo_spec (w : Bool) (a b : Context) (memo : Memo) (formedA : a.WellFormed)
    (formedB : b.WellFormed) (coherent : memo.Coherent) :
    ((mergeMemo w a b memo).1 = merge w a b ↔ memo.Fits w a b) ∧
      (memo.Fits w a b → Memo.Extends w memo (mergeMemo w a b memo).2) := by
  by_cases looks : LooksUp w a b
  · cases known : memo.find? a b with
    | some c =>
      rw [mergeMemo_of_found looks known]
      refine ⟨⟨fun same x y d consults found => ?_, fun fits => fits a b c (.here looks) known⟩,
        fun _ => .refl coherent⟩
      cases consults with
      | here _ =>
        rw [known] at found
        cases found
        exact same
      | beneath _ unknown _ _ _ =>
        rw [known] at unknown
        cases unknown
    | none =>
      by_cases swallowed : (w && (a.isEmpty || b.isEmpty)) = true
      · have plain : merge w a b = empty := by rw [merge_eq formedA formedB, if_pos swallowed]
        have fits : memo.Fits w a b := by
          rw [fits_iff_fitsEntries looks known]
          simp only [Bool.and_eq_true, Bool.or_eq_true] at swallowed
          rcases swallowed.2 with bottom | bottom
          · rw [formedA.eq_empty bottom]
            exact fitsEntries_empty_left b
          · rw [formedB.eq_empty bottom]
            exact fitsEntries_empty_right a
        rw [mergeMemo_of_swallowed looks known swallowed, ← plain, Memo.store_fst]
        refine ⟨⟨fun _ => fits, fun _ => rfl⟩, fun _ => ?_⟩
        exact .store coherent formedA formedB (fun d found => by rw [known] at found; cases found) fits
      · have free : (w && (a.isEmpty || b.isEmpty)) = false := by simpa using swallowed
        have plain : merge w a b = mergeEntries w a b := by
          rw [merge_eq formedA formedB, if_neg swallowed]
        obtain ⟨right, growth⟩ := mergeEntriesMemo_spec w a b memo formedA formedB coherent
        rw [plain, fits_iff_fitsEntries looks known]
        rcases mergeMemo_of_entries formedA formedB looks known free with step | step
        · rw [step]
          exact ⟨right, growth⟩
        · rw [step, Memo.store_fst]
          refine ⟨right, fun fits => ?_⟩
          have grown := growth fits
          have value : (mergeEntriesMemo w a b memo).1 = merge w a b := by rw [plain, right.2 fits]
          rw [value]
          refine grown.trans (.store grown.coherent formedA formedB ?_ ?_)
          · exact fun d found => grown.right known found
          · exact grown.fits_iff.2 ((fits_iff_fitsEntries looks known).2 fits)
  · rw [mergeMemo_of_not_looksUp formedA formedB looks]
    exact ⟨⟨fun _ => fits_of_not_looksUp looks, fun _ => rfl⟩, fun _ => .refl coherent⟩
termination_by (sizeOf a + sizeOf b, 1)

theorem mergeEntriesMemo_spec (w : Bool) (a b : Context) (memo : Memo) (formedA : a.WellFormed)
    (formedB : b.WellFormed) (coherent : memo.Coherent) :
    ((mergeEntriesMemo w a b memo).1 = mergeEntries w a b ↔ memo.FitsEntries w a b) ∧
      (memo.FitsEntries w a b → Memo.Extends w memo (mergeEntriesMemo w a b memo).2) := by
  match a, b with
  | .nil, b =>
    rw [mergeEntriesMemo_nil_left, mergeEntries_nil_left]
    exact ⟨⟨fun _ => fitsEntries_nil_left b, fun _ => rfl⟩, fun _ => .refl coherent⟩
  | .cons r p restA, .nil =>
    rw [mergeEntriesMemo_nil_right, mergeEntries_nil_right]
    exact ⟨⟨fun _ => fitsEntries_nil_right _, fun _ => rfl⟩, fun _ => .refl coherent⟩
  | .cons r p restA, .cons s q restB =>
    rw [mergeEntries_cons]
    by_cases same : r = s
    · subst same
      rw [if_pos rfl, mergeEntriesMemo_cons_same]
      cases r with
      | none =>
        obtain rfl := formedA.1.1 rfl
        obtain rfl := formedB.1.1 rfl
        obtain rfl := formedA.rest_of_none
        obtain rfl := formedB.rest_of_none
        simp only [mergeParents, if_true, mergeEntriesMemo_nil_left, merge_self, mergeEntries_nil_left]
        exact ⟨⟨fun _ => fitsEntries_empty_left _, fun _ => trivial⟩, fun _ => .refl coherent⟩
      | some n =>
        have presentP : p ≠ .nil := fun absent => by simpa using formedA.1.2 absent
        have presentQ : q ≠ .nil := fun absent => by simpa using formedB.1.2 absent
        obtain ⟨rightP, growthP⟩ := mergeMemo_spec w p q memo formedA.2.1 formedB.2.1 coherent
        rw [fitsEntries_cons_same formedA formedB, mergeParents_of_present presentP presentQ]
        -- a wrong continuation stays visible in the result, whatever happens behind it
        by_cases fits : memo.Fits w p q
        · have grown := growthP fits
          obtain ⟨right, growth⟩ := mergeEntriesMemo_spec w restA restB (mergeMemo w p q memo).2
            formedA.2.2.2 formedB.2.2.2 grown.coherent
          rw [grown.fitsEntries_iff] at right growth
          refine ⟨?_, fun both => grown.trans (growth both.2)⟩
          simp only [cons.injEq, true_and, rightP.2 fits]
          exact right.trans ⟨fun later => ⟨fits, later⟩, fun both => both.2⟩
        · refine ⟨⟨fun same => ?_, fun both => absurd both.1 fits⟩, fun both => absurd both.1 fits⟩
          simp only [cons.injEq, true_and] at same
          exact absurd (rightP.1 same.1) fits
    · rw [if_neg same]
      by_cases before : precedes r s = true
      · rw [if_pos before, mergeEntriesMemo_cons_left before,
          fitsEntries_cons_left formedB before]
        obtain ⟨right, growth⟩ :=
          mergeEntriesMemo_spec w restA (.cons s q restB) memo formedA.2.2.2 formedB coherent
        exact ⟨by simpa using right, growth⟩
      · have behind := precedes_of_ne same before
        rw [if_neg before, mergeEntriesMemo_cons_right behind,
          fitsEntries_cons_right formedA behind]
        obtain ⟨right, growth⟩ :=
          mergeEntriesMemo_spec w (.cons r p restA) restB memo formedA formedB.2.2.2 coherent
        exact ⟨by simpa using right, growth⟩
termination_by (sizeOf a + sizeOf b, 0)

end

/-! ## Sequences of merges -/

/-- A merge of two contexts with its own flag. -/
structure MergeCall where
  wild : Bool
  left : Context
  right : Context

namespace MergeCall

/-- The merge without a memo. -/
def plain (call : MergeCall) : Context := merge call.wild call.left call.right

/-- Are both contexts well formed? -/
def WellFormed (call : MergeCall) : Prop := call.left.WellFormed ∧ call.right.WellFormed

/-- The memo does not mislead the merge. -/
def FitsIn (call : MergeCall) (memo : Memo) : Prop := memo.Fits call.wild call.left call.right

end MergeCall

/-- The results of merges that share one memo, in order, and the memo that they leave. -/
def mergeAll : List MergeCall → Memo → List Context × Memo
  | [], memo => ([], memo)
  | call :: calls, memo =>
    let (merged, memo) := mergeMemo call.wild call.left call.right memo
    let (rest, memo) := mergeAll calls memo
    (merged :: rest, memo)

theorem coherent_empty : Memo.Coherent {} := by
  intro a b
  simp [Memo.find?]

/-- Everything that the memo knows is right for the flag. -/
def Memo.Right (w : Bool) (memo : Memo) : Prop :=
  ∀ x y c, memo.find? x y = some c → c = merge w x y

theorem right_empty (w : Bool) : Memo.Right w {} := by
  intro x y c found
  simp [Memo.find?] at found

theorem Memo.Right.fits {w : Bool} {memo : Memo} (right : memo.Right w) (a b : Context) :
    memo.Fits w a b := fun x y c _ found => right x y c found

theorem Memo.Right.extends {w : Bool} {memo later : Memo} (right : memo.Right w)
    (growth : Memo.Extends w memo later) : later.Right w := by
  intro x y c found
  cases known : memo.find? x y with
  | none => exact growth.right known found
  | some d =>
    have kept := growth.kept known
    rw [found] at kept
    cases kept
    exact right x y c known

/-- The merges of a sequence are all right exactly when none of them is misled by the memo that those
before it leave. -/
theorem mergeAll_right_iff (calls : List MergeCall) (memo : Memo) (coherent : memo.Coherent)
    (formed : ∀ call ∈ calls, call.WellFormed) :
    (mergeAll calls memo).1 = calls.map MergeCall.plain ↔
      ∀ earlier call later, calls = earlier ++ call :: later →
        call.FitsIn (mergeAll earlier memo).2 := by
  induction calls generalizing memo with
  | nil =>
    refine ⟨fun _ earlier call later split => ?_, fun _ => rfl⟩
    simp at split
  | cons call calls ih =>
    have formedHere := formed call (by simp)
    obtain ⟨right, growth⟩ := mergeMemo_spec call.wild call.left call.right memo formedHere.1
      formedHere.2 coherent
    have unfolded : (mergeAll (call :: calls) memo).1 = (call :: calls).map MergeCall.plain ↔
        (mergeMemo call.wild call.left call.right memo).1 = call.plain ∧
          (mergeAll calls (mergeMemo call.wild call.left call.right memo).2).1 =
            calls.map MergeCall.plain := by
      simp [mergeAll]
    rw [unfolded]
    constructor
    · rintro ⟨first, rest⟩ earlier other later split
      have grown := growth (right.1 first)
      cases earlier with
      | nil =>
        obtain ⟨rfl, rfl⟩ := List.cons.inj split
        exact right.1 first
      | cons before earlier =>
        obtain ⟨rfl, parts⟩ := List.cons.inj split
        have tail := (ih _ grown.coherent fun c member => formed c (by simp [member])).1 rest
        exact tail earlier other later parts
    · intro fits
      have first : memo.Fits call.wild call.left call.right := fits [] call calls rfl
      have grown := growth first
      refine ⟨right.2 first, ?_⟩
      refine (ih _ grown.coherent fun c member => formed c (by simp [member])).2 ?_
      intro earlier other later split
      exact fits (call :: earlier) other later (by rw [split]; rfl)

/-- Merges that all have the same flag leave a memo that is right for it. -/
theorem mergeAll_of_one_flag (w : Bool) (calls : List MergeCall) (memo : Memo)
    (coherent : memo.Coherent) (known : memo.Right w) (formed : ∀ call ∈ calls, call.WellFormed)
    (flags : ∀ call ∈ calls, call.wild = w) :
    (mergeAll calls memo).1 = calls.map MergeCall.plain := by
  induction calls generalizing memo with
  | nil => rfl
  | cons call calls ih =>
    have formedHere := formed call (by simp)
    obtain rfl := flags call (by simp)
    obtain ⟨right, growth⟩ := mergeMemo_spec call.wild call.left call.right memo formedHere.1
      formedHere.2 coherent
    have fits := known.fits call.left call.right
    have grown := growth fits
    have rest := ih _ grown.coherent (known.extends grown) (fun c member => formed c (by simp [member]))
      (fun c member => flags c (by simp [member]))
    simp [mergeAll, rest, right.2 fits, MergeCall.plain]

/-- **Remembered merges.** In a sequence of merges of well-formed contexts that share one memo, every
merge gives what it gives without a memo if and only if none of them finds, among what those before it
remembered, a result that is wrong for its own flag. Merges that all have the same flag never do. -/
theorem mergeAll_eq_plain_iff (calls : List MergeCall) (formed : ∀ call ∈ calls, call.WellFormed) :
    ((mergeAll calls {}).1 = calls.map MergeCall.plain ↔
      ∀ earlier call later, calls = earlier ++ call :: later →
        call.FitsIn (mergeAll earlier {}).2) ∧
    ((∃ w, ∀ call ∈ calls, call.wild = w) → (mergeAll calls {}).1 = calls.map MergeCall.plain) := by
  refine ⟨mergeAll_right_iff calls {} coherent_empty formed, ?_⟩
  rintro ⟨w, flags⟩
  exact mergeAll_of_one_flag w calls {} coherent_empty (right_empty w) formed flags

/-- Two merges of the bottom with a call, both with full context, are right with one memo. -/
theorem mergeAll_eq_plain_twice :
    (∀ call ∈ [MergeCall.mk false empty (empty.push 5), ⟨false, empty.push 5, empty⟩],
      call.WellFormed) ∧
    (mergeAll [⟨false, empty, empty.push 5⟩, ⟨false, empty.push 5, empty⟩] {}).1 =
      [MergeCall.mk false empty (empty.push 5), ⟨false, empty.push 5, empty⟩].map MergeCall.plain := by
  have formed : ∀ call ∈ [MergeCall.mk false empty (empty.push 5), ⟨false, empty.push 5, empty⟩],
      call.WellFormed := by
    have pushed : (empty.push 5).WellFormed := wellFormed_empty.push (by simp [empty]) 5
    simp [MergeCall.WellFormed, wellFormed_empty, pushed]
  exact ⟨formed, (mergeAll_eq_plain_iff _ formed).2 ⟨false, by simp⟩⟩

/-- A merge with local context misleads the same merge with full context: the bottom has swallowed the
call, and the memo hands the swallowed result out. -/
theorem mergeAll_misled_by_other_flag :
    (mergeAll [⟨true, empty, empty.push 5⟩, ⟨false, empty, empty.push 5⟩] {}).1 ≠
      [MergeCall.mk true empty (empty.push 5), ⟨false, empty, empty.push 5⟩].map MergeCall.plain := by
  have differ : empty ≠ empty.push 5 := by simp [empty, Context.push]
  have looks (w : Bool) : LooksUp w empty (empty.push 5) := ⟨differ, Or.inl ⟨rfl, rfl⟩⟩
  have first : mergeMemo true empty (empty.push 5) {} = Memo.store {} empty (empty.push 5) empty :=
    mergeMemo_of_swallowed (looks true) (by simp [Memo.find?]) rfl
  have found : (Memo.store {} empty (empty.push 5) empty).2.find? empty (empty.push 5) = some empty := by
    rw [Memo.store_find? coherent_empty (by simp [Memo.find?]), if_pos (Or.inl ⟨rfl, rfl⟩)]
  have second := mergeMemo_of_found (looks false) found
  have plain : merge false empty (empty.push 5) ≠ empty := by
    rw [merge_eq wellFormed_empty (wellFormed_empty.push (by simp [empty]) 5)]
    simp [empty, Context.push, mergeEntries_cons, precedes]
  intro same
  simp only [mergeAll, first, second, List.map, MergeCall.plain, List.cons.injEq] at same
  exact plain same.2.1.symm

end AdaptiveLL.Context
