import AdaptiveLL.Proofs.Context.Remembering

/-!
# The call stacks of a context

A context stands for the call stacks along its branches (`Stands`). With full context its bottom is the end
of the stack; with local context it is any caller, so that whatever follows the branch is a stack too. A
merge stands for the stacks of both contexts (`stands_merge`) and for no others (`stands_of_merge`), each
kind of context read in its own way.
-/

set_option autoImplicit false

namespace AdaptiveLL.Context

variable {wild : Bool} {a b c : Context} {σ : List Nat}

/-! ## Well-formed merges -/

theorem Above.mergeEntries {r : Option Nat} (aboveA : a.Above r) (aboveB : b.Above r) :
    (mergeEntries wild a b).Above r := by
  match a, b with
  | .nil, b => rwa [mergeEntries_nil_left]
  | .cons .., .nil => rwa [mergeEntries_nil_right]
  | .cons s p restA, .cons t q restB =>
    rw [mergeEntries_cons]
    split
    · exact aboveA
    · split
      · exact aboveA
      · exact aboveB

theorem mergeEntries_ne_nil (present : a ≠ .nil) : mergeEntries wild a b ≠ .nil := by
  match a, b with
  | .cons .., .nil => rwa [mergeEntries_nil_right]
  | .cons r p restA, .cons s q restB =>
    rw [mergeEntries_cons]
    split
    · exact nofun
    · split <;> exact nofun

theorem merge_ne_nil (formedA : a.WellFormed) (formedB : b.WellFormed) (present : a ≠ .nil) :
    merge wild a b ≠ .nil := by
  rw [merge_eq formedA formedB]
  split
  · exact nofun
  · exact mergeEntries_ne_nil present

mutual

theorem WellFormed.merge (wild : Bool) {a b : Context} (formedA : a.WellFormed) (formedB : b.WellFormed) :
    (merge wild a b).WellFormed := by
  rw [merge_eq formedA formedB]
  split
  · exact wellFormed_empty
  · exact WellFormed.mergeEntries wild formedA formedB
termination_by (sizeOf a + sizeOf b, 1)

theorem WellFormed.mergeEntries (wild : Bool) {a b : Context} (formedA : a.WellFormed)
    (formedB : b.WellFormed) : (mergeEntries wild a b).WellFormed := by
  match a, b with
  | .nil, b => rwa [mergeEntries_nil_left]
  | .cons .., .nil => rwa [mergeEntries_nil_right]
  | .cons r p restA, .cons s q restB =>
    obtain ⟨absentA, formedP, aboveA, formedRestA⟩ := formedA
    obtain ⟨absentB, formedQ, aboveB, formedRestB⟩ := formedB
    rw [mergeEntries_cons]
    split
    · rename_i same
      subst same
      refine ⟨?_, WellFormed.merge wild formedP formedQ, aboveA.mergeEntries aboveB,
        WellFormed.mergeEntries wild formedRestA formedRestB⟩
      cases r with
      | none =>
        rw [absentA.1 rfl, absentB.1 rfl, merge_self]
        exact ⟨fun _ => rfl, fun _ => rfl⟩
      | some n =>
        have present : p ≠ .nil := fun absent => nomatch absentA.2 absent
        exact ⟨nofun, fun absent => absurd absent (merge_ne_nil formedP formedQ present)⟩
    · rename_i differ
      split
      · rename_i before
        refine ⟨absentA, formedP, aboveA.mergeEntries before, WellFormed.mergeEntries wild formedRestA ?_⟩
        exact ⟨absentB, formedQ, aboveB, formedRestB⟩
      · rename_i behind
        refine ⟨absentB, formedQ, Above.mergeEntries (precedes_of_ne differ behind) aboveB,
          WellFormed.mergeEntries wild ?_ formedRestB⟩
        exact ⟨absentA, formedP, aboveA, formedRestA⟩
termination_by (sizeOf a + sizeOf b, 0)

end

/-! ## Stacks -/

/-- The context stands for the stack of states to return to, innermost first. -/
inductive Stands (wild : Bool) : Context → List Nat → Prop
  | bottom {parent rest : Context} {σ : List Nat} (free : wild = true ∨ σ = []) :
      Stands wild (.cons none parent rest) σ
  | ret {n : Nat} {parent rest : Context} {σ : List Nat} (further : Stands wild parent σ) :
      Stands wild (.cons (some n) parent rest) (n :: σ)
  | later {ret : Option Nat} {parent rest : Context} {σ : List Nat} (stands : Stands wild rest σ) :
      Stands wild (.cons ret parent rest) σ

theorem stands_empty : empty.Stands wild σ ↔ wild = true ∨ σ = [] := by
  constructor
  · intro stands
    cases stands with
    | bottom free => exact free
    | later stands => cases stands
  · exact .bottom

/-- A context that is there stands for some stack. -/
theorem exists_stands (formed : c.WellFormed) (present : c ≠ .nil) : ∃ σ, c.Stands wild σ := by
  induction c with
  | nil => exact absurd rfl present
  | cons ret parent rest ih _ =>
    obtain ⟨absent, formedParent, -, -⟩ := formed
    cases ret with
    | none => exact ⟨[], .bottom (.inr rfl)⟩
    | some n =>
      obtain ⟨σ, stands⟩ := ih formedParent fun isNil => nomatch absent.2 isNil
      exact ⟨n :: σ, .ret stands⟩

theorem stands_push {ret : Nat} : (c.push ret).Stands wild σ ↔ ∃ τ, σ = ret :: τ ∧ c.Stands wild τ := by
  constructor
  · intro stands
    cases stands with
    | ret further => exact ⟨_, rfl, further⟩
    | later stands => cases stands
  · rintro ⟨τ, rfl, stands⟩
    exact .ret stands

/-- The context of an exact call stack stands for that stack. -/
theorem stands_ofCallStack {net : Network} {callStack : List Nat}
    (stands : (ofCallStack net callStack).Stands false σ) : σ = (net.follows callStack).reverse := by
  have pushed (follows : List Nat) (c : Context) {σ : List Nat}
      (stands : (follows.foldl push c).Stands false σ) :
      ∃ τ, c.Stands false τ ∧ σ = follows.reverse ++ τ := by
    induction follows generalizing c with
    | nil => exact ⟨σ, stands, rfl⟩
    | cons ret follows ih =>
      obtain ⟨τ, stands', rfl⟩ := ih _ stands
      obtain ⟨τ', rfl, stands''⟩ := stands_push.1 stands'
      exact ⟨τ', stands'', by simp⟩
  obtain ⟨τ, bottom, rfl⟩ := pushed _ _ stands
  simp [(stands_empty.1 bottom).resolve_left Bool.false_ne_true]

theorem wellFormed_ofCallStack (net : Network) (callStack : List Nat) :
    (ofCallStack net callStack).WellFormed ∧ ofCallStack net callStack ≠ .nil := by
  have pushed (follows : List Nat) (c : Context) (formed : c.WellFormed) (present : c ≠ .nil) :
      (follows.foldl push c).WellFormed ∧ follows.foldl push c ≠ .nil := by
    induction follows generalizing c with
    | nil => exact ⟨formed, present⟩
    | cons ret follows ih => exact ih _ (formed.push present ret) nofun
  exact pushed _ _ wellFormed_empty nofun

/-! ## Stacks of a merge -/

theorem Stands.cons_iff {ret : Option Nat} {parent rest : Context} :
    (cons ret parent rest).Stands wild σ ↔ (cons ret parent .nil).Stands wild σ ∨ rest.Stands wild σ := by
  constructor
  · intro stands
    cases stands with
    | bottom free => exact .inl (.bottom free)
    | ret further => exact .inl (.ret further)
    | later stands => exact .inr stands
  · rintro (here | later)
    · cases here with
      | bottom free => exact .bottom free
      | ret further => exact .ret further
      | later stands => cases stands
    · exact .later later

mutual

/-- A merge stands for the stacks of both contexts. -/
theorem stands_merge (wild : Bool) {a b : Context} (formedA : a.WellFormed) (formedB : b.WellFormed)
    (σ : List Nat) (stands : a.Stands wild σ ∨ b.Stands wild σ) : (merge wild a b).Stands wild σ := by
  rw [merge_eq formedA formedB]
  split
  · rename_i swallowed
    exact stands_empty.2 (.inl (Bool.and_eq_true_iff.1 swallowed).1)
  · exact stands_mergeEntries wild formedA formedB σ stands
termination_by (sizeOf a + sizeOf b, 1)

theorem stands_mergeEntries (wild : Bool) {a b : Context} (formedA : a.WellFormed) (formedB : b.WellFormed)
    (σ : List Nat) (stands : a.Stands wild σ ∨ b.Stands wild σ) :
    (mergeEntries wild a b).Stands wild σ := by
  match a, b with
  | .nil, b =>
    rw [mergeEntries_nil_left]
    exact stands.resolve_left nofun
  | .cons .., .nil =>
    rw [mergeEntries_nil_right]
    exact stands.resolve_right nofun
  | .cons r p restA, .cons s q restB =>
    rw [mergeEntries_cons]
    split
    · rename_i same
      subst same
      have parents (τ : List Nat) := stands_merge wild formedA.2.1 formedB.2.1 τ
      have rests := stands_mergeEntries wild formedA.2.2.2 formedB.2.2.2 σ
      rcases stands with left | right
      · cases left with
        | bottom free => exact .bottom free
        | ret further => exact .ret (parents _ (.inl further))
        | later stands => exact .later (rests (.inl stands))
      · cases right with
        | bottom free => exact .bottom free
        | ret further => exact .ret (parents _ (.inr further))
        | later stands => exact .later (rests (.inr stands))
    · split
      · have rests := stands_mergeEntries wild formedA.2.2.2 formedB σ
        rcases stands with left | right
        · rcases Stands.cons_iff.1 left with here | later
          · exact Stands.cons_iff.2 (.inl here)
          · exact .later (rests (.inl later))
        · exact .later (rests (.inr right))
      · have rests := stands_mergeEntries wild formedA formedB.2.2.2 σ
        rcases stands with left | right
        · exact .later (rests (.inl left))
        · rcases Stands.cons_iff.1 right with here | later
          · exact Stands.cons_iff.2 (.inl here)
          · exact .later (rests (.inr later))
termination_by (sizeOf a + sizeOf b, 0)

end

mutual

/-- A merge stands for no other stacks. -/
theorem stands_of_merge {wild : Bool} {a b : Context} (formedA : a.WellFormed) (formedB : b.WellFormed)
    {σ : List Nat} (stands : (merge wild a b).Stands wild σ) : a.Stands wild σ ∨ b.Stands wild σ := by
  rw [merge_eq formedA formedB] at stands
  split at stands
  · rename_i swallowed
    simp only [Bool.and_eq_true, Bool.or_eq_true] at swallowed
    rcases swallowed.2 with bottom | bottom
    · rw [formedA.eq_empty bottom]
      exact .inl stands
    · rw [formedB.eq_empty bottom]
      exact .inr stands
  · exact stands_of_mergeEntries formedA formedB stands
termination_by (sizeOf a + sizeOf b, 1)

theorem stands_of_mergeEntries {wild : Bool} {a b : Context} (formedA : a.WellFormed)
    (formedB : b.WellFormed) {σ : List Nat} (stands : (mergeEntries wild a b).Stands wild σ) :
    a.Stands wild σ ∨ b.Stands wild σ := by
  match a, b with
  | .nil, b =>
    rw [mergeEntries_nil_left] at stands
    exact .inr stands
  | .cons .., .nil =>
    rw [mergeEntries_nil_right] at stands
    exact .inl stands
  | .cons r p restA, .cons s q restB =>
    rw [mergeEntries_cons] at stands
    split at stands
    · rename_i same
      subst same
      cases stands with
      | bottom free => exact .inl (.bottom free)
      | ret further => exact (stands_of_merge formedA.2.1 formedB.2.1 further).imp .ret .ret
      | later stands =>
        exact (stands_of_mergeEntries formedA.2.2.2 formedB.2.2.2 stands).imp .later .later
    · split at stands
      · rcases Stands.cons_iff.1 stands with here | later
        · exact .inl (Stands.cons_iff.2 (.inl here))
        · exact (stands_of_mergeEntries formedA.2.2.2 formedB later).imp .later id
      · rcases Stands.cons_iff.1 stands with here | later
        · exact .inr (Stands.cons_iff.2 (.inl here))
        · exact (stands_of_mergeEntries formedA formedB.2.2.2 later).imp id .later
termination_by (sizeOf a + sizeOf b, 0)

end

end AdaptiveLL.Context
