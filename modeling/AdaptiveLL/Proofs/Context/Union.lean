import AdaptiveLL.Proofs.Context.Continuations

/-!
# Contexts as sets of call stacks

With full context a context is as good as the finite set of its call stacks (`callStacks`): well-formed contexts
with the same stacks are the same context (`WellFormed.ext_stacks`), and merging is the union of the two sets
(`merge_union`). With local context a stack says how the call stack begins, and nothing about how it goes on;
a context then covers every call stack that has one of its stacks as a prefix. Merging covers what the two
contexts cover, and it has the laws of a union there as well (`merge_laws`).
-/

set_option autoImplicit false

namespace AdaptiveLL.Context

variable {wild : Bool} {a b c : Context} {σ τ : List Nat} {n : Nat}

/-! ## Stacks -/

/-- The call stacks of a context, innermost return state first. The bottom ends a stack. -/
def callStacks : Context → List (List Nat)
  | .nil => []
  | .cons none _ rest => [] :: rest.callStacks
  | .cons (some n) parent rest => parent.callStacks.map (n :: ·) ++ rest.callStacks

/-- With full context a context stands for its stacks. -/
theorem mem_stacks : σ ∈ c.callStacks ↔ c.Stands false σ := by
  induction c generalizing σ with
  | nil => exact ⟨nofun, nofun⟩
  | cons ret parent rest ihParent ihRest =>
    cases ret with
    | none =>
      simp only [callStacks, List.mem_cons, ihRest]
      constructor
      · rintro (rfl | stands)
        · exact .bottom (.inr rfl)
        · exact .later stands
      · intro stands
        cases stands with
        | bottom free => exact .inl (free.resolve_left Bool.false_ne_true)
        | later stands => exact .inr stands
    | some n =>
      simp only [callStacks, List.mem_append, List.mem_map, ihParent, ihRest]
      constructor
      · rintro (⟨τ, stands, rfl⟩ | stands)
        · exact .ret stands
        · exact .later stands
      · intro stands
        cases stands with
        | ret further => exact .inl ⟨_, further, rfl⟩
        | later stands => exact .inr stands

/-- The empty stack is one of those of a context whose bottom can be reached at once. -/
theorem nil_mem_stacks (formed : c.WellFormed) : [] ∈ c.callStacks ↔ c.parent? none = some .nil := by
  induction c with
  | nil => exact ⟨nofun, nofun⟩
  | cons ret parent rest _ ihRest =>
    cases ret with
    | none => simp [callStacks, formed.1.1 rfl]
    | some m => simpa [callStacks, parent?_cons] using ihRest formed.2.2.2

/-- A stack that begins with a return state goes on as the continuation of that state says. -/
theorem cons_mem_stacks (formed : c.WellFormed) :
    n :: τ ∈ c.callStacks ↔ ∃ p, c.parent? (some n) = some p ∧ τ ∈ p.callStacks := by
  induction c with
  | nil => simp [callStacks]
  | cons ret parent rest _ ihRest =>
    cases ret with
    | none => simp [formed.rest_of_none, callStacks, parent?_cons]
    | some m =>
      have later := ihRest formed.2.2.2
      by_cases same : m = n
      · subst same
        rw [parent?_of_above formed.2.2.2 formed.2.2.1] at later
        simp [callStacks, later]
      · rw [parent?_cons_of_ne (by simpa using same), ← later]
        simp [callStacks, same]

theorem exists_mem_stacks (formed : c.WellFormed) (present : c ≠ .nil) : ∃ σ, σ ∈ c.callStacks :=
  (exists_stands formed present).imp fun _ => mem_stacks.2

/-- A return state that leads on in one context does so in every context with the same stacks. -/
theorem parent?_eq_none_of_stacks (formedA : a.WellFormed) (formedB : b.WellFormed)
    (same : ∀ σ, σ ∈ a.callStacks ↔ σ ∈ b.callStacks) (missing : a.parent? (some n) = none) :
    b.parent? (some n) = none := by
  by_contra found
  obtain ⟨q, found⟩ := Option.ne_none_iff_exists'.1 found
  obtain ⟨-, formedQ, present⟩ := formedB.parent? found
  obtain ⟨τ, member⟩ := exists_mem_stacks formedQ fun absent => by cases present.2 absent
  have further := (same (n :: τ)).2 ((cons_mem_stacks formedB).2 ⟨q, found, member⟩)
  obtain ⟨p, foundA, -⟩ := (cons_mem_stacks formedA).1 further
  rw [missing] at foundA
  cases foundA

/-- Well-formed contexts with the same stacks are the same. -/
theorem WellFormed.ext_stacks {a b : Context} (formedA : a.WellFormed) (formedB : b.WellFormed)
    (same : ∀ σ, σ ∈ a.callStacks ↔ σ ∈ b.callStacks) : a = b := by
  refine formedA.ext_parent? formedB fun r => ?_
  cases foundA : a.parent? r with
  | none =>
    cases r with
    | none =>
      cases foundB : b.parent? none with
      | none => rfl
      | some q =>
        rw [(formedB.parent? foundB).2.2.1 rfl, ← nil_mem_stacks formedB, ← same, nil_mem_stacks formedA,
          foundA] at foundB
        cases foundB
    | some n => exact (parent?_eq_none_of_stacks formedA formedB same foundA).symm
  | some p =>
    obtain ⟨smaller, formedP, present⟩ := formedA.parent? foundA
    cases r with
    | none =>
      obtain rfl := present.1 rfl
      exact ((nil_mem_stacks formedB).1 ((same []).1 ((nil_mem_stacks formedA).2 foundA))).symm
    | some n =>
      cases foundB : b.parent? (some n) with
      | none =>
        have missing := parent?_eq_none_of_stacks formedB formedA (fun σ => (same σ).symm) foundB
        rw [foundA] at missing
        cases missing
      | some q =>
        refine congrArg some (WellFormed.ext_stacks formedP (formedB.parent? foundB).2.1 fun τ => ?_)
        have further := same (n :: τ)
        rw [cons_mem_stacks formedA, cons_mem_stacks formedB, foundA, foundB] at further
        simpa using further
termination_by sizeOf a

/-- **Full context.** Merging well-formed contexts gives a well-formed context whose stacks are those of the
two and no others, and a well-formed context is determined by its stacks. -/
theorem merge_union (formedA : a.WellFormed) (presentA : a ≠ .nil) (formedB : b.WellFormed) :
    (merge false a b).WellFormed ∧ merge false a b ≠ .nil ∧
      (∀ σ, σ ∈ (merge false a b).callStacks ↔ σ ∈ a.callStacks ∨ σ ∈ b.callStacks) ∧
      ((∀ σ, σ ∈ a.callStacks ↔ σ ∈ b.callStacks) → a = b) := by
  refine ⟨formedA.merge false formedB, merge_ne_nil formedA formedB presentA, fun σ => ?_,
    formedA.ext_stacks formedB⟩
  simp only [mem_stacks]
  exact ⟨stands_of_merge formedA formedB, stands_merge false formedA formedB σ⟩

/-- `[5 [2, $]]` and `[5 [7], $]` share a return state. Their merge has the stacks of both, and as they
are not the same context, one of them has a stack that the other has not. -/
theorem merge_union_shared :
    let a := cons (some 5) (cons (some 2) empty empty) .nil
    let b := cons (some 5) (empty.push 7) empty
    (a.WellFormed ∧ a ≠ .nil ∧ b.WellFormed) ∧ (merge false a b).WellFormed ∧ merge false a b ≠ .nil ∧
      (∀ σ, σ ∈ (merge false a b).callStacks ↔ σ ∈ [[5, 2], [5], [5, 7], []]) ∧
      ¬ ∀ σ, σ ∈ a.callStacks ↔ σ ∈ b.callStacks := by
  intro a b
  have formedA : a.WellFormed := by simp [a, WellFormed, Above, precedes, empty]
  have formedB : b.WellFormed := by simp [b, WellFormed, Above, precedes, empty, Context.push]
  have presentA : a ≠ .nil := by simp [a]
  obtain ⟨formed, present, union, ext⟩ := merge_union formedA presentA formedB
  refine ⟨⟨formedA, presentA, formedB⟩, formed, present, fun σ => ?_, fun same => ?_⟩
  · rw [union]
    simp [a, b, callStacks, empty, Context.push, or_assoc]
  · simpa [a, b, Context.push, empty] using ext same

/-! ## Covered call stacks -/

/-- The call stack begins with one of the stacks of the context, which say nothing about how it goes on. -/
def Covers (c : Context) (σ : List Nat) : Prop := ∃ τ ∈ c.callStacks, τ <+: σ

/-- With local context a context stands for the call stacks that it covers. -/
theorem covers_iff_stands : c.Covers σ ↔ c.Stands true σ := by
  constructor
  · rintro ⟨τ, member, further, rfl⟩
    have stands := mem_stacks.1 member
    clear member
    induction stands with
    | bottom free => exact .bottom (.inl rfl)
    | ret _ ih => exact .ret ih
    | later _ ih => exact .later ih
  · intro stands
    induction stands with
    | bottom free => exact ⟨[], mem_stacks.2 (.bottom (.inr rfl)), List.nil_prefix⟩
    | ret _ ih =>
      obtain ⟨τ, member, begins⟩ := ih
      exact ⟨_ :: τ, mem_stacks.2 (.ret (mem_stacks.1 member)), (List.prefix_cons_inj _).2 begins⟩
    | later _ ih =>
      obtain ⟨τ, member, begins⟩ := ih
      exact ⟨τ, mem_stacks.2 (.later (mem_stacks.1 member)), begins⟩

/-- **Laws of merging.** On well-formed contexts of either kind merging is idempotent, commutative and
associative. With local context a merge covers the call stacks that the two contexts cover and no others. -/
theorem merge_laws (formedA : a.WellFormed) (formedB : b.WellFormed) (formedC : c.WellFormed) :
    merge wild a a = a ∧ merge wild a b = merge wild b a ∧
      merge wild (merge wild a b) c = merge wild a (merge wild b c) ∧
      ∀ σ, (merge true a b).Covers σ ↔ a.Covers σ ∨ b.Covers σ := by
  refine ⟨merge_self wild a, merge_comm wild a b formedA formedB,
    merge_assoc wild a b c formedA formedB formedC, fun σ => ?_⟩
  simp only [covers_iff_stands]
  exact ⟨stands_of_merge formedA formedB, stands_merge true formedA formedB σ⟩

/-- `[5 [2, $]]`, `[5]` and `[7, $]` with local context: what follows state 5 collapses to any caller, while
the bottom beside state 7 stays an entry of its own and makes the merge cover every call stack. -/
theorem merge_laws_mixed :
    let a := cons (some 5) (cons (some 2) empty empty) .nil
    let b := empty.push 5
    let c := cons (some 7) empty empty
    (a.WellFormed ∧ b.WellFormed ∧ c.WellFormed) ∧ merge true a a = a ∧ merge true a b = merge true b a ∧
      merge true (merge true a b) c = merge true a (merge true b c) ∧
      (∀ σ, (merge true a b).Covers σ ↔ a.Covers σ ∨ b.Covers σ) ∧
      merge true a b = b ∧ merge true b c = cons (some 5) empty c := by
  intro a b c
  have formedA : a.WellFormed := by simp [a, WellFormed, Above, precedes, empty]
  have formedB : b.WellFormed := by simp [b, WellFormed, Above, empty, Context.push]
  have formedC : c.WellFormed := by simp [c, WellFormed, Above, precedes, empty]
  obtain ⟨idem, comm, assoc, covers⟩ := @merge_laws true a b c formedA formedB formedC
  refine ⟨⟨formedA, formedB, formedC⟩, idem, comm, assoc, covers, ?_, ?_⟩
  · have parents : merge true (cons (some 2) empty empty) empty = empty := by
      rw [merge_eq (by simp [WellFormed, Above, precedes, empty]) wellFormed_empty]
      simp
    rw [merge_eq formedA formedB]
    simp [a, b, Context.push, isEmpty, mergeEntries_cons, mergeEntries_nil_left, parents]
  · rw [merge_eq formedB formedC]
    simp [b, c, Context.push, isEmpty, mergeEntries_cons, mergeEntries_nil_left, precedes, empty]

end AdaptiveLL.Context
