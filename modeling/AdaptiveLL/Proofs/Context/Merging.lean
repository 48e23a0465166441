import AdaptiveLL.Context.Merge
import Mathlib.Tactic.Common

/-!
# Laws of merging

A context is well formed when its return states strictly ascend and when the continuation is absent
exactly beside the bottom of the stack. On such contexts a merge has a short description: with local
context the bottom swallows everything, and in every other case the entries are joined in order, those
with the same return state by merging what follows them. From this description it follows that merging
does not depend on the order of the two contexts, and that it keeps contexts well formed.
-/

set_option autoImplicit false

namespace AdaptiveLL.Context

/-! ## Well-formed contexts -/

/-- Do all entries come behind a return state? In an ascending list the first one settles it. -/
def Above (r : Option Nat) : Context → Prop
  | .nil => True
  | .cons s _ _ => precedes r s = true

/-- The return states strictly ascend, and the continuation is absent exactly beside the bottom; the
same holds of every continuation. -/
def WellFormed : Context → Prop
  | .nil => True
  | .cons ret parent rest =>
    (ret = none ↔ parent = .nil) ∧ parent.WellFormed ∧ rest.Above ret ∧ rest.WellFormed

theorem precedes_irrefl (r : Option Nat) : precedes r r = false := by
  cases r <;> simp [precedes]

theorem precedes_trans {r s t : Option Nat} (first : precedes r s = true)
    (second : precedes s t = true) : precedes r t = true := by
  cases r <;> cases s <;> cases t <;> simp [precedes] at *
  omega

theorem precedes_of_ne {r s : Option Nat} (differ : r ≠ s) (behind : ¬ precedes r s = true) :
    precedes s r = true := by
  cases r <;> cases s <;> simp [precedes] at *
  omega

theorem not_precedes_of_precedes {r s : Option Nat} (before : precedes r s = true) :
    ¬ precedes s r = true := by
  intro back
  have loop := precedes_trans before back
  rw [precedes_irrefl] at loop
  exact Bool.false_ne_true loop

theorem ne_of_precedes {r s : Option Nat} (before : precedes r s = true) : r ≠ s := by
  rintro rfl
  rw [precedes_irrefl] at before
  exact Bool.false_ne_true before

theorem Above.trans {r s : Option Nat} {c : Context} (before : precedes r s = true)
    (above : c.Above s) : c.Above r := by
  cases c with
  | nil => trivial
  | cons t p rest => exact precedes_trans before above

theorem wellFormed_empty : empty.WellFormed := by simp [empty, WellFormed, Above]

theorem empty_ne_nil : empty ≠ .nil := by simp [empty]

theorem WellFormed.push {c : Context} (formed : c.WellFormed) (present : c ≠ .nil) (ret : Nat) :
    (c.push ret).WellFormed := by
  simp [Context.push, WellFormed, Above, formed, present]

/-- Behind the bottom of the stack stands nothing. -/
theorem WellFormed.rest_of_none {p rest : Context} (formed : (cons none p rest).WellFormed) :
    rest = .nil := by
  cases rest with
  | nil => rfl
  | cons s q rest => simp [WellFormed, Above, precedes] at formed

/-- In a well-formed context the bottom alone is the empty context. -/
theorem WellFormed.eq_empty {c : Context} (formed : c.WellFormed) (bottom : c.isEmpty = true) :
    c = empty := by
  unfold isEmpty at bottom
  split at bottom
  · have absent := formed.1.1 rfl
    rw [absent]
    rfl
  · exact absurd bottom Bool.false_ne_true

@[simp]
theorem isEmpty_empty : empty.isEmpty = true := rfl

/-- Every continuation in a well-formed context is well formed. -/
theorem WellFormed.of_mem {c : Context} (formed : c.WellFormed) {r : Option Nat} {p : Context}
    (member : (r, p) ∈ c.entries) : p.WellFormed ∧ (r = none ↔ p = .nil) := by
  induction c with
  | nil => simp [entries] at member
  | cons ret parent rest _ ihRest =>
    obtain ⟨absent, parentFormed, _, restFormed⟩ := formed
    simp only [entries, List.mem_cons, Prod.mk.injEq] at member
    rcases member with ⟨rfl, rfl⟩ | member
    · exact ⟨parentFormed, absent⟩
    · exact ihRest restFormed member

/-- Every return state of an ascending list comes behind what the list is above of. -/
theorem precedes_of_mem {c : Context} (formed : c.WellFormed) {r s : Option Nat} {p : Context}
    (above : c.Above r) (member : (s, p) ∈ c.entries) : precedes r s = true := by
  induction c generalizing r with
  | nil => simp [entries] at member
  | cons ret parent rest _ ihRest =>
    simp only [entries, List.mem_cons, Prod.mk.injEq] at member
    rcases member with ⟨rfl, rfl⟩ | member
    · exact above
    · exact ihRest formed.2.2.2 (Above.trans above formed.2.2.1) member

/-! ## The shape of a merge -/

theorem mergeEntries_nil_left (w : Bool) (b : Context) : mergeEntries w .nil b = b := by
  rw [mergeEntries.eq_def]

theorem mergeEntries_nil_right (w : Bool) (a : Context) : mergeEntries w a .nil = a := by
  rw [mergeEntries.eq_def]
  cases a <;> rfl

theorem mergeEntries_cons (w : Bool) (r s : Option Nat) (p q restA restB : Context) :
    mergeEntries w (.cons r p restA) (.cons s q restB) =
      if r = s then .cons r (merge w p q) (mergeEntries w restA restB)
      else if precedes r s then .cons r p (mergeEntries w restA (.cons s q restB))
      else .cons s q (mergeEntries w (.cons r p restA) restB) := by
  rw [mergeEntries.eq_def]

theorem merge_self (w : Bool) (a : Context) : merge w a a = a := by
  rw [merge, if_pos rfl]

theorem mergeEntries_self (w : Bool) (a : Context) : mergeEntries w a a = a := by
  induction a with
  | nil => rw [mergeEntries_nil_left]
  | cons r p rest _ ihRest => rw [mergeEntries_cons, if_pos rfl, merge_self, ihRest]

/-- The merge of two single entries one of which is the bottom, with full context. -/
theorem mergeRoot_false {a b : Context} (formedA : a.WellFormed) (formedB : b.WellFormed)
    (differ : a ≠ b) (singleA : a.isSingle = true) (singleB : b.isSingle = true) (c : Context)
    (root : mergeRoot false a b = some c) : c = mergeEntries false a b := by
  by_cases bottomA : a.isEmpty = true
  · obtain rfl := formedA.eq_empty bottomA
    have bottomB : b.isEmpty = false := by
      by_contra bottom
      exact differ (formedB.eq_empty (by simpa using bottom)).symm
    match b, singleB with
    | .cons (some n) p .nil, _ =>
      have value : c = .cons (some n) p empty := by
        simpa [mergeRoot, bottomB] using root.symm
      rw [value, empty, mergeEntries_cons, if_neg (by simp), if_neg (by simp [precedes]),
        mergeEntries_nil_right]
    | .cons none p .nil, _ => simp [isEmpty] at bottomB
  · have bottomA : a.isEmpty = false := by simpa using bottomA
    by_cases bottomB : b.isEmpty = true
    · obtain rfl := formedB.eq_empty bottomB
      match a, singleA with
      | .cons (some n) p .nil, _ =>
        have value : c = .cons (some n) p empty := by
          simpa [mergeRoot, bottomA] using root.symm
        rw [value, empty, mergeEntries_cons, if_neg (by simp), if_pos (by simp [precedes]),
          mergeEntries_nil_left]
      | .cons none p .nil, _ => simp [isEmpty] at bottomA
    · simp [mergeRoot, bottomA, bottomB] at root

/-- With local context the bottom swallows everything; in all other cases the entries are joined. -/
theorem merge_eq {w : Bool} {a b : Context} (formedA : a.WellFormed) (formedB : b.WellFormed) :
    merge w a b =
      if w && (a.isEmpty || b.isEmpty) then empty else mergeEntries w a b := by
  by_cases same : a = b
  · subst same
    rw [merge_self, mergeEntries_self]
    by_cases bottom : a.isEmpty = true
    · simp [formedA.eq_empty bottom]
    · simp [bottom]
  · rw [merge, if_neg same]
    by_cases single : (a.isSingle && b.isSingle) = true
    · rw [if_pos single]
      simp only [Bool.and_eq_true] at single
      cases w with
      | true =>
        by_cases bottom : (a.isEmpty || b.isEmpty) = true
        · simp [mergeRoot, bottom]
        · simp [mergeRoot, bottom]
      | false =>
        simp only [Bool.false_and, Bool.false_eq_true, if_false]
        split
        · next c root => exact mergeRoot_false formedA formedB same single.1 single.2 c root
        · rfl
    · rw [if_neg single]
      cases w with
      | false => simp
      | true =>
        by_cases bottomA : a.isEmpty = true
        · simp [formedA.eq_empty bottomA]
        · by_cases bottomB : b.isEmpty = true
          · simp [bottomA, formedB.eq_empty bottomB]
          · simp [bottomA, bottomB]

/-! ## Order does not matter -/

mutual

/-- A merge does not depend on the order of the two contexts. -/
theorem merge_comm (w : Bool) (a b : Context) (formedA : a.WellFormed) (formedB : b.WellFormed) :
    merge w a b = merge w b a := by
  rw [merge_eq formedA formedB, merge_eq formedB formedA, mergeEntries_comm w a b formedA formedB,
    Bool.or_comm]
termination_by (sizeOf a + sizeOf b, 1)

/-- Joining entries does not depend on the order of the two lists. -/
theorem mergeEntries_comm (w : Bool) (a b : Context) (formedA : a.WellFormed)
    (formedB : b.WellFormed) : mergeEntries w a b = mergeEntries w b a := by
  match a, b with
  | .nil, b => rw [mergeEntries_nil_left, mergeEntries_nil_right]
  | .cons _ _ _, .nil => rw [mergeEntries_nil_left, mergeEntries_nil_right]
  | .cons r p restA, .cons s q restB =>
    rw [mergeEntries_cons, mergeEntries_cons]
    by_cases same : r = s
    · subst same
      rw [if_pos rfl, if_pos rfl, merge_comm w p q formedA.2.1 formedB.2.1,
        mergeEntries_comm w restA restB formedA.2.2.2 formedB.2.2.2]
    · rw [if_neg same, if_neg (Ne.symm same)]
      by_cases before : precedes r s = true
      · rw [if_pos before, if_neg (not_precedes_of_precedes before),
          mergeEntries_comm w restA (.cons s q restB) formedA.2.2.2 formedB]
      · rw [if_neg before, if_pos (precedes_of_ne same before),
          mergeEntries_comm w (.cons r p restA) restB formedA formedB.2.2.2]
termination_by (sizeOf a + sizeOf b, 0)

end

/-! ## The table of contexts -/

namespace Table

/-- What follows the entries of a well-formed context is kept as it is. -/
theorem internParents_eq {c : Context} (formed : c.WellFormed) (t : Table) : (internParents c t).1 = c := by
  induction c generalizing t with
  | nil => rfl
  | cons ret parent rest parent_eq rest_eq =>
    obtain ⟨-, formedParent, -, formedRest⟩ := formed
    rw [internParents]
    refine congrArg₂ (cons ret) ?_ (rest_eq formedRest _)
    split
    · exact Eq.symm ‹_›
    · split
      · rename_i bottom
        exact (formedParent.eq_empty bottom).symm
      · split
        · rename_i found
          exact eq_of_find? found
        · exact parent_eq formedParent t

/-- A well-formed context is kept as it is. -/
theorem intern_eq {c : Context} (formed : c.WellFormed) (t : Table) : (intern c t).1 = c := by
  unfold intern
  split
  · rename_i bottom
    exact (formed.eq_empty bottom).symm
  · split
    · rename_i found
      exact eq_of_find? found
    · exact internParents_eq formed t

end Table

end AdaptiveLL.Context
