import AdaptiveLL.Proofs.Context.Stacks

/-!
# Contexts as finite maps

A well-formed context is a finite map from return states to continuations, listed in the order of its keys
(`parent?`). Such a context is determined by the map (`WellFormed.ext_parent?`), and joining the entries of
two contexts joins the maps key by key (`parent?_mergeEntries`). What holds of merging continuations holds
of merging contexts for this reason; that merging is associative (`merge_assoc`) is the first use.
-/

set_option autoImplicit false

namespace AdaptiveLL.Context

variable {wild : Bool} {a b c : Context} {r : Option Nat}

/-! ## The continuation of a return state -/

/-- How to go on after the return to a state, or at the bottom, if the context has such an entry. -/
def parent? : Context → Option Nat → Option Context
  | .nil, _ => none
  | .cons s parent rest, r => if s = r then some parent else rest.parent? r

@[simp]
theorem parent?_nil : parent? .nil r = none := rfl

theorem parent?_cons {s : Option Nat} {p rest : Context} :
    (cons s p rest).parent? r = if s = r then some p else rest.parent? r := rfl

@[simp]
theorem parent?_cons_self {p rest : Context} : (cons r p rest).parent? r = some p := if_pos rfl

theorem parent?_cons_of_ne {s : Option Nat} {p rest : Context} (differ : s ≠ r) :
    (cons s p rest).parent? r = rest.parent? r := if_neg differ

/-- Entries behind a return state leave no room for the state itself. -/
theorem parent?_of_above (formed : c.WellFormed) (above : c.Above r) : c.parent? r = none := by
  induction c with
  | nil => rfl
  | cons s p rest _ ihRest =>
    rw [parent?_cons_of_ne (ne_of_precedes above).symm]
    exact ihRest formed.2.2.2 (Above.trans above formed.2.2.1)

/-- A continuation is smaller than the context, well formed, and absent exactly at the bottom. -/
theorem WellFormed.parent? (formed : c.WellFormed) {p : Context} (found : c.parent? r = some p) :
    sizeOf p < sizeOf c ∧ p.WellFormed ∧ (r = none ↔ p = .nil) := by
  induction c with
  | nil => cases found
  | cons s q rest _ ihRest =>
    obtain ⟨absent, formedQ, -, formedRest⟩ := formed
    rw [parent?_cons] at found
    split at found
    · rename_i same
      cases found
      exact ⟨by simp only [cons.sizeOf_spec]; omega, formedQ, same ▸ absent⟩
    · obtain ⟨smaller, rest⟩ := ihRest formedRest found
      exact ⟨by simp only [cons.sizeOf_spec]; omega, rest⟩

/-- A well-formed context is determined by its continuations. -/
theorem WellFormed.ext_parent? (formedA : a.WellFormed) (formedB : b.WellFormed)
    (same : ∀ r, a.parent? r = b.parent? r) : a = b := by
  induction a generalizing b with
  | nil =>
    cases b with
    | nil => rfl
    | cons s q restB => simpa using same s
  | cons r p restA _ ihRest =>
    cases b with
    | nil => simpa using same r
    | cons s q restB =>
      have ⟨_, _, aboveA, formedRestA⟩ := formedA
      have ⟨_, _, aboveB, formedRestB⟩ := formedB
      -- The lesser of the two first return states is missing in the other context.
      have first : r = s := by
        by_contra differ
        by_cases before : precedes r s = true
        · have missing := parent?_of_above formedB (r := r) before
          rw [← same r, parent?_cons_self] at missing
          cases missing
        · have missing := parent?_of_above formedA (r := s) (precedes_of_ne differ before)
          rw [same s, parent?_cons_self] at missing
          cases missing
      subst first
      have parents : p = q := by simpa using same r
      subst parents
      rw [ihRest formedRestA formedRestB fun t => ?_]
      by_cases here : r = t
      · subst here
        rw [parent?_of_above formedRestA aboveA, parent?_of_above formedRestB aboveB]
      · simpa only [parent?_cons_of_ne here] using same t

/-! ## Merging key by key -/

/-- Joined entries have the continuations of both contexts, merged where both have one. -/
theorem parent?_mergeEntries {a b : Context} (formedA : a.WellFormed) (formedB : b.WellFormed)
    (r : Option Nat) : (mergeEntries wild a b).parent? r = (a.parent? r).merge (merge wild) (b.parent? r) := by
  cases a with
  | nil => rw [mergeEntries_nil_left, parent?_nil, Option.merge_none_left]
  | cons s p restA =>
    cases b with
    | nil => rw [mergeEntries_nil_right, parent?_nil, Option.merge_none_right]
    | cons t q restB =>
      rw [mergeEntries_cons]
      split
      · rename_i same
        subst same
        by_cases here : s = r
        · subst here
          simp only [parent?_cons_self, Option.merge_some_some]
        · simp only [parent?_cons_of_ne here]
          exact parent?_mergeEntries formedA.2.2.2 formedB.2.2.2 r
      · rename_i differ
        split
        · rename_i before
          by_cases here : s = r
          · subst here
            rw [parent?_of_above formedB before, parent?_cons_self, parent?_cons_self,
              Option.merge_none_right]
          · simp only [parent?_cons_of_ne here]
            exact parent?_mergeEntries formedA.2.2.2 formedB r
        · rename_i behind
          by_cases here : t = r
          · subst here
            rw [parent?_of_above formedA (precedes_of_ne differ behind), parent?_cons_self,
              parent?_cons_self, Option.merge_none_left]
          · simp only [parent?_cons_of_ne here]
            exact parent?_mergeEntries formedA formedB.2.2.2 r
termination_by sizeOf a + sizeOf b

/-- Joined entries are not the bottom alone, unless one of the contexts was. -/
theorem isEmpty_mergeEntries (formedA : a.WellFormed) (formedB : b.WellFormed)
    (moreA : a.isEmpty = false) (moreB : b.isEmpty = false) :
    (mergeEntries wild a b).isEmpty = false := by
  match a, b with
  | .nil, b => rwa [mergeEntries_nil_left]
  | .cons .., .nil => rwa [mergeEntries_nil_right]
  | .cons none p restA, _ =>
    rw [formedA.rest_of_none] at moreA
    cases moreA
  | _, .cons none q restB =>
    rw [formedB.rest_of_none] at moreB
    cases moreB
  | .cons (some m) p restA, .cons (some n) q restB =>
    rw [mergeEntries_cons]
    split
    · rfl
    · split <;> rfl

/-- Merging continuations is associative where merging the contexts that are found is. -/
theorem merge_assoc_of_some {f : Context → Context → Context} {x y z : Option Context}
    (assoc : ∀ p ∈ x, ∀ q ∈ y, ∀ s ∈ z, f (f p q) s = f p (f q s)) :
    (x.merge f y).merge f z = x.merge f (y.merge f z) := by
  cases x with
  | none => simp only [Option.merge_none_left]
  | some p =>
    cases y with
    | none => simp only [Option.merge_none_left, Option.merge_none_right]
    | some q =>
      cases z with
      | none => simp only [Option.merge_none_right]
      | some s => simp only [Option.merge_some_some, assoc p rfl q rfl s rfl]

/-- Merging is associative. -/
theorem merge_assoc (wild : Bool) (a b c : Context) (formedA : a.WellFormed) (formedB : b.WellFormed)
    (formedC : c.WellFormed) : merge wild (merge wild a b) c = merge wild a (merge wild b c) := by
  have entries : mergeEntries wild (mergeEntries wild a b) c =
      mergeEntries wild a (mergeEntries wild b c) := by
    have formedAB := formedA.mergeEntries wild formedB
    have formedBC := formedB.mergeEntries wild formedC
    refine (formedAB.mergeEntries wild formedC).ext_parent? (formedA.mergeEntries wild formedBC) fun r => ?_
    rw [parent?_mergeEntries formedAB formedC, parent?_mergeEntries formedA formedB,
      parent?_mergeEntries formedA formedBC, parent?_mergeEntries formedB formedC]
    refine merge_assoc_of_some fun p foundP q foundQ s foundS => ?_
    have smaller := (formedA.parent? foundP).1
    exact merge_assoc wild p q s (formedA.parent? foundP).2.1 (formedB.parent? foundQ).2.1
      (formedC.parent? foundS).2.1
  rw [merge_eq (formedA.merge wild formedB) formedC, merge_eq formedA (formedB.merge wild formedC),
    merge_eq formedA formedB, merge_eq formedB formedC]
  cases wild with
  | false => simpa using entries
  | true =>
    -- a bottom among the three swallows the others on either side
    cases bottomA : a.isEmpty with
    | true => simp
    | false =>
      cases bottomB : b.isEmpty with
      | true => simp
      | false =>
        cases bottomC : c.isEmpty with
        | true => simp
        | false =>
          simpa [bottomA, bottomC, isEmpty_mergeEntries formedA formedB bottomA bottomB,
            isEmpty_mergeEntries formedB formedC bottomB bottomC] using entries
termination_by sizeOf a

end AdaptiveLL.Context
