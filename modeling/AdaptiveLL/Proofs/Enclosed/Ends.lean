import Mathlib.Data.List.Infix
import Mathlib.Data.Nat.Find

/-!
# The first place of a text in another

A lexer that looks for the end of a comment keeps all beginnings of the closing text with which what it has
read so far ends (`partialEnds`). Several of them may be alive at once, because a text can overlap itself.
With one character more each of them grows or is given up, and the empty one begins anew
(`partialEnds_snoc`); the closing text is complete exactly when the longest of them was one character short
of it (`partialEnds_of_complete`). So what a set of configurations can hold of a text is enough to find the
first place at which it occurs.
-/

set_option autoImplicit false

namespace AdaptiveLL

variable {text read : List Char} {c : Char} {i j k : Nat}

/-! ## Beginnings at the end of what was read -/

/-- The lengths of the proper beginnings of the text with which what was read ends, the longest first. -/
def partialEnds (text read : List Char) : List Nat :=
  (List.range text.length).reverse.filter fun j => text.take j <:+ read

theorem mem_partialEnds : j ∈ partialEnds text read ↔ j < text.length ∧ text.take j <:+ read := by
  simp [partialEnds]

theorem partialEnds_sorted (text read : List Char) : (partialEnds text read).Pairwise (· > ·) := by
  apply List.Pairwise.filter
  rw [List.pairwise_reverse]
  exact List.pairwise_lt_range

theorem partialEnds_nil (proper : text ≠ []) : partialEnds text [] = [0] := by
  obtain ⟨c, cs, rfl⟩ := List.exists_cons_of_ne_nil proper
  rw [partialEnds, List.length_cons, List.range_succ_eq_map, List.reverse_cons, List.filter_append]
  simp

/-- The beginning that is one character longer stands at the end of what was read just when the shorter one
stood there before the character. -/
theorem take_succ_suffix_snoc (inside : j < text.length) :
    text.take (j + 1) <:+ read ++ [c] ↔ text.take j <:+ read ∧ text[j]? = some c := by
  rw [List.take_succ_eq_append_getElem inside, List.getElem?_eq_getElem inside, Option.some.injEq,
    List.suffix_concat_iff]
  constructor
  · rintro (nothing | ⟨before, same, ends⟩)
    · exact absurd nothing (List.append_ne_nil_of_right_ne_nil _ (List.cons_ne_nil _ _))
    · obtain ⟨rfl, last⟩ := List.append_inj' same rfl
      exact ⟨ends, by simpa using last⟩
  · rintro ⟨ends, rfl⟩
    exact .inr ⟨_, rfl, ends⟩

/-- With one character more the beginnings that go on with it grow, and the empty one begins anew. -/
theorem partialEnds_snoc (proper : text ≠ []) (incomplete : ¬ text <:+ read ++ [c]) :
    partialEnds text (read ++ [c]) =
      ((partialEnds text read).filter fun j => text[j]? = some c).map (· + 1) ++ [0] := by
  obtain ⟨m, length⟩ : ∃ m, text.length = m + 1 :=
    ⟨text.length - 1, by have := List.length_pos_iff.2 proper; omega⟩
  -- The longest beginning does not go on: the text would be complete.
  have longest : ¬ (text.take m <:+ read ∧ text[m]? = some c) := by
    rw [← take_succ_suffix_snoc (by omega), ← length, List.take_length]
    exact incomplete
  have before : ((partialEnds text read).filter fun j => text[j]? = some c) =
      (List.range m).reverse.filter fun j => text.take j <:+ read ∧ text[j]? = some c := by
    rw [partialEnds, length, List.range_succ, List.reverse_concat, List.filter_filter]
    simp only [← Bool.decide_and, and_comm (a := text[_]? = some c)]
    rw [List.filter_cons_of_neg (by simpa using longest)]
  rw [before, partialEnds, length, List.range_succ_eq_map, List.reverse_cons, List.filter_append,
    ← List.map_reverse, List.filter_map]
  congr 2
  apply List.filter_congr
  intro j member
  have inside : j < m := by simpa using member
  have within : j < text.length := by omega
  simp only [Function.comp, Nat.succ_eq_add_one, take_succ_suffix_snoc within]

/-- The text is complete when its longest proper beginning goes on. -/
theorem partialEnds_of_complete (proper : text ≠ []) (complete : text <:+ read ++ [c]) :
    ∃ shorter, partialEnds text read = (text.length - 1) :: shorter ∧ text[text.length - 1]? = some c := by
  obtain ⟨m, length⟩ : ∃ m, text.length = m + 1 :=
    ⟨text.length - 1, by have := List.length_pos_iff.2 proper; omega⟩
  have longest : text.take m <:+ read ∧ text[m]? = some c := by
    rw [← take_succ_suffix_snoc (by omega), ← length, List.take_length]
    exact complete
  refine ⟨(List.range m).reverse.filter fun j => text.take j <:+ read, ?_, ?_⟩
  · rw [partialEnds, length, List.range_succ, List.reverse_concat,
      List.filter_cons_of_pos (by simpa using longest.1)]
    rfl
  · rw [length]
    exact longest.2

/-! ## The first place -/

/-- The text occurs at the place, and at no earlier one. -/
structure OccursFirst (text inside : List Char) (k : Nat) : Prop where
  here : text <+: inside.drop k
  first : ∀ j < k, ¬ text <+: inside.drop j

theorem exists_occursFirst {inside : List Char} (occurs : text <:+: inside) : ∃ k, OccursFirst text inside k := by
  have somewhere : ∃ k, text <+: inside.drop k := by
    obtain ⟨before, behind, rfl⟩ := occurs
    refine ⟨before.length, behind, ?_⟩
    rw [List.append_assoc, List.drop_left]
  exact ⟨Nat.find somewhere, Nat.find_spec somewhere, fun j earlier => Nat.find_min somewhere earlier⟩

theorem suffix_take_of_prefix_drop {inside : List Char} (occurs : text <+: inside.drop k) :
    text <:+ inside.take (k + text.length) := by
  obtain ⟨behind, same⟩ := occurs
  refine ⟨inside.take k, ?_⟩
  rw [List.take_add, ← same, List.take_left]

theorem prefix_drop_of_suffix_take {inside : List Char} (within : i ≤ inside.length)
    (ends : text <:+ inside.take i) : text <+: inside.drop (i - text.length) := by
  obtain ⟨before, same⟩ := ends
  have length := congrArg List.length same
  rw [List.length_append, List.length_take_of_le within] at length
  refine ⟨inside.drop i, ?_⟩
  have whole : inside = before ++ (text ++ inside.drop i) := by
    rw [← List.append_assoc, same, List.take_append_drop]
  have place : i - text.length = before.length := by omega
  rw [place]
  nth_rewrite 2 [whole]
  exact List.drop_left.symm

namespace OccursFirst

variable {inside : List Char}

theorem unique (occurs : OccursFirst text inside j) (occurs' : OccursFirst text inside k) : j = k := by
  rcases Nat.lt_trichotomy j k with before | same | behind
  · exact absurd occurs.here (occurs'.first j before)
  · exact same
  · exact absurd occurs'.here (occurs.first k behind)

theorem length_le (occurs : OccursFirst text inside k) (proper : text ≠ []) :
    k + text.length ≤ inside.length := by
  have fits := occurs.here.length_le
  rw [List.length_drop] at fits
  have := List.length_pos_iff.2 proper
  omega

/-- Nothing that is shorter than the text up to the end of its first place ends with it. -/
theorem not_suffix_take (occurs : OccursFirst text inside k) (proper : text ≠ [])
    (earlier : i < k + text.length) : ¬ text <:+ inside.take i := by
  intro ends
  have within : i ≤ inside.length := by
    have := occurs.length_le proper
    omega
  have fits := ends.length_le
  rw [List.length_take_of_le within] at fits
  exact occurs.first (i - text.length) (by omega) (prefix_drop_of_suffix_take within ends)

end OccursFirst

end AdaptiveLL
