import AdaptiveLL.Prediction.Conflict
import Mathlib.Data.List.Sort

/-!
# Alternatives that are left

The alternatives of a set of configurations lie in groups, one for each state and context. Every group has
members, and together the groups have exactly the alternatives of the set (`grouped_of`). So if all
groups have the same least member, it is the least alternative of the set (`least_of_singleViable`), and a
set whose configurations share no alternative has at least two (`two_le_alts`).
-/

set_option autoImplicit false

namespace AdaptiveLL

/-! ## Ascending lists -/

namespace AltSet

theorem mem_insertAscending {m n : Nat} {l : List Nat} : m ∈ insertAscending n l ↔ m = n ∨ m ∈ l := by
  induction l with
  | nil => simp [insertAscending]
  | cons k rest ih =>
    rw [insertAscending]
    split
    · exact List.mem_cons
    · split
      · rename_i same
        simp [same]
      · rw [List.mem_cons, ih, List.mem_cons]
        exact or_left_comm

theorem pairwise_insertAscending {n : Nat} {l : List Nat} (ascends : l.Pairwise (· < ·)) :
    (insertAscending n l).Pairwise (· < ·) := by
  induction l with
  | nil => simp [insertAscending]
  | cons k rest ih =>
    obtain ⟨below, ascends⟩ := List.pairwise_cons.1 ascends
    rw [insertAscending]
    split
    · rename_i before
      refine List.pairwise_cons.2 ⟨fun m member => ?_, List.pairwise_cons.2 ⟨below, ascends⟩⟩
      rcases List.mem_cons.1 member with rfl | later
      · exact before
      · exact Nat.lt_trans before (below m later)
    · split
      · exact List.pairwise_cons.2 ⟨below, ascends⟩
      · refine List.pairwise_cons.2 ⟨fun m member => ?_, ih ascends⟩
        rcases mem_insertAscending.1 member with rfl | later
        · omega
        · exact below m later

/-- The members of a set ascend. -/
def Ascends (s : AltSet) : Prop := s.members.Pairwise (· < ·)

theorem Ascends.insert {s : AltSet} (ascends : s.Ascends) (n : Nat) : (s.insert n).Ascends :=
  pairwise_insertAscending ascends

theorem ofList_spec (ns : List Nat) :
    (ofList ns).Ascends ∧ ∀ m, m ∈ (ofList ns).members ↔ m ∈ ns := by
  have fold (ns : List Nat) (s : AltSet) (ascends : s.Ascends) : (ns.foldl AltSet.insert s).Ascends ∧
      ∀ m, m ∈ (ns.foldl AltSet.insert s).members ↔ m ∈ s.members ∨ m ∈ ns := by
    induction ns generalizing s with
    | nil => exact ⟨ascends, fun m => by simp⟩
    | cons n rest ih =>
      obtain ⟨ascends', members⟩ := ih (s.insert n) (ascends.insert n)
      refine ⟨ascends', fun m => (members m).trans ?_⟩
      rw [AltSet.insert, mem_insertAscending, List.mem_cons, or_assoc]
      exact or_left_comm
  obtain ⟨ascends, members⟩ := fold ns empty List.Pairwise.nil
  exact ⟨ascends, fun m => (members m).trans (by simp [empty])⟩

/-- Ascending sets with the same members are the same. -/
theorem Ascends.ext {s t : AltSet} (ascendsS : s.Ascends) (ascendsT : t.Ascends)
    (same : ∀ a, a ∈ s.members ↔ a ∈ t.members) : s = t := by
  obtain ⟨members⟩ := s
  exact congrArg AltSet.mk (List.Pairwise.eq_of_mem_iff ascendsS ascendsT fun {a} => same a)

theorem union_spec {s t : AltSet} (ascends : s.Ascends) :
    (s.union t).Ascends ∧ ∀ a, a ∈ (s.union t).members ↔ a ∈ s.members ∨ a ∈ t.members := by
  unfold union
  induction t.members generalizing s with
  | nil => exact ⟨ascends, fun a => by simp⟩
  | cons n rest ih =>
    obtain ⟨ascends', members⟩ := ih (ascends.insert n)
    refine ⟨ascends', fun a => (members a).trans ?_⟩
    rw [insert, mem_insertAscending, List.mem_cons, or_assoc]
    exact or_left_comm

/-- The first member of an ascending set is the least one. -/
theorem Ascends.min?_eq_some_iff {s : AltSet} (ascends : s.Ascends) {a : Nat} :
    s.min? = some a ↔ a ∈ s.members ∧ ∀ b ∈ s.members, a ≤ b := by
  unfold min?
  cases members : s.members with
  | nil => simp
  | cons k rest =>
    rw [Ascends, members] at ascends
    have below := (List.pairwise_cons.1 ascends).1
    rw [List.head?_cons, Option.some_inj, List.mem_cons]
    constructor
    · rintro rfl
      refine ⟨.inl rfl, fun b member => ?_⟩
      rcases List.mem_cons.1 member with rfl | later
      · exact Nat.le_refl _
      · exact Nat.le_of_lt (below b later)
    · rintro ⟨rfl | later, least⟩
      · rfl
      · have before := below a later
        have after := least k List.mem_cons_self
        omega

theorem two_le_size {s : AltSet} {a b : Nat} (memberA : a ∈ s.members) (memberB : b ∈ s.members)
    (differ : a ≠ b) : 2 ≤ s.size := by
  unfold size
  match members : s.members, memberA, memberB with
  | [k], memberA, memberB => simp_all
  | _ :: _ :: _, _, _ => simp

end AltSet

namespace Prediction

variable {κ : Type} [DecidableEq κ] {key : Config → κ} {s : ConfigSet}

/-! ## Groups -/

/-- The groups hold the alternatives of the configurations, each group some of them. -/
structure Grouped (cs : List Config) (gs : List AltSet) : Prop where
  ascends : ∀ g ∈ gs, g.Ascends
  nonempty : ∀ g ∈ gs, ∃ a, a ∈ g.members
  sound : ∀ g ∈ gs, ∀ a ∈ g.members, ∃ c ∈ cs, c.alt = a
  complete : ∀ c ∈ cs, ∃ g ∈ gs, c.alt ∈ g.members

theorem mem_addToGroup {k : κ} {alt : Nat} {gs : List (κ × AltSet)} {g : AltSet}
    (member : g ∈ (addToGroup k alt gs).map (·.2)) :
    g ∈ gs.map (·.2) ∨ g = .singleton alt ∨ ∃ g₀ ∈ gs.map (·.2), g = g₀.insert alt := by
  induction gs with
  | nil =>
    obtain rfl : g = .singleton alt := by simpa [addToGroup] using member
    exact .inr (.inl rfl)
  | cons first rest ih =>
    rw [addToGroup] at member
    split at member
    · rcases List.mem_cons.1 member with rfl | later
      · exact .inr (.inr ⟨first.2, by simp, rfl⟩)
      · exact .inl (List.mem_cons_of_mem _ later)
    · rcases List.mem_cons.1 member with rfl | later
      · exact .inl (by simp)
      · rcases ih later with old | new | ⟨g₀, among, grown⟩
        · exact .inl (List.mem_cons_of_mem _ old)
        · exact .inr (.inl new)
        · exact .inr (.inr ⟨g₀, List.mem_cons_of_mem _ among, grown⟩)

theorem addToGroup_has (k : κ) (alt : Nat) (gs : List (κ × AltSet)) :
    (∃ g ∈ (addToGroup k alt gs).map (·.2), alt ∈ g.members) ∧
      ∀ a, (∃ g ∈ gs.map (·.2), a ∈ g.members) → ∃ g ∈ (addToGroup k alt gs).map (·.2), a ∈ g.members := by
  induction gs with
  | nil => simp [addToGroup, AltSet.singleton, AltSet.insert, AltSet.empty, AltSet.insertAscending]
  | cons first rest ih =>
    rw [addToGroup]
    split
    · refine ⟨⟨first.2.insert alt, by simp, AltSet.mem_insertAscending.2 (.inl rfl)⟩, ?_⟩
      rintro a ⟨g, member, has⟩
      rcases List.mem_cons.1 member with rfl | later
      · exact ⟨_, List.mem_cons_self, AltSet.mem_insertAscending.2 (.inr has)⟩
      · exact ⟨g, List.mem_cons_of_mem _ later, has⟩
    · obtain ⟨⟨g₁, member₁, has₁⟩, kept⟩ := ih
      refine ⟨⟨g₁, List.mem_cons_of_mem _ member₁, has₁⟩, ?_⟩
      rintro a ⟨g, member, has⟩
      rcases List.mem_cons.1 member with rfl | later
      · exact ⟨_, List.mem_cons_self, has⟩
      · obtain ⟨g', member', has'⟩ := kept a ⟨g, later, has⟩
        exact ⟨g', List.mem_cons_of_mem _ member', has'⟩

theorem Grouped.add {cs : List Config} {gs : List (κ × AltSet)} (grouped : Grouped cs (gs.map (·.2)))
    (c : Config) (k : κ) : Grouped (cs ++ [c]) ((addToGroup k c.alt gs).map (·.2)) := by
  refine ⟨fun g member => ?_, fun g member => ?_, fun g member a has => ?_, fun d among => ?_⟩
  · rcases mem_addToGroup member with old | rfl | ⟨g₀, among, rfl⟩
    · exact grouped.ascends g old
    · exact AltSet.Ascends.insert (s := .empty) List.Pairwise.nil _
    · exact (grouped.ascends g₀ among).insert _
  · rcases mem_addToGroup member with old | rfl | ⟨g₀, among, rfl⟩
    · exact grouped.nonempty g old
    · exact ⟨c.alt, AltSet.mem_insertAscending.2 (.inl rfl)⟩
    · exact ⟨c.alt, AltSet.mem_insertAscending.2 (.inl rfl)⟩
  · have new (here : a = c.alt) : ∃ d ∈ cs ++ [c], d.alt = a := ⟨c, by simp, here.symm⟩
    have known {g : AltSet} (old : g ∈ gs.map (·.2)) (has : a ∈ g.members) : ∃ d ∈ cs ++ [c], d.alt = a := by
      obtain ⟨d, among, same⟩ := grouped.sound g old a has
      exact ⟨d, List.mem_append_left _ among, same⟩
    rcases mem_addToGroup member with old | rfl | ⟨g₀, among, rfl⟩
    · exact known old has
    · exact (AltSet.mem_insertAscending.1 has).elim new (fun none => by simp [AltSet.empty] at none)
    · exact (AltSet.mem_insertAscending.1 has).elim new (known among)
  · obtain ⟨here, kept⟩ := addToGroup_has k c.alt gs
    rcases List.mem_append.1 among with old | new
    · exact kept _ (grouped.complete d old)
    · obtain rfl := List.mem_singleton.1 new
      exact here

theorem grouped_of (key : Config → κ) (s : ConfigSet) : Grouped s.configs.toList (groups key s) := by
  have fold (rest done : List Config) (gs : List (κ × AltSet)) (grouped : Grouped done (gs.map (·.2))) :
      Grouped (done ++ rest) ((rest.foldl (fun gs c => addToGroup (key c) c.alt gs) gs).map (·.2)) := by
    induction rest generalizing done gs with
    | nil => simpa using grouped
    | cons c rest ih =>
      rw [← List.singleton_append, ← List.append_assoc]
      exact ih (done ++ [c]) _ (grouped.add c (key c))
  exact fold s.configs.toList [] [] ⟨nofun, nofun, nofun, nofun⟩

/-! ## The least alternative -/

theorem mem_alts {a : Nat} : a ∈ s.alts.members ↔ ∃ c ∈ s.configs.toList, c.alt = a := by
  rw [ConfigSet.alts, (AltSet.ofList_spec _).2, List.mem_map]

/-- If one alternative is the least of every group, it is the least of all. -/
theorem least_of_members {gs : List AltSet} (grouped : Grouped s.configs.toList gs) {alt : Nat}
    (only : (AltSet.ofList (gs.filterMap AltSet.min?)).members = [alt]) : s.alts.min? = some alt := by
  have least (a : Nat) : a ∈ gs.filterMap AltSet.min? ↔ a = alt := by
    rw [← (AltSet.ofList_spec _).2, only, List.mem_singleton]
  obtain ⟨g, member, isLeast⟩ := List.mem_filterMap.1 ((least alt).2 rfl)
  refine (AltSet.ofList_spec _).1.min?_eq_some_iff.2 ⟨?_, fun b among => ?_⟩
  · have has := ((grouped.ascends g member).min?_eq_some_iff.1 isLeast).1
    exact mem_alts.2 (grouped.sound g member alt has)
  · obtain ⟨c, inside, rfl⟩ := mem_alts.1 among
    obtain ⟨g', member', has⟩ := grouped.complete c inside
    obtain ⟨first, isFirst⟩ : ∃ first, g'.min? = some first := by
      unfold AltSet.min?
      cases members : g'.members with
      | nil => simp [members] at has
      | cons k rest => exact ⟨k, rfl⟩
    obtain rfl := (least first).1 (List.mem_filterMap.2 ⟨g', member', isFirst⟩)
    exact ((grouped.ascends g' member').min?_eq_some_iff.1 isFirst).2 _ has

theorem least_of_singleViable {alt : Nat} (single : singleViable (conflictGroups s) = alt)
    (valid : alt ≠ invalidAlt) : s.alts.min? = some alt := by
  unfold singleViable at single
  split at single
  · rename_i found only
    exact least_of_members (grouped_of _ s) (single ▸ only)
  · exact absurd single.symm valid

/-- Groups that are all the same have their least member in common. -/
theorem least_of_allEqual (nonempty : s.isEmpty = false) (equal : allEqual (conflictGroups s) = true) :
    s.alts.min? = some (singleViable (conflictGroups s)) := by
  have grouped : Grouped s.configs.toList (conflictGroups s) := grouped_of _ s
  obtain ⟨c, among⟩ : ∃ c, c ∈ s.configs.toList := by
    refine List.exists_mem_of_ne_nil _ fun none => ?_
    rw [ConfigSet.isEmpty, Array.isEmpty_eq_false_iff] at nonempty
    exact nonempty (Array.toList_eq_nil_iff.1 none)
  obtain ⟨g, member, has⟩ := grouped.complete c among
  obtain ⟨alt, isLeast⟩ : ∃ alt, g.min? = some alt := by
    unfold AltSet.min?
    cases members : g.members with
    | nil => simp [members] at has
    | cons k rest => exact ⟨k, rfl⟩
  have same : ∀ g' ∈ conflictGroups s, g' = g := by
    cases all : conflictGroups s with
    | nil => exact nofun
    | cons first rest =>
      rw [all] at equal member
      have equal : ∀ g' ∈ rest, g' = first := by simpa [allEqual] using equal
      have first : g = first := (List.mem_cons.1 member).elim id (equal g)
      intro g' among
      exact (List.mem_cons.1 among).elim (·.trans first.symm) fun later => (equal g' later).trans first.symm
  have only : (AltSet.ofList ((conflictGroups s).filterMap AltSet.min?)).members = [alt] := by
    obtain ⟨ascends, members⟩ := AltSet.ofList_spec ((conflictGroups s).filterMap AltSet.min?)
    have isAlt (a : Nat) : a ∈ (AltSet.ofList ((conflictGroups s).filterMap AltSet.min?)).members ↔ a = alt := by
      rw [members, List.mem_filterMap]
      constructor
      · rintro ⟨g', among, found⟩
        rw [same g' among, isLeast] at found
        exact (Option.some_inj.1 found).symm
      · rintro rfl
        exact ⟨g, member, isLeast⟩
    rw [AltSet.Ascends] at ascends
    match (AltSet.ofList ((conflictGroups s).filterMap AltSet.min?)).members, ascends, isAlt with
    | [], _, isAlt => exact nomatch (isAlt alt).2 rfl
    | [a], _, isAlt => rw [(isAlt a).1 List.mem_cons_self]
    | a :: b :: rest, ascends, isAlt =>
      have less := (List.pairwise_cons.1 ascends).1 b List.mem_cons_self
      have a_eq := (isAlt a).1 List.mem_cons_self
      have b_eq := (isAlt b).1 (by simp)
      omega
  have single : singleViable (conflictGroups s) = alt := by
    unfold singleViable
    rw [only]
  rw [single]
  exact least_of_members grouped only

/-! ## Shared alternatives -/

theorem exists_other {alt : Nat} {cs : List Config} (valid : alt ≠ invalidAlt)
    (shared : ConfigSet.sharedAltFrom alt cs = invalidAlt) : ∃ c ∈ cs, c.alt ≠ alt := by
  induction cs with
  | nil => exact absurd shared valid
  | cons c rest ih =>
    rw [ConfigSet.sharedAltFrom, if_neg valid] at shared
    split at shared
    · rename_i other
      exact ⟨c, List.mem_cons_self, other⟩
    · obtain ⟨d, member, other⟩ := ih shared
      exact ⟨d, List.mem_cons_of_mem _ member, other⟩

/-- A set whose configurations share no alternative has at least two alternatives. -/
theorem two_le_alts (nonempty : s.isEmpty = false) (valid : ∀ c ∈ s.configs, c.alt ≠ invalidAlt)
    (shared : s.sharedAlt = invalidAlt) : 2 ≤ s.alts.size := by
  unfold ConfigSet.sharedAlt at shared
  cases members : s.configs.toList with
  | nil =>
    rw [ConfigSet.isEmpty, Array.isEmpty_eq_false_iff] at nonempty
    exact absurd (Array.toList_eq_nil_iff.1 members) nonempty
  | cons c rest =>
    have validC : c.alt ≠ invalidAlt := valid c (Array.mem_toList_iff.1 (by simp [members]))
    rw [members, ConfigSet.sharedAltFrom, if_pos rfl] at shared
    obtain ⟨d, member, other⟩ := exists_other validC shared
    exact AltSet.two_le_size (mem_alts.2 ⟨c, by simp [members], rfl⟩)
      (mem_alts.2 ⟨d, by simp [members, member], rfl⟩) (Ne.symm other)

end Prediction

end AdaptiveLL
