import AdaptiveLL.Proofs.Context.Merging
import Mathlib.Data.Set.Card
import Mathlib.Logic.Relation

/-!
# What interning keeps

A context contains itself, the contexts that follow its entries, and what those contain. Interning gives
back the context that it is given, and the table then has exactly what it had before together with all
that the context contains (`mem_intern`). This rests on the table being closed, since a context that the
table knows already is not searched again; and it says in turn that the table stays closed.

Hence after any number of contexts the table holds what they contain, each once, apart from the bottom of
the stack, which is not kept (`internAll_faithful`).
-/

set_option autoImplicit false

namespace AdaptiveLL.Context

variable {c d p rest : Context} {r : Option Nat}

/-! ## The parts of a context -/

/-- One context follows an entry of the other. -/
def Continues (c p : Context) : Prop := ∃ r, (r, p) ∈ c.entries

/-- A context contains itself, what follows its entries, and what those contain. -/
def Contains (c d : Context) : Prop := Relation.ReflTransGen Continues c d

/-- The context is neither absent nor the bottom of the stack alone. -/
def Proper (c : Context) : Prop := c ≠ .nil ∧ c.isEmpty = false

theorem not_continues_nil : ¬ Continues .nil p := by
  rintro ⟨r, member⟩
  cases member

theorem continues_cons {q : Context} : (cons r p rest).Continues q ↔ q = p ∨ rest.Continues q := by
  constructor
  · rintro ⟨s, member⟩
    rcases List.mem_cons.1 member with same | later
    · exact .inl (Prod.mk.inj same).2
    · exact .inr ⟨s, later⟩
  · rintro (rfl | ⟨s, later⟩)
    · exact ⟨r, List.mem_cons_self⟩
    · exact ⟨s, List.mem_cons_of_mem _ later⟩

theorem contains_iff : c.Contains d ↔ c = d ∨ ∃ p, c.Continues p ∧ p.Contains d :=
  Relation.ReflTransGen.cases_head_iff

theorem contains_cons : (cons r p rest).Contains d ↔
    cons r p rest = d ∨ p.Contains d ∨ ∃ q, rest.Continues q ∧ q.Contains d := by
  simp only [contains_iff (c := cons r p rest), continues_cons, or_and_right, exists_or, exists_eq_left]

theorem contains_nil : Contains .nil d ↔ d = .nil := by
  simp only [contains_iff (c := .nil), not_continues_nil, false_and, exists_false, or_false, eq_comm]

theorem proper_cons {n : Nat} : (cons (some n) p rest).Proper := ⟨nofun, rfl⟩

theorem not_proper_nil : ¬ Proper .nil := fun proper => proper.1 rfl

theorem not_proper_of_contains_nil (contains : Contains .nil d) : ¬ d.Proper := by
  rcases contains_iff.1 contains with rfl | ⟨p, continues, -⟩
  · exact not_proper_nil
  · exact absurd continues not_continues_nil

/-- Nothing that is kept stands at the bottom of the stack. -/
theorem not_proper_of_contains_empty (contains : empty.Contains d) : ¬ d.Proper := by
  rcases contains_iff.1 contains with rfl | ⟨p, continues, below⟩
  · exact fun proper => absurd proper.2 (by decide)
  · rcases continues_cons.1 continues with rfl | later
    · exact not_proper_of_contains_nil below
    · exact absurd later not_continues_nil

/-- Whatever a well-formed context contains is well formed. -/
theorem WellFormed.of_contains (formed : c.WellFormed) (contains : c.Contains d) : d.WellFormed := by
  induction contains with
  | refl => exact formed
  | tail _ continues ih =>
    obtain ⟨r, member⟩ := continues
    exact (ih.of_mem member).1

namespace Table

variable {t : Table}

/-! ## What a call keeps -/

theorem internParents_absent (r : Option Nat) (rest : Context) (t : Table) :
    internParents (.cons r .nil rest) t = (.cons r .nil (internParents rest t).1, (internParents rest t).2) :=
  rfl

/-- What follows an entry is interned before the entries behind it. -/
theorem internParents_cons (present : p ≠ .nil) :
    internParents (.cons r p rest) t = (.cons r (intern p t).1 (internParents rest (intern p t).2).1,
      (internParents rest (intern p t).2).2) := by
  rw [internParents, intern, if_neg present]

/-- With a context the table has all that it contains. -/
def Closed (t : Table) : Prop := ∀ c ∈ t.known, ∀ d, c.Contains d → d.Proper → d ∈ t.known

theorem mem_insert : d ∈ (t.insert c).known ↔ d = c ∨ d ∈ t.known := by
  rw [insert, Std.HashSet.mem_insert, beq_iff_eq, eq_comm]

theorem mem_of_find? {kept : Context} (found : t.find? c = some kept) : c ∈ t.known := by
  rw [find?, Std.HashSet.get?_eq_some_iff] at found
  exact found.1

/-- A table that gains what some contexts contain stays closed. -/
theorem Closed.gain {t' : Table} (closed : t.Closed) {new : Context → Prop}
    (down : ∀ {c d}, new c → c.Contains d → new d)
    (gains : ∀ d, d ∈ t'.known ↔ d ∈ t.known ∨ d.Proper ∧ new d) : t'.Closed := by
  intro c member d contains proper
  rw [gains] at member ⊢
  rcases member with old | ⟨-, isNew⟩
  · exact .inl (closed c old d contains proper)
  · exact .inr ⟨proper, down isNew contains⟩

theorem mem_intern_of_parents (formed : c.WellFormed) (present : c ≠ .nil) (closed : t.Closed)
    (parents : ∀ d, d ∈ (internParents c t).2.known ↔
      d ∈ t.known ∨ d.Proper ∧ ∃ p, c.Continues p ∧ p.Contains d) (d : Context) :
    d ∈ (intern c t).2.known ↔ d ∈ t.known ∨ d.Proper ∧ c.Contains d := by
  rw [intern]
  by_cases bottom : c.isEmpty = true
  · obtain rfl := formed.eq_empty bottom
    rw [if_pos bottom]
    exact (or_iff_left fun found => not_proper_of_contains_empty found.2 found.1).symm
  · rw [if_neg bottom]
    cases found : t.find? c with
    | some kept => exact (or_iff_left_of_imp fun new => closed c (mem_of_find? found) d new.2 new.1).symm
    | none =>
      simp only [mem_insert]
      rw [internParents_eq formed, parents, contains_iff (c := c)]
      constructor
      · rintro (rfl | old | ⟨proper, below⟩)
        · exact .inr ⟨⟨present, by simpa using bottom⟩, .inl rfl⟩
        · exact .inl old
        · exact .inr ⟨proper, .inr below⟩
      · rintro (old | ⟨proper, rfl | below⟩)
        · exact .inr (.inl old)
        · exact .inl rfl
        · exact .inr (.inr ⟨proper, below⟩)

/-- By induction on the entries; the table between two entries is closed, since it has gained all that the
first one goes on with. -/
theorem mem_internParents (formed : c.WellFormed) (closed : t.Closed) (d : Context) :
    d ∈ (internParents c t).2.known ↔
      d ∈ t.known ∨ d.Proper ∧ ∃ p, c.Continues p ∧ p.Contains d := by
  induction c generalizing t d with
  | nil =>
    refine (or_iff_left ?_).symm
    rintro ⟨-, p, continues, -⟩
    exact not_continues_nil continues
  | cons r p rest ihParent ihRest =>
    obtain ⟨-, formedParent, -, formedRest⟩ := formed
    simp only [continues_cons, or_and_right, exists_or, exists_eq_left, and_or_left]
    by_cases present : p = .nil
    · subst present
      rw [internParents_absent, ihRest formedRest closed]
      have none : ¬ (d.Proper ∧ Contains .nil d) := fun new => not_proper_of_contains_nil new.2 new.1
      rw [or_iff_right none]
    · have first := mem_intern_of_parents formedParent present closed
        fun d => ihParent formedParent closed d
      have between : (intern p t).2.Closed := closed.gain (fun above below => above.trans below) first
      rw [internParents_cons present, ihRest formedRest between, first, or_assoc]

/-- After a call the table has what it had and what the context contains. -/
theorem mem_intern (formed : c.WellFormed) (present : c ≠ .nil) (closed : t.Closed) (d : Context) :
    d ∈ (intern c t).2.known ↔ d ∈ t.known ∨ d.Proper ∧ c.Contains d :=
  mem_intern_of_parents formed present closed (mem_internParents formed closed) d

/-- A context of the table, or the bottom of the stack, leaves the table as it is. -/
theorem intern_snd_of_known (known : c.Proper → c ∈ t.known) (present : c ≠ .nil) :
    (intern c t).2 = t := by
  rw [intern]
  by_cases bottom : c.isEmpty = true
  · rw [if_pos bottom]
  · have member : c ∈ t.known := known ⟨present, by simpa using bottom⟩
    rw [if_neg bottom, find?, Std.HashSet.get?_eq_some member]

/-! ## Many calls -/

/-- Interns contexts one after the other. -/
def internAll : List Context → Table → List Context × Table
  | [], t => ([], t)
  | c :: rest, t =>
    let later := internAll rest (intern c t).2
    ((intern c t).1 :: later.1, later.2)

/-- What is kept of a list of contexts. -/
def Kept (contexts : List Context) (d : Context) : Prop := d.Proper ∧ ∃ c ∈ contexts, c.Contains d

theorem internAll_fst {contexts : List Context} (formed : ∀ c ∈ contexts, c.WellFormed) (t : Table) :
    (internAll contexts t).1 = contexts := by
  induction contexts generalizing t with
  | nil => rfl
  | cons c rest ih =>
    rw [internAll]
    exact congrArg₂ List.cons (intern_eq (formed c List.mem_cons_self) t)
      (ih (fun d member => formed d (List.mem_cons_of_mem c member)) (intern c t).2)

theorem mem_internAll {contexts : List Context} (formed : ∀ c ∈ contexts, c.WellFormed ∧ c ≠ .nil)
    (closed : t.Closed) : (internAll contexts t).2.Closed ∧
      ∀ d, d ∈ (internAll contexts t).2.known ↔ d ∈ t.known ∨ Kept contexts d := by
  induction contexts generalizing t with
  | nil => exact ⟨closed, fun d => (or_iff_left fun kept => List.not_mem_nil kept.2.choose_spec.1).symm⟩
  | cons c rest ih =>
    obtain ⟨wellFormed, present⟩ := formed c List.mem_cons_self
    have first := mem_intern wellFormed present closed
    have between : (intern c t).2.Closed := closed.gain (fun above below => above.trans below) first
    obtain ⟨closed', later⟩ := ih (fun d member => formed d (List.mem_cons_of_mem c member)) between
    refine ⟨closed', fun d => ?_⟩
    have kept : Kept (c :: rest) d ↔ d.Proper ∧ c.Contains d ∨ Kept rest d := by
      simp only [Kept, List.mem_cons, or_and_right, exists_or, exists_eq_left, and_or_left]
    rw [kept, ← or_assoc, ← first]
    exact later d

/-- The size of a table is the number of contexts in it. -/
theorem size_eq_ncard (t : Table) : t.size = {d | d ∈ t.known}.ncard := by
  have distinct : t.known.toList.Nodup :=
    t.known.distinct_toList.imp fun differ same => by simp [same] at differ
  have same : {d | d ∈ t.known} = (t.known.toList.toFinset : Set Context) := by
    ext d
    simp
  rw [same, Set.ncard_coe_finset, List.toFinset_card_of_nodup distinct, Std.HashSet.length_toList]
  rfl

/-- Interning contexts one after the other gives each of them back. The table then has, with a context,
whatever follows its entries; a context that one of them contains changes it no more; and it counts
everything that they contain once. -/
theorem internAll_faithful (contexts : List Context) (formed : ∀ c ∈ contexts, c.WellFormed ∧ c ≠ .nil) :
    let t := (internAll contexts {}).2
    (internAll contexts {}).1 = contexts ∧
      (∀ c ∈ t.known, ∀ p, c.Continues p → p.Proper → p ∈ t.known) ∧
      (∀ c ∈ contexts, ∀ d, c.Contains d → d ≠ .nil → intern d t = (d, t)) ∧
      t.size = {d | Kept contexts d}.ncard := by
  intro t
  have fresh : Closed {} := fun c member => absurd member Std.HashSet.not_mem_empty
  obtain ⟨closed, members⟩ := mem_internAll formed fresh
  have mem_iff (d : Context) : d ∈ t.known ↔ Kept contexts d := by
    rw [members, or_iff_right]
    exact Std.HashSet.not_mem_empty
  refine ⟨internAll_fst (fun c member => (formed c member).1) {}, ?_, ?_, ?_⟩
  · intro c member p continues proper
    exact closed c member p (.single continues) proper
  · intro c member d contains present
    have same : (intern d t).1 = d := intern_eq ((formed c member).1.of_contains contains) t
    have still : (intern d t).2 = t :=
      intern_snd_of_known (fun proper => (mem_iff d).2 ⟨proper, c, member, contains⟩) present
    exact Prod.ext same still
  · rw [size_eq_ncard]
    simp only [mem_iff]

/-- A stack of two calls. -/
def sharedTail : Context := (empty.push 1).push 2

/-- A context with two entries that go on alike, and others that go on so too. -/
def sharingContexts : List Context :=
  [.cons (some 3) sharedTail (.cons (some 4) sharedTail .nil), sharedTail.push 5,
    .cons (some 3) sharedTail empty, sharedTail, empty]

theorem internAll_faithful_sharing :
    (∀ c ∈ sharingContexts, c.WellFormed ∧ c ≠ .nil) ∧
      (internAll sharingContexts {}).1 = sharingContexts ∧ (internAll sharingContexts {}).2.size = 5 := by
  have formed : ∀ c ∈ sharingContexts, c.WellFormed ∧ c ≠ .nil := by
    simp [sharingContexts, sharedTail, WellFormed, Above, precedes, empty, push]
  have kept : {d | Kept sharingContexts d} = {.cons (some 3) sharedTail (.cons (some 4) sharedTail .nil),
      sharedTail.push 5, .cons (some 3) sharedTail empty, sharedTail, empty.push 1} := by
    ext d
    simp only [sharingContexts, sharedTail, Kept, empty, push, List.mem_cons, List.not_mem_nil, or_false,
      exists_eq_or_imp, exists_eq_left, contains_cons, contains_nil, continues_cons, not_continues_nil,
      Set.mem_ofPred_eq, Set.mem_insert_iff, Set.mem_singleton_iff, eq_comm (b := d), false_and, exists_false]
    constructor
    · rintro ⟨proper, found⟩
      have notBottom : d ≠ .cons none .nil .nil := fun same => absurd proper.2 (by rw [same]; decide)
      simp only [proper.1, notBottom, or_false] at found
      tauto
    · rintro (rfl | rfl | rfl | rfl | rfl) <;> simp [proper_cons]
  obtain ⟨same, -, -, size⟩ := internAll_faithful sharingContexts formed
  refine ⟨formed, same, size.trans ?_⟩
  rw [kept]
  simp [Set.ncard_insert_of_notMem, sharedTail, empty, push]

end Table

end AdaptiveLL.Context
