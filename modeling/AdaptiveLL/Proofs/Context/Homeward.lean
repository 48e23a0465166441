import AdaptiveLL.Proofs.Context.Remembering
import AdaptiveLL.Proofs.Network.Edges

/-!
# Contexts that lead home

With full context every stack of a context ends in the rule of the outermost call, the home of the prediction: each
return leads into a rule, and at the bottom of the stack that rule is the home (`LeadsHome`). So at the end of the
input all threads that have returned from everything are at the end of one and the same rule.

The merges keep this whatever they remember. The memo of a prediction may hold results of local context, which are
wrong with full context: a context that is swallowed by the bottom of the stack loses its returns. But it is swallowed
by a context of the same rule, and where the bottom of the stack is an entry the rule is the home already. So what
is remembered leads home if the two contexts that were merged do (`Memo.Homing`), and this is all that is needed.
-/

set_option autoImplicit false

namespace AdaptiveLL.Context

variable {net : Network} {home r : Nat} {a b c p q : Context} {memo : Memo} {ret : Option Nat} {wild : Bool}

/-- Every stack of the context leads home from the rule. -/
def LeadsHome (net : Network) (home : Nat) : Nat → Context → Prop
  | _, .nil => True
  | r, .cons none parent rest => (r = home ∧ parent = .nil) ∧ LeadsHome net home r rest
  | r, .cons (some n) parent rest =>
    (parent ≠ .nil ∧ ∃ r', (net.state n).rule = some r' ∧ LeadsHome net home r' parent) ∧ LeadsHome net home r rest

/-- There is a way home from the rule, and every stack of the context leads home. -/
def Homeward (net : Network) (home r : Nat) (c : Context) : Prop := c ≠ .nil ∧ c.LeadsHome net home r

/-- An entry from which one gets home: the bottom of the stack at home, or a return into a rule with a way home. -/
def EntryHome (net : Network) (home r : Nat) (ret : Option Nat) (parent : Context) : Prop :=
  match ret with
  | none => r = home ∧ parent = .nil
  | some n => ∃ r', (net.state n).rule = some r' ∧ parent.Homeward net home r'

theorem leadsHome_cons : (cons ret p c).LeadsHome net home r ↔ EntryHome net home r ret p ∧ c.LeadsHome net home r := by
  cases ret with
  | none => exact Iff.rfl
  | some n =>
    refine and_congr_left fun _ => ⟨fun ⟨present, r', known, leads⟩ => ⟨r', known, present, leads⟩, ?_⟩
    exact fun ⟨r', known, present, leads⟩ => ⟨present, r', known, leads⟩

theorem homeward_cons : (cons ret p c).Homeward net home r ↔ EntryHome net home r ret p ∧ c.LeadsHome net home r :=
  (and_iff_right (by simp)).trans leadsHome_cons

theorem LeadsHome.of_mem (leads : c.LeadsHome net home r) (member : (ret, p) ∈ c.entries) :
    EntryHome net home r ret p := by
  induction c with
  | nil => cases member
  | cons s parent rest _ ih =>
    obtain ⟨here, later⟩ := leadsHome_cons.1 leads
    rcases List.mem_cons.1 member with same | among
    · cases same
      exact here
    · exact ih later among

/-- At home the bottom of the stack is enough. -/
theorem homeward_empty : empty.Homeward net home home := homeward_cons.2 ⟨⟨rfl, rfl⟩, trivial⟩

theorem Homeward.push (homeward : c.Homeward net home r) {n : Nat} (known : (net.state n).rule = some r) (r' : Nat) :
    (c.push n).Homeward net home r' := homeward_cons.2 ⟨⟨r, known, homeward⟩, trivial⟩

/-- The bottom of the stack is met only at home. -/
theorem Homeward.at_home (homeward : c.Homeward net home r) (isEmpty : c.isEmpty = true) : c = empty ∧ r = home := by
  match c, isEmpty with
  | .cons none p .nil, _ =>
    obtain ⟨rfl, rfl⟩ := (homeward_cons.1 homeward).1
    exact ⟨rfl, rfl⟩

/-! ## Merges -/

/-- Whatever the memo remembers leads home if the two contexts do. -/
def Memo.Homing (net : Network) (home : Nat) (memo : Memo) : Prop :=
  ∀ a b c : Context, memo.known[(a, b)]? = some c →
    ∀ r, a.Homeward net home r → b.Homeward net home r → c.Homeward net home r

/-- The merge leads home if the two contexts do, and the memo goes on remembering what leads home. -/
def MergesHome (net : Network) (home : Nat) (a b : Context) (result : Context × Memo) : Prop :=
  result.2.Homing net home ∧ ∀ r, a.Homeward net home r → b.Homeward net home r → result.1.Homeward net home r

theorem Memo.homing_empty : Memo.Homing net home {} := by
  intro a b c found
  simp at found

theorem Memo.Homing.share (homing : memo.Homing net home) (c : Context) : (memo.share c).2.Homing net home := by
  unfold Memo.share
  split
  · exact homing
  · exact homing

theorem Memo.Homing.find? (homing : memo.Homing net home) (found : memo.find? a b = some c) :
    MergesHome net home a b (c, memo) := by
  refine ⟨homing, fun r homeA homeB => ?_⟩
  rcases Option.or_eq_some_iff.1 found with direct | ⟨-, turned⟩
  · exact homing a b c direct r homeA homeB
  · exact homing b a c turned r homeB homeA

theorem Memo.Homing.store (homing : memo.Homing net home)
    (leads : ∀ r, a.Homeward net home r → b.Homeward net home r → c.Homeward net home r) :
    MergesHome net home a b (memo.store a b c) := by
  refine ⟨fun x y d found => ?_, fun r homeA homeB => ?_⟩
  · rw [store_snd_known, Std.HashMap.getElem?_insert] at found
    split at found
    · rename_i same
      obtain ⟨rfl, rfl⟩ := Prod.mk.inj (beq_iff_eq.1 same)
      cases found
      exact leads
    · exact homing x y d found
  · rw [store_fst]
    exact leads r homeA homeB

/-- Of the bottom of the stack and another single entry either the bottom is left or both. -/
theorem mergeRoot_home (root : mergeRoot wild a b = some c) (homeA : a.Homeward net home r)
    (homeB : b.Homeward net home r) : c.Homeward net home r := by
  have both {ret : Option Nat} {parent rest : Context} (homeward : (cons ret parent rest).Homeward net home r)
      (isHome : r = home) : (cons ret parent empty).Homeward net home r := by
    subst isHome
    exact homeward_cons.2 ⟨(homeward_cons.1 homeward).1, homeward_empty.2⟩
  unfold mergeRoot at root
  split at root
  · split at root
    · rename_i bottom
      cases root
      rcases Bool.or_eq_true_iff.1 bottom with isEmpty | isEmpty
      · exact (homeA.at_home isEmpty).1 ▸ homeA
      · exact (homeB.at_home isEmpty).1 ▸ homeB
    · cases root
  · split at root
    · rename_i bottoms
      cases root
      exact (homeA.at_home (Bool.and_eq_true_iff.1 bottoms).1).1 ▸ homeA
    · split at root
      · rename_i isEmpty
        split at root
        · cases root
          exact both homeB (homeA.at_home isEmpty).2
        · cases root
      · split at root
        · rename_i isEmpty
          split at root
          · cases root
            exact both homeA (homeB.at_home isEmpty).2
          · cases root
        · cases root

mutual

theorem mergeMemo_home (wild : Bool) (a b : Context) (memo : Memo) (homing : memo.Homing net home) :
    MergesHome net home a b (mergeMemo wild a b memo) := by
  rw [mergeMemo]
  split
  · exact ⟨homing, fun r homeA _ => homeA⟩
  split
  · split
    · rename_i found
      exact homing.find? found
    · split
      · rename_i root
        exact homing.store fun r => mergeRoot_home root
      · exact mergeSingles_home wild a b memo homing
  split
  · exact ⟨homing, fun r homeA _ => homeA⟩
  split
  · exact ⟨homing, fun r _ homeB => homeB⟩
  split
  · rename_i found
    exact homing.find? found
  · obtain ⟨homing', leads⟩ := mergeEntriesMemo_home wild a b memo homing
    have same (c : Context) : (if c = a then a else if c = b then b else c) = c := by
      split
      · exact Eq.symm ‹_›
      · split
        · exact Eq.symm ‹_›
        · rfl
    dsimp only
    rw [same]
    exact homing'.store fun r homeA homeB => ⟨leads.1 homeA.1, leads.2 r homeA.2 homeB.2⟩
termination_by (sizeOf a + sizeOf b, 2)

theorem mergeSingles_home (wild : Bool) (a b : Context) (memo : Memo) (homing : memo.Homing net home) :
    MergesHome net home a b (mergeSingles wild a b memo) := by
  match a, b with
  | .nil, _ =>
    rw [mergeSingles.eq_def]
    exact ⟨homing, fun r homeA _ => homeA⟩
  | .cons ret p rest, .nil =>
    rw [mergeSingles.eq_def]
    exact ⟨homing, fun r homeA _ => homeA⟩
  | .cons ret p restA, .cons s q restB =>
    rw [mergeSingles]
    split
    · rename_i same
      subst same
      obtain ⟨homing', entry⟩ := mergeParents_home wild ret p q memo homing
      dsimp only
      split
      · exact ⟨homing', fun r homeA _ => homeA⟩
      · split
        · exact ⟨homing', fun r _ homeB => homeB⟩
        · exact homing'.store fun r homeA homeB =>
            homeward_cons.2 ⟨entry r (homeward_cons.1 homeA).1 (homeward_cons.1 homeB).1, trivial⟩
    · refine homing.store fun r homeA homeB => ?_
      have entryA := (homeward_cons.1 homeA).1
      have entryB := (homeward_cons.1 homeB).1
      split
      · exact homeward_cons.2 ⟨entryA, leadsHome_cons.2 ⟨entryB, trivial⟩⟩
      · exact homeward_cons.2 ⟨entryB, leadsHome_cons.2 ⟨entryA, trivial⟩⟩
termination_by (sizeOf a + sizeOf b, 0)

theorem mergeParents_home (wild : Bool) (ret : Option Nat) (p q : Context) (memo : Memo)
    (homing : memo.Homing net home) : (mergeParents wild p q memo).2.Homing net home ∧
      ∀ r, EntryHome net home r ret p → EntryHome net home r ret q →
        EntryHome net home r ret (mergeParents wild p q memo).1 := by
  rw [mergeParents]
  split
  · exact ⟨homing, fun r _ entry => entry⟩
  split
  · exact ⟨homing, fun r entry _ => entry⟩
  obtain ⟨homing', leads⟩ := mergeMemo_home wild p q memo homing
  refine ⟨homing', fun r entryP entryQ => ?_⟩
  cases ret with
  | none => exact absurd entryP.2 ‹_›
  | some n =>
    obtain ⟨r', known, homeP⟩ := entryP
    obtain ⟨r'', known', homeQ⟩ := entryQ
    obtain rfl := Option.some.inj (known.symm.trans known')
    exact ⟨r', known, leads r' homeP homeQ⟩
termination_by (sizeOf p + sizeOf q, 3)

theorem mergeEntriesMemo_home (wild : Bool) (a b : Context) (memo : Memo) (homing : memo.Homing net home) :
    (mergeEntriesMemo wild a b memo).2.Homing net home ∧ (a ≠ .nil → (mergeEntriesMemo wild a b memo).1 ≠ .nil) ∧
      ∀ r, a.LeadsHome net home r → b.LeadsHome net home r →
        (mergeEntriesMemo wild a b memo).1.LeadsHome net home r := by
  match a, b with
  | .nil, b =>
    rw [mergeEntriesMemo_nil_left]
    exact ⟨homing, fun absurd => (absurd rfl).elim, fun r _ homeB => homeB⟩
  | .cons ret p restA, .nil =>
    rw [mergeEntriesMemo_nil_right]
    exact ⟨homing, id, fun r homeA _ => homeA⟩
  | .cons ret p restA, .cons s q restB =>
    rw [mergeEntriesMemo]
    split
    · rename_i same
      subst same
      obtain ⟨homing₁, entry⟩ := mergeParents_home wild ret p q memo homing
      obtain ⟨homing₂, -, leads⟩ := mergeEntriesMemo_home wild restA restB _ homing₁
      refine ⟨homing₂, fun _ => by simp, fun r homeA homeB => ?_⟩
      obtain ⟨hereA, laterA⟩ := leadsHome_cons.1 homeA
      obtain ⟨hereB, laterB⟩ := leadsHome_cons.1 homeB
      exact leadsHome_cons.2 ⟨entry r hereA hereB, leads r laterA laterB⟩
    · split
      · obtain ⟨homing', -, leads⟩ := mergeEntriesMemo_home wild restA (.cons s q restB) memo homing
        refine ⟨homing', fun _ => by simp, fun r homeA homeB => ?_⟩
        obtain ⟨here, later⟩ := leadsHome_cons.1 homeA
        exact leadsHome_cons.2 ⟨here, leads r later homeB⟩
      · obtain ⟨homing', -, leads⟩ := mergeEntriesMemo_home wild (.cons ret p restA) restB memo homing
        refine ⟨homing', fun _ => by simp, fun r homeA homeB => ?_⟩
        obtain ⟨here, later⟩ := leadsHome_cons.1 homeB
        exact leadsHome_cons.2 ⟨here, leads r homeA later⟩
termination_by (sizeOf a + sizeOf b, 1)

end

end AdaptiveLL.Context
