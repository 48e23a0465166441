import AdaptiveLL.Proofs.Context.Union
import AdaptiveLL.Proofs.Guards.Evaluation
import AdaptiveLL.Proofs.Prediction.Labels

/-!
# Sets of configurations and the order of insertion

A set of a parser that configurations are added to one by one has one configuration for each state,
alternative and guard among them, which unites all that were added at this place: their contexts are merged,
the depth is the greatest, and one that is exempt from the filter makes it exempt (`filter_gather`). As
merging contexts is commutative and associative, neither the order in which configurations are added nor the
order in which they stand in the set shows in the key of the set or in anything else that predictions read
off it (`gather_perm`), and the automaton registers the same state for it.
-/

set_option autoImplicit false

namespace AdaptiveLL

/-! ## Configurations at one place -/

namespace Config

variable {full : Bool} {a b c d x : Config} {l : List Config}

theorem agrees_iff : a.agrees b = true ↔ a.state = b.state ∧ a.alt = b.alt ∧ a.guard = b.guard := by
  simp [agrees, and_assoc]

theorem agrees_self (a : Config) : a.agrees a = true := agrees_iff.2 ⟨rfl, rfl, rfl⟩

/-- Configurations at the place of a third one are at one place. -/
theorem agrees_of_place (placeA : a.agrees x = true) (placeB : b.agrees x = true) : a.agrees b = true := by
  rw [agrees_iff] at placeA placeB ⊢
  exact ⟨placeA.1.trans placeB.1.symm, placeA.2.1.trans placeB.2.1.symm, placeA.2.2.trans placeB.2.2.symm⟩

/-- Configurations at one place agree with the same others. -/
theorem agrees_congr_left (same : a.agrees b = true) (c : Config) : a.agrees c = b.agrees c := by
  rw [agrees_iff] at same
  simp only [agrees, same]

/-- A configuration together with another one at its place. -/
def unite (full : Bool) (c d : Config) : Config := c.absorb d (Context.merge (!full) c.context d.context)

@[simp]
theorem unite_agrees (full : Bool) (c d x : Config) : (c.unite full d).agrees x = c.agrees x := rfl

/-- The configuration that stands for all those of one place: their contexts are merged, the depth is the
greatest, and it is exempt from the filter if one of them is. -/
def united (full : Bool) : List Config → Option Config
  | [] => none
  | c :: rest => some { c with
      context := (rest.map (·.context)).foldl (Context.merge (!full)) c.context
      outerDepth := (rest.map (·.outerDepth)).foldl max c.outerDepth
      filterSuppressed := c.filterSuppressed || rest.any (·.filterSuppressed) }

/-- One more configuration is united with what stands for the others. -/
def uniteWith (full : Bool) (acc : Option Config) (c : Config) : Option Config :=
  some (acc.elim c fun e => e.unite full c)

theorem united_concat (full : Bool) (l : List Config) (c : Config) :
    united full (l ++ [c]) = uniteWith full (united full l) c := by
  cases l with
  | nil => simp [united, uniteWith]
  | cons d rest => simp [united, uniteWith, unite, absorb, List.foldl_append, Bool.or_assoc]

theorem united_eq_foldl (full : Bool) (l : List Config) : united full l = l.foldl (uniteWith full) none := by
  induction l using List.reverseRecOn with
  | nil => rfl
  | append_singleton l c ih => rw [united_concat, ih, List.foldl_append, List.foldl_cons, List.foldl_nil]

/-- A configuration of a parser: its context is well formed, it has an alternative, and nothing in it is for
lexers. -/
structure Parsing (c : Config) : Prop where
  formed : c.context.WellFormed
  valid : 1 ≤ c.alt
  actions : c.actions = []
  greedy : c.nonGreedy = false

theorem Parsing.unite (parsingC : c.Parsing) (parsingD : d.Parsing) : (c.unite full d).Parsing :=
  ⟨parsingC.formed.merge _ parsingD.formed, parsingC.valid, parsingC.actions, parsingC.greedy⟩

theorem parsing_united (parsing : ∀ c ∈ l, c.Parsing) (found : united full l = some d) : d.Parsing := by
  induction l using List.reverseRecOn generalizing d with
  | nil => cases found
  | append_singleton l c ih =>
    rw [united_concat] at found
    cases found
    have parsingC := parsing c (by simp)
    cases before : united full l with
    | none => exact parsingC
    | some e => exact (ih (fun c member => parsing c (by simp [member])) before).unite parsingC

/-- It does not matter which of two configurations at one place came first. -/
theorem unite_comm (parsingC : c.Parsing) (parsingD : d.Parsing) (same : c.agrees d = true) :
    c.unite full d = d.unite full c := by
  obtain ⟨state, alt, guard⟩ := agrees_iff.1 same
  simp only [Config.unite, absorb, Config.mk.injEq]
  exact ⟨state, alt, Context.merge_comm _ _ _ parsingC.formed parsingD.formed, guard, Nat.max_comm ..,
    Bool.or_comm .., parsingC.actions.trans parsingD.actions.symm, parsingC.greedy.trans parsingD.greedy.symm⟩

theorem unite_assoc (parsingA : a.Parsing) (parsingB : b.Parsing) (parsingC : c.Parsing) :
    (a.unite full b).unite full c = a.unite full (b.unite full c) := by
  simp only [Config.unite, absorb, Config.mk.injEq, Nat.max_assoc, Bool.or_assoc, true_and, and_true]
  exact Context.merge_assoc _ _ _ _ parsingA.formed parsingB.formed parsingC.formed

/-- What stands for the configurations of one place does not depend on their order. -/
theorem united_perm {l' : List Config} (perm : l.Perm l') (parsing : ∀ c ∈ l, c.Parsing ∧ c.agrees x = true) :
    united full l = united full l' := by
  rw [united_eq_foldl, united_eq_foldl]
  refine foldl_perm (P := fun acc => ∀ e ∈ acc, e.Parsing ∧ e.agrees x = true)
    (Q := fun c => c.Parsing ∧ c.agrees x = true) ?_ ?_ perm nofun parsing
  · rintro acc c before ⟨parsingC, place⟩ e member
    cases acc with
    | none =>
      cases member
      exact ⟨parsingC, place⟩
    | some d =>
      cases member
      obtain ⟨parsingD, place'⟩ := before d rfl
      exact ⟨parsingD.unite parsingC, place'⟩
  · rintro acc c d before ⟨parsingC, place⟩ ⟨parsingD, place'⟩
    have same := agrees_of_place place place'
    cases acc with
    | none => exact congrArg some (unite_comm parsingC parsingD same)
    | some e =>
      have parsingE := (before e rfl).1
      simp only [uniteWith, Option.elim_some]
      rw [unite_assoc parsingE parsingC parsingD, unite_comm parsingC parsingD same,
        unite_assoc parsingE parsingD parsingC]

/-- Adds a configuration to a list that has at most one for each place. -/
def insertInto (full : Bool) (c : Config) : List Config → List Config
  | [] => [c]
  | d :: rest => if d.agrees c then d.unite full c :: rest else d :: insertInto full c rest

theorem insertInto_eq (full : Bool) (c : Config) (l : List Config) :
    insertInto full c l =
      match l.findIdx? (·.agrees c) with
      | some i => l.modify i (·.unite full c)
      | none => l ++ [c] := by
  induction l with
  | nil => rfl
  | cons d rest ih =>
    rw [insertInto, List.findIdx?_cons]
    split
    · rfl
    · rw [ih]
      cases rest.findIdx? (·.agrees c) <;> rfl

/-- The configurations at a place change if the new one belongs there, and else they stay. -/
theorem filter_insertInto (full : Bool) (c x : Config) (l : List Config) :
    (insertInto full c l).filter (·.agrees x) =
      if c.agrees x then insertInto full c (l.filter (·.agrees x)) else l.filter (·.agrees x) := by
  induction l with
  | nil => simp [insertInto, List.filter_cons]
  | cons d rest ih =>
    rw [insertInto]
    by_cases same : d.agrees c = true
    · have place := agrees_congr_left same x
      cases here : c.agrees x <;> simp [same, place, here, insertInto]
    · rw [if_neg same, List.filter_cons, List.filter_cons, ih]
      cases here : d.agrees x with
      | false => rfl
      | true =>
        have other : ¬ c.agrees x = true := fun place => same (agrees_of_place here place)
        simp only [if_true, if_neg other]

/-- Configurations at one place go on to be united. -/
theorem insertInto_united (full : Bool) (l : List Config) (same : ∀ d ∈ l, d.agrees c = true) :
    insertInto full c (united full l).toList = (united full (l ++ [c])).toList := by
  rw [united_concat]
  cases l with
  | nil => rfl
  | cons d rest =>
    have place : d.agrees c = true := same d List.mem_cons_self
    rw [united, Option.toList_some, insertInto]
    exact if_pos place

end Config

/-! ## Adding configurations one by one -/

namespace ConfigSet

variable {full : Bool} {s : ConfigSet} {c x : Config} {l : List Config}

/-- To add a configuration to a set of a parser is to add it to the list of its configurations. -/
theorem insert_eq (unordered : s.ordered = false) (c : Config) :
    s.insert c =
      { s.note c with configs := (Config.insertInto s.fullContext c s.configs.toList).toArray } := by
  obtain ⟨⟨cs⟩, ordered, full⟩ := s
  obtain rfl : ordered = false := unordered
  rw [Config.insertInto_eq]
  simp only [insert, note, Bool.false_eq_true, if_false, place?, List.findIdx?_toArray]
  cases found : cs.findIdx? (·.agrees c) with
  | none => simp [push]
  | some i =>
    -- the context that is merged is that of the configuration at the place
    have place : cs.modify i (·.unite full c) = cs.modify i (·.absorb c
        (Context.merge (!full) ((cs[i]?.map (·.context)).getD .empty) c.context)) := by
      refine List.ext_getElem? fun j => ?_
      rw [List.getElem?_modify, List.getElem?_modify]
      split
      · rename_i here
        subst here
        cases cs[i]? <;> rfl
      · rfl
    simp [absorbAt, contextAt, place]

/-- The set of a parser after configurations were added one by one. -/
def gather (full : Bool) (l : List Config) : ConfigSet := l.foldl insert (ofParser full)

theorem gather_concat (full : Bool) (l : List Config) (c : Config) :
    gather full (l ++ [c]) = (gather full l).insert c := by
  rw [gather, List.foldl_append]
  rfl

/-- What the set says of itself, apart from its configurations. -/
theorem gather_header (full : Bool) (l : List Config) :
    (gather full l).ordered = false ∧ (gather full l).fullContext = full ∧
      (gather full l).hasGuards = l.any (fun c => !c.guard.isAlways) ∧
      (gather full l).dipsIntoOuter = l.any (fun c => decide (c.outerDepth > 0)) := by
  induction l using List.reverseRecOn with
  | nil => exact ⟨rfl, rfl, rfl, rfl⟩
  | append_singleton l c ih =>
    obtain ⟨unordered, kind, guards, dips⟩ := ih
    rw [gather_concat, insert_eq unordered, List.any_append, List.any_append, ← guards, ← dips]
    simp [note, unordered, kind]

/-- The set has one configuration for each place of the list, which unites all those at the place. -/
theorem filter_gather (full : Bool) (l : List Config) (x : Config) :
    (gather full l).configs.toList.filter (·.agrees x) =
      (Config.united full (l.filter (·.agrees x))).toList := by
  induction l using List.reverseRecOn with
  | nil => rfl
  | append_singleton l c ih =>
    obtain ⟨unordered, kind, -⟩ := gather_header full l
    rw [gather_concat, insert_eq unordered, kind, List.filter_append]
    simp only [Config.filter_insertInto, ih]
    cases place : c.agrees x with
    | false => simp [place]
    | true =>
      have same : ∀ d ∈ l.filter (·.agrees x), d.agrees c = true := fun d member =>
        Config.agrees_of_place (List.mem_filter.1 member).2 place
      simp [place, Config.insertInto_united full _ same]

/-- There is at most one configuration at a place. -/
theorem eq_of_agrees {a b : Config} (memberA : a ∈ (gather full l).configs.toList)
    (memberB : b ∈ (gather full l).configs.toList) (same : a.agrees b = true) : a = b := by
  have placeA : a ∈ (gather full l).configs.toList.filter (·.agrees b) := List.mem_filter.2 ⟨memberA, same⟩
  have placeB : b ∈ (gather full l).configs.toList.filter (·.agrees b) :=
    List.mem_filter.2 ⟨memberB, Config.agrees_self b⟩
  rw [filter_gather, Option.mem_toList] at placeA placeB
  exact Option.some.inj (placeA.symm.trans placeB)

theorem parsing_gather (parsing : ∀ c ∈ l, c.Parsing) {d : Config}
    (member : d ∈ (gather full l).configs.toList) : d.Parsing := by
  have place : d ∈ (gather full l).configs.toList.filter (·.agrees d) :=
    List.mem_filter.2 ⟨member, Config.agrees_self d⟩
  rw [filter_gather, Option.mem_toList] at place
  exact Config.parsing_united (fun c member => parsing c (List.mem_filter.1 member).1) place

/-! ## Any order of insertion -/

variable {l' : List Config}

/-- Sets that were made in different orders have the same configurations. -/
theorem configs_perm (full : Bool) (perm : l.Perm l') (parsing : ∀ c ∈ l, c.Parsing) :
    (gather full l).configs.toList.Perm (gather full l').configs.toList := by
  refine List.perm_iff_count.2 fun x => ?_
  have count (l : List Config) : (gather full l).configs.toList.count x =
      (Config.united full (l.filter (·.agrees x))).toList.count x := by
    rw [← filter_gather]
    symm
    apply List.count_filter
    exact Config.agrees_self x
  rw [count, count, Config.united_perm (perm.filter _) fun c member =>
    ⟨parsing c (List.mem_filter.1 member).1, (List.mem_filter.1 member).2⟩]

end ConfigSet

namespace Config

open Std (OrientedCmp TransCmp)

/-- The order of configurations in a key. -/
def order (a b : Config) : Ordering :=
  (compare a.state b.state).then ((compare a.alt b.alt).then (Guard.order a.guard b.guard))

theorem order_eq_swap (a b : Config) : order a b = (order b a).swap := by
  simp only [order, Ordering.swap_then]
  exact congrArg₂ _ OrientedCmp.eq_swap (congrArg₂ _ OrientedCmp.eq_swap OrientedCmp.eq_swap)

theorem order_isLE_trans {a b c : Config} (first : (order a b).isLE) (second : (order b c).isLE) :
    (order a c).isLE :=
  Guard.compare_then_isLE_trans (Guard.compare_then_isLE_trans Guard.order_isLE_trans) first second

instance : TransCmp order where
  eq_swap {a b} := order_eq_swap a b
  isLE_trans := order_isLE_trans

theorem agrees_of_order {a b : Config} (tie : order a b = .eq) : a.agrees b = true := by
  simp only [order, Ordering.then_eq_eq, Std.LawfulEqCmp.compare_eq_iff_eq] at tie
  exact agrees_iff.2 tie

end Config

namespace ConfigSet

variable {full : Bool} {l l' : List Config}

theorem mergeSort_sorted (cs : List Config) :
    (cs.mergeSort Config.precedes).Pairwise (fun a b => (Config.order a b).isLE) := by
  apply List.pairwise_mergeSort
  · exact fun a b c => Config.order_isLE_trans
  · intro a b
    show (Config.order a b).isLE || (Config.order b a).isLE
    rw [Config.order_eq_swap b a]
    cases Config.order a b <;> rfl

/-- The key does not depend on the order of insertion. -/
theorem key_perm (full : Bool) (perm : l.Perm l') (parsing : ∀ c ∈ l, c.Parsing) :
    (gather full l).key = (gather full l').key := by
  rw [key, if_neg (by simp [(gather_header full l).1]), key, if_neg (by simp [(gather_header full l').1])]
  have same := configs_perm full perm parsing
  have perm' := (List.mergeSort_perm (gather full l).configs.toList Config.precedes).trans
    (same.trans (List.mergeSort_perm (gather full l').configs.toList Config.precedes).symm)
  refine List.Perm.eq_of_pairwise (fun a b memberA memberB first second => ?_) (mergeSort_sorted _)
    (mergeSort_sorted _) perm'
  have memberA := (List.mergeSort_perm _ _).mem_iff.1 memberA
  have memberB := same.mem_iff.2 ((List.mergeSort_perm _ _).mem_iff.1 memberB)
  have tie : Config.order a b = .eq := by
    rw [Config.order_eq_swap] at second
    cases decided : Config.order a b <;> simp_all
  exact eq_of_agrees memberA memberB (Config.agrees_of_order tie)

theorem sharedAltFrom_eq_iff {a b : Nat} (valid : b ≠ invalidAlt) (present : a ≠ invalidAlt)
    (cs : List Config) : sharedAltFrom b cs = a ↔ b = a ∧ ∀ c ∈ cs, c.alt = a := by
  induction cs with
  | nil => simp [sharedAltFrom]
  | cons c cs ih =>
    rw [sharedAltFrom, if_neg valid, List.forall_mem_cons]
    split
    · rename_i other
      constructor
      · exact fun same => absurd same.symm present
      · rintro ⟨rfl, here, -⟩
        exact absurd here other
    · rename_i same
      rw [ih]
      have same := not_not.1 same
      subst same
      exact ⟨fun both => ⟨both.1, both⟩, And.right⟩

/-- The alternative of a set is the one that all its configurations have. -/
theorem sharedAlt_eq_iff {s : ConfigSet} (valid : ∀ c ∈ s.configs.toList, 1 ≤ c.alt) {a : Nat}
    (present : a ≠ invalidAlt) :
    s.sharedAlt = a ↔ s.configs.toList ≠ [] ∧ ∀ c ∈ s.configs.toList, c.alt = a := by
  unfold sharedAlt
  cases configs : s.configs.toList with
  | nil => exact ⟨fun same => absurd same.symm present, fun both => absurd rfl both.1⟩
  | cons c cs =>
    rw [configs] at valid
    have first : c.alt ≠ invalidAlt := Nat.ne_of_gt (valid c List.mem_cons_self)
    rw [sharedAltFrom, if_pos rfl, sharedAltFrom_eq_iff first present, List.forall_mem_cons]
    simp

/-- Sets with the same configurations in some order share the same alternative. -/
theorem sharedAlt_congr {s s' : ConfigSet} (same : s.configs.toList.Perm s'.configs.toList)
    (valid : ∀ c ∈ s.configs.toList, 1 ≤ c.alt) : s.sharedAlt = s'.sharedAlt := by
  have valid' : ∀ c ∈ s'.configs.toList, 1 ≤ c.alt := fun c member => valid c (same.mem_iff.2 member)
  have iff {a : Nat} (present : a ≠ invalidAlt) : s.sharedAlt = a ↔ s'.sharedAlt = a := by
    rw [sharedAlt_eq_iff valid present, sharedAlt_eq_iff valid' present]
    simp only [ne_eq, same.mem_iff, ← List.length_eq_zero_iff, same.length_eq]
  by_cases present : s.sharedAlt = invalidAlt
  · by_contra differ
    exact differ ((iff fun absent => differ (present.trans absent.symm)).2 rfl)
  · exact ((iff present).1 rfl).symm

theorem alts_congr {s s' : ConfigSet} (same : s.configs.toList.Perm s'.configs.toList) : s.alts = s'.alts := by
  obtain ⟨ascends, members⟩ := AltSet.ofList_spec (s.configs.toList.map (·.alt))
  obtain ⟨ascends', members'⟩ := AltSet.ofList_spec (s'.configs.toList.map (·.alt))
  have equal := List.Pairwise.eq_of_mem_iff ascends ascends' fun a => by
    rw [members, members', (same.map _).mem_iff]
  exact congrArg AltSet.mk equal

/-- Contexts that are well formed are kept as they are. -/
theorem intern_gather (parsing : ∀ c ∈ l, c.Parsing) (table : Context.Table) :
    ((gather full l).intern table).1 = gather full l :=
  intern_of_kept (fun _ member t =>
    Context.Table.intern_eq (parsing_gather parsing (Array.mem_toList_iff.2 member)).formed t) table

end ConfigSet

/-! ## Registering sets -/

namespace Dfa

variable {d : Dfa} {q q' : DfaState}

/-- A state that was registered is found again. -/
theorem find?_addState (kept : ∀ table, (q.configs.intern table).1 = q.configs) (table : Context.Table) :
    (d.addState q table).2.1.find? q.configs.identity = some (d.addState q table).1 := by
  cases found : d.find? q.configs.identity with
  | some n =>
    obtain ⟨number, same⟩ := addState_known found table
    rw [number, same, found]
  | none =>
    obtain ⟨number, same⟩ := addState_unknown found (kept table)
    rw [number, same]
    unfold find? at found ⊢
    simp [Array.findIdx?_push, found]

/-- States whose configurations have the same identity are one state of the automaton. -/
theorem addState_same (same : q'.configs.identity = q.configs.identity)
    (kept : ∀ table, (q.configs.intern table).1 = q.configs)
    (kept' : ∀ table, (q'.configs.intern table).1 = q'.configs) (table table' : Context.Table) :
    (d.addState q' table').1 = (d.addState q table).1 ∧
      ((d.addState q table).2.1.addState q' table').1 = (d.addState q table).1 ∧
      ((d.addState q table).2.1.addState q' table').2.1 = (d.addState q table).2.1 := by
  refine ⟨?_, addState_known (same ▸ find?_addState kept table) table'⟩
  cases found : d.find? q.configs.identity with
  | some n => rw [(addState_known found table).1, (addState_known (same ▸ found) table').1]
  | none =>
    rw [(addState_unknown found (kept table)).1, (addState_unknown (same ▸ found) (kept' table')).1]

end Dfa

namespace ConfigSet

variable {full : Bool} {l : List Config}

/-- **Order of insertion.** A set of a parser to which configurations were added one by one has exactly one
for each state, alternative and guard among them, which unites all that were added at this place. In
whatever order they were added, the set has the same key, alternatives and marks, and any automaton
registers the same state for it. -/
theorem gather_perm (parsing : ∀ c ∈ l, c.Parsing) :
    (∀ x, (gather full l).configs.toList.filter (·.agrees x) =
      (Config.united full (l.filter (·.agrees x))).toList) ∧
    ∀ l', l.Perm l' →
      ((gather full l').key = (gather full l).key ∧ (gather full l').alts = (gather full l).alts ∧
        (gather full l').sharedAlt = (gather full l).sharedAlt ∧
        (gather full l').hasGuards = (gather full l).hasGuards ∧
        (gather full l').dipsIntoOuter = (gather full l).dipsIntoOuter) ∧
      ∀ (d : Dfa) (q q' : DfaState) (table table' : Context.Table),
        q.configs = gather full l → q'.configs = gather full l' →
          (d.addState q' table').1 = (d.addState q table).1 ∧
          ((d.addState q table).2.1.addState q' table').1 = (d.addState q table).1 ∧
          ((d.addState q table).2.1.addState q' table').2.1 = (d.addState q table).2.1 := by
  refine ⟨filter_gather full l, fun l' perm => ?_⟩
  have parsing' : ∀ c ∈ l', c.Parsing := fun c member => parsing c (perm.mem_iff.2 member)
  have configs := configs_perm full perm parsing
  have key := key_perm full perm parsing
  obtain ⟨-, -, guards, dips⟩ := gather_header full l
  obtain ⟨-, -, guards', dips'⟩ := gather_header full l'
  refine ⟨⟨key.symm, (alts_congr configs).symm,
    (sharedAlt_congr configs fun c member => (parsing_gather parsing member).valid).symm, ?_, ?_⟩,
    fun d q q' table table' isGathered isGathered' => ?_⟩
  · rw [guards, guards', perm.any_eq]
  · rw [dips, dips', perm.any_eq]
  · refine Dfa.addState_same ?_ (fun table => ?_) (fun table => ?_) table table'
    · rw [isGathered, isGathered', identity, identity, key]
    · rw [isGathered, intern_gather parsing]
    · rw [isGathered', intern_gather parsing']

/-- Four configurations of which the first and the last share a place, and another order of them. -/
theorem gather_perm_shared :
    let a : Config := { state := 3, alt := 1, context := Context.empty.push 10, outerDepth := 1 }
    let b : Config := { state := 3, alt := 2, guard := .predicate 0 0 false }
    let c : Config := { state := 4, alt := 1, context := Context.empty.push 11 }
    let d : Config := { state := 3, alt := 1, context := Context.empty.push 11, filterSuppressed := true }
    let s := gather true [a, b, c, d]
    let s' := gather true [d, c, a, b]
    (∀ x ∈ [a, b, c, d], x.Parsing) ∧ [a, b, c, d].Perm [d, c, a, b] ∧
    s.configs.toList.filter (·.agrees a) = [{ a with
      context := Context.merge false (Context.empty.push 10) (Context.empty.push 11)
      filterSuppressed := true }] ∧
    s'.key = s.key ∧ s'.alts = s.alts ∧ s'.sharedAlt = s.sharedAlt ∧ s'.hasGuards = s.hasGuards ∧
    s'.dipsIntoOuter = s.dipsIntoOuter ∧
    ((({ decision := 0, networkState := 0, width := 4, precedence := false } : Dfa).addState
      (DfaState.ofConfigs s 4) {}).2.1.addState (DfaState.ofConfigs s' 4) {}).1 =
      (({ decision := 0, networkState := 0, width := 4, precedence := false } : Dfa).addState
        (DfaState.ofConfigs s 4) {}).1 := by
  intro a b c d s s'
  have formed (n : Nat) : (Context.empty.push n).WellFormed :=
    Context.wellFormed_empty.push Context.empty_ne_nil n
  have parsing : ∀ x ∈ [a, b, c, d], x.Parsing := by
    simp only [List.forall_mem_cons, List.not_mem_nil, false_imp_iff, implies_true, and_true]
    exact ⟨⟨formed 10, by decide, rfl, rfl⟩, ⟨Context.wellFormed_empty, by decide, rfl, rfl⟩,
      ⟨formed 11, by decide, rfl, rfl⟩, ⟨formed 11, by decide, rfl, rfl⟩⟩
  have perm : [a, b, c, d].Perm [d, c, a, b] :=
    (List.perm_append_comm : ([a, b] ++ [c, d]).Perm ([c, d] ++ [a, b])).trans (.swap d c [a, b])
  obtain ⟨places, order⟩ := @gather_perm true _ parsing
  obtain ⟨⟨key, alts, shared, guards, dips⟩, states⟩ := order _ perm
  refine ⟨parsing, perm, ?_, key, alts, shared, guards, dips, (states _ _ _ {} {} rfl rfl).2.1⟩
  rw [places]
  rfl

end ConfigSet

end AdaptiveLL
