import AdaptiveLL.Proofs.Rules.Relations
import AdaptiveLL.Rules.Dependency
import Mathlib.Order.Bounds.Basic

/-!
# What the check of dependencies decides

A dependency is as it should be if it names a rule, if all relations that it lists can be checked, and if
its version is the greatest among those of the rule and of the rules in these relations
(`RuleDependency.Right`). The check compares the version with those of the covered rules one by one, each
only once, and with the highest of them; nothing is found exactly if the dependency is right
(`findings_eq_nil_iff`).

For a compiled grammar the relations are those of its calls and the two directions of their transitive
closure, so the check decides what the dependencies say about the grammar (`check_decides`).
-/

set_option autoImplicit false

namespace AdaptiveLL

open Relation (TransGen)
open RuleRelation (Saturates)

/-- The relation of a rule to the others that dependents stand for. -/
def Dependents.Relates (net : Network) (r s : Nat) : Dependents → Prop
  | .self => s = r
  | .parents => net.RuleCalls s r
  | .children => net.RuleCalls r s
  | .ancestors => TransGen net.RuleCalls s r
  | .descendants => TransGen net.RuleCalls r s
  | _ => False

namespace RuleDependency

variable {net : Network} {info : GrammarInfo} {rel : RuleRelation} {d : RuleDependency} {s : Nat}

/-- The rule itself, or one in a relation that the dependency lists. -/
def Covers (d : RuleDependency) (net : Network) (s : Nat) : Prop :=
  s = d.rule ∨ ∃ k ∈ d.dependents, k.Relates net d.rule s

theorem covers_iff : d.Covers net s ↔ s = d.rule ∨ .parents ∈ d.dependents ∧ net.RuleCalls s d.rule ∨
    .children ∈ d.dependents ∧ net.RuleCalls d.rule s ∨
    .ancestors ∈ d.dependents ∧ TransGen net.RuleCalls s d.rule ∨
    .descendants ∈ d.dependents ∧ TransGen net.RuleCalls d.rule s := by
  apply or_congr_right'
  intro other
  constructor
  · rintro ⟨k, member, relates⟩
    cases k with
    | self => exact absurd relates other
    | parents => exact .inl ⟨member, relates⟩
    | children => exact .inr (.inl ⟨member, relates⟩)
    | ancestors => exact .inr (.inr (.inl ⟨member, relates⟩))
    | descendants => exact .inr (.inr (.inr ⟨member, relates⟩))
    | _ => exact relates.elim
  · rintro (⟨member, relates⟩ | ⟨member, relates⟩ | ⟨member, relates⟩ | ⟨member, relates⟩) <;>
      exact ⟨_, member, relates⟩

/-- The dependency is about a rule of the grammar, and its version is the highest of all that it covers. -/
structure Right (d : RuleDependency) (net : Network) (info : GrammarInfo) : Prop where
  known : d.rule < info.ruleNames.length
  checked : ∀ k ∈ d.dependents, k.isChecked = true
  version : IsGreatest {v | ∃ s, d.Covers net s ∧ info.ruleVersion s = v} d.version

/-! ## The covered rules -/

/-- Taking each rule only once loses none. -/
theorem mem_firsts (named acc : List (Nat × String)) :
    s ∈ (named.foldl (fun acc r => if acc.any (·.1 == r.1) then acc else acc ++ [r]) acc).map (·.1) ↔
      s ∈ acc.map (·.1) ∨ s ∈ named.map (·.1) := by
  induction named generalizing acc with
  | nil => simp
  | cons r named ih =>
    rw [List.foldl_cons, ih, List.map_cons, List.mem_cons, ← or_assoc]
    apply or_congr_left
    split
    · next seen =>
      obtain ⟨q, member, same⟩ := List.any_eq_true.1 seen
      have already : r.1 ∈ acc.map (·.1) := List.mem_map.2 ⟨q, member, beq_iff_eq.1 same⟩
      exact (or_iff_left_of_imp fun isIt => isIt ▸ already).symm
    · rw [List.map_append, List.mem_append, List.map_singleton, List.mem_singleton]

theorem mem_coveredRules : s ∈ (d.coveredRules info rel).map (·.1) ↔ s < info.ruleNames.length ∧
    (.parents ∈ d.dependents ∧ s ∈ (rel.parentsOf d.rule).members ∨
      .children ∈ d.dependents ∧ s ∈ (rel.childrenOf d.rule).members ∨
      .ancestors ∈ d.dependents ∧ s ∈ (rel.ancestorsOf d.rule).members ∨
      .descendants ∈ d.dependents ∧ s ∈ (rel.descendantsOf d.rule).members) := by
  have listed (kind : Dependents) (rules : AltSet) (relation : String) :
      s ∈ (if d.dependents.contains kind then rules.members.map fun r => (r, relation) else []).map (·.1) ↔
        kind ∈ d.dependents ∧ s ∈ rules.members := by
    by_cases among : kind ∈ d.dependents <;> simp [among]
  have known (named : List (Nat × String)) :
      s ∈ (named.filter fun r => r.1 < info.ruleNames.length).map (·.1) ↔
        s < info.ruleNames.length ∧ s ∈ named.map (·.1) := by
    simp only [List.mem_map, List.mem_filter, decide_eq_true_eq]
    constructor
    · rintro ⟨r, ⟨member, inside⟩, rfl⟩
      exact ⟨inside, r, member, rfl⟩
    · rintro ⟨inside, r, member, rfl⟩
      exact ⟨r, ⟨member, inside⟩, rfl⟩
  rw [coveredRules, mem_firsts, known]
  simp only [List.flatMap_cons, List.flatMap_nil, List.append_nil, List.map_append, List.mem_append, listed,
    List.map_nil, List.not_mem_nil, false_or]

/-! ## What is found -/

theorem outdated?_eq_none_iff {path : String} :
    d.outdated? info s path = none ↔ info.ruleVersion s ≤ d.version := by
  rw [outdated?]
  split
  · next higher => simpa using higher
  · next within => simpa using within

/-- The highest of some versions. -/
theorem isGreatest_foldl_max (versions : List Int) (first : Int) :
    IsGreatest {v | v = first ∨ v ∈ versions} (versions.foldl max first) := by
  induction versions generalizing first with
  | nil => exact ⟨.inl rfl, fun v member => Int.le_of_eq (member.resolve_right List.not_mem_nil)⟩
  | cons u versions ih =>
    obtain ⟨among, above⟩ := ih (max first u)
    constructor
    · rcases among with same | later
      · rcases max_choice first u with isFirst | isNext
        · exact .inl (same.trans isFirst)
        · exact .inr (List.mem_cons.2 (.inl (same.trans isNext)))
      · exact .inr (List.mem_cons_of_mem u later)
    · rintro v (rfl | member)
      · exact (le_max_left v u).trans (above (.inl rfl))
      · rcases List.mem_cons.1 member with rfl | later
        · exact (le_max_right first v).trans (above (.inl rfl))
        · exact above (.inr later)

/-- Nothing is found if and only if the dependency is right. Each covered rule is looked at, so none has a
higher version; and the highest version of all is the declared one, so one of them has it. -/
theorem findings_eq_nil_iff
    (covers : ∀ s, d.Covers net s ↔ s = d.rule ∨ s ∈ (d.coveredRules info rel).map (·.1)) :
    d.findings info rel = [] ↔ d.Right net info := by
  by_cases known : d.rule < info.ruleNames.length
  swap
  · rw [findings, if_neg known]
    exact ⟨nofun, fun right => absurd right.known known⟩
  have silent : d.findings info rel = [] ↔ (∀ k ∈ d.dependents, k.isChecked = true) ∧
      info.ruleVersion d.rule ≤ d.version ∧
      (∀ s ∈ (d.coveredRules info rel).map (·.1), info.ruleVersion s ≤ d.version) ∧
      d.version ≤ ((d.coveredRules info rel).map fun r => info.ruleVersion r.1).foldl max
        (info.ruleVersion d.rule) := by
    have unchecked : (d.dependents.filter (!·.isChecked)).isEmpty = true ↔
        ∀ k ∈ d.dependents, k.isChecked = true := by
      simp [List.filter_eq_nil_iff]
    rw [findings, if_pos known]
    simp only [List.append_eq_nil_iff, Option.toList_eq_nil_iff, List.filterMap_eq_nil_iff,
      outdated?_eq_none_iff, ite_eq_left_iff, List.cons_ne_nil, imp_false, not_not, unchecked, gt_iff_lt,
      ite_eq_right_iff, not_lt, List.forall_mem_map, and_assoc]
  have greatest : IsGreatest {v | v = info.ruleVersion d.rule ∨
      v ∈ (d.coveredRules info rel).map fun r => info.ruleVersion r.1} _ := isGreatest_foldl_max _ _
  have versions : {v | ∃ s, d.Covers net s ∧ info.ruleVersion s = v} = {v | v = info.ruleVersion d.rule ∨
      v ∈ (d.coveredRules info rel).map fun r => info.ruleVersion r.1} := by
    ext v
    simp only [covers, Set.mem_ofPred_eq, or_and_right, exists_or, exists_eq_left, List.mem_map,
      eq_comm (a := v), exists_exists_and_eq_and]
  rw [silent]
  constructor
  · rintro ⟨checked, self, related, highest⟩
    refine ⟨known, checked, ?_⟩
    rw [versions]
    have above : ∀ v, v = info.ruleVersion d.rule ∨
        v ∈ ((d.coveredRules info rel).map fun r => info.ruleVersion r.1) → v ≤ d.version := by
      rintro v (rfl | member)
      · exact self
      · obtain ⟨r, covered, rfl⟩ := List.mem_map.1 member
        exact related r.1 (List.mem_map_of_mem covered)
    rw [le_antisymm highest (above _ greatest.1)]
    exact greatest
  · rintro ⟨-, checked, version⟩
    rw [versions] at version
    refine ⟨checked, version.2 (.inl rfl), fun s member => ?_, le_of_eq (version.unique greatest)⟩
    obtain ⟨r, covered, rfl⟩ := List.mem_map.1 member
    exact version.2 (.inr (List.mem_map_of_mem covered))

theorem check_eq_ok_iff (net : Network) (info : GrammarInfo) (deps : List RuleDependency) :
    check net info deps = .ok () ↔ ∀ d ∈ deps, d.findings info (.ofNetwork net) = [] := by
  rw [check]
  split
  · next none =>
    rw [allFindings, List.flatMap_eq_nil_iff] at none
    exact iff_of_true rfl none
  · next some =>
    apply iff_of_false nofun
    intro none
    exact some (by rwa [allFindings, List.flatMap_eq_nil_iff])

end RuleDependency

namespace Grammar

open RuleDependency

variable {g : Grammar} {compiled : CompiledGrammar} {net : Network} {verify : Bool}

theorem compile_info (run : g.compile = .ok compiled) : compiled.info = g.info := by
  unfold Grammar.compile at run
  split at run
  · cases run
  · obtain ⟨_, -, run⟩ := except_bind_ok.1 run
    obtain ⟨_, -, run⟩ := except_bind_ok.1 run
    obtain ⟨_, -, run⟩ := except_bind_ok.1 run
    obtain ⟨_, -, run⟩ := except_bind_ok.1 run
    split at run
    · cases run
      rfl
    · cases run

theorem info_ruleNames (g : Grammar) : g.info.ruleNames = g.rules.map (·.name) := by
  unfold info
  split <;> rfl

/-- The parents of a rule of a compiled grammar are the rules that call it, its children those that it
calls, and its ancestors and descendants those that are so related in one or more steps; these are what
widening ends with when it is repeated as often as something is added. A list of dependencies is accepted
if and only if each is right. -/
theorem check_decides (assembled : g.Assembled) (run : g.compile = .ok compiled)
    (decoded : Network.decode compiled.words verify = .ok net) :
    let rel := RuleRelation.ofNetwork net
    (∀ r < net.numRules,
      (∀ s, s ∈ (rel.parentsOf r).members ↔ net.RuleCalls s r) ∧
      (∀ s, s ∈ (rel.childrenOf r).members ↔ net.RuleCalls r s) ∧
      (∀ final, Saturates rel.parents (rel.parentsOf r) final ↔ final = rel.ancestorsOf r) ∧
      (∀ s, s ∈ (rel.ancestorsOf r).members ↔ TransGen net.RuleCalls s r) ∧
      (∀ final, Saturates rel.children (rel.childrenOf r) final ↔ final = rel.descendantsOf r) ∧
      ∀ s, s ∈ (rel.descendantsOf r).members ↔ TransGen net.RuleCalls r s) ∧
    ∀ deps, check net compiled.info deps = .ok () ↔ ∀ d ∈ deps, d.Right net compiled.info := by
  intro rel
  obtain ⟨-, known⟩ := compile_calls assembled run decoded
  obtain ⟨children, parents⟩ := compile_tabulates assembled run decoded
  have ancestors := parents.closure fun r s call => (known s r call).1
  have descendants := children.closure fun r s call => (known r s call).2
  have swapped (r s : Nat) : TransGen (fun r s => net.RuleCalls s r) r s ↔ TransGen net.RuleCalls s r :=
    Relation.transGen_swap
  have isAncestor (r s : Nat) : s ∈ (rel.ancestorsOf r).members ↔ TransGen net.RuleCalls s r :=
    ((ancestors r).2 s).trans (swapped r s)
  constructor
  · intro r _
    exact ⟨parents.lists r, children.lists r, (ancestors r).1, isAncestor r, descendants r⟩
  · intro deps
    rw [check_eq_ok_iff]
    apply forall₂_congr
    intro d _
    apply findings_eq_nil_iff
    intro s
    have names : compiled.info.ruleNames.length = g.rules.length := by
      rw [compile_info run, info_ruleNames, List.length_map]
    have isParent : s ∈ (rel.parentsOf d.rule).members ↔ net.RuleCalls s d.rule := parents.lists d.rule s
    have isChild : s ∈ (rel.childrenOf d.rule).members ↔ net.RuleCalls d.rule s := children.lists d.rule s
    have isDescendant : s ∈ (rel.descendantsOf d.rule).members ↔ TransGen net.RuleCalls d.rule s :=
      (descendants d.rule).2 s
    rw [covers_iff, mem_coveredRules, isParent, isChild, isAncestor, isDescendant, names]
    apply or_congr_right
    apply (and_iff_right_of_imp ?_).symm
    rintro (⟨-, call⟩ | ⟨-, call⟩ | ⟨-, path⟩ | ⟨-, path⟩)
    · exact (known s d.rule call).1
    · exact (known d.rule s call).2
    · obtain ⟨q, call, -⟩ := TransGen.head'_iff.1 path
      exact (known s q call).1
    · obtain ⟨q, -, call⟩ := TransGen.tail'_iff.1 path
      exact (known q s call).2

/-- Two rules that call each other, the second of version 4, and a rule of version 2 that calls the first. -/
def versionedRules : Grammar :=
  (((((Grammar.parser "Versioned" {}).rule "a" (.alt [.ref "b", .symbol 1])).rule "b"
    (.seq [.ref "a", .symbol 2])).rule "c" (.ref "a")).setVersion "b" 4).setVersion "c" 2

theorem check_decides_versioned : ∃ compiled net, versionedRules.compile = .ok compiled ∧
    Network.decode compiled.words true = .ok net ∧ net.RuleCalls 0 1 ∧ TransGen net.RuleCalls 0 0 ∧
    RuleDependency.Right ⟨2, 4, [.children, .descendants]⟩ net compiled.info ∧
    ¬ RuleDependency.Right ⟨2, 4, [.children]⟩ net compiled.info := by
  have assembled : versionedRules.Assembled :=
    .setVersion "c" 2 (.setVersion "b" 4 (.rule "c" _ (.rule "b" _ (.rule "a" _ (.parser "Versioned" {})))))
  let compiled := (versionedRules.compile.toOption).getD default
  let net := ((Network.decode compiled.words true).toOption).getD default
  have run : versionedRules.compile = .ok compiled := except_ok_getD (by decide +kernel)
  have decoded : Network.decode compiled.words true = .ok net := except_ok_getD (by decide +kernel)
  obtain ⟨relations, decides⟩ := check_decides assembled run decoded
  have known : 0 < net.numRules := by decide +kernel
  obtain ⟨-, children, -, -, -, descendants⟩ := relations 0 known
  refine ⟨compiled, net, run, decoded, (children 1).1 (by decide +kernel),
    (descendants 0).1 (by decide +kernel), ?_, ?_⟩
  · exact (decides [⟨2, 4, [.children, .descendants]⟩]).1 (by decide +kernel) _ List.mem_cons_self
  · intro right
    have accepted := (decides [⟨2, 4, [.children]⟩]).2 fun d member => List.mem_singleton.1 member ▸ right
    revert accepted
    decide +kernel

end Grammar

end AdaptiveLL
