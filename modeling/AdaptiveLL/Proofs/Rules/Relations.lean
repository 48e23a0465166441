import AdaptiveLL.Proofs.Grammar.Built
import AdaptiveLL.Proofs.Prediction.Alternatives
import AdaptiveLL.Rules.Relation

/-!
# Callers and callees, directly or not

A rule calls another if one of its states has a call of it (`Network.RuleCalls`). The tables of a relation
between rules list these calls from both sides (`compile_tabulates`), and widening a set of rules until
nothing is added makes of it the rules that are reached from it (`Saturates.members`).

The rounds of widening are counted down, which nothing in their description asks for. `Saturates` is the
same without a count, and since each round but the last adds a rule the count never runs out
(`saturate_saturates`). So the ancestors and descendants of a rule are those of the transitive closure
(`Tabulates.closure`).
-/

set_option autoImplicit false

namespace AdaptiveLL

namespace AltSet

variable {s t : AltSet}

theorem Ascends.nodup (ascends : s.Ascends) : s.members.Nodup := ascends.imp fun less => Nat.ne_of_lt less

/-- A set within another that has no more members is that set. -/
theorem Ascends.eq_of_size (ascendsS : s.Ascends) (ascendsT : t.Ascends)
    (within : ∀ a ∈ s.members, a ∈ t.members) (size : t.size ≤ s.size) : s = t := by
  have perm : s.members.Perm t.members := (ascendsS.nodup.subperm within).perm_of_length_le size
  exact Ascends.ext ascendsS ascendsT fun a => perm.mem_iff

theorem Ascends.size_le {n : Nat} (ascends : s.Ascends) (below : ∀ a ∈ s.members, a < n) : s.size ≤ n := by
  have within : s.members ⊆ List.range n := fun a member => List.mem_range.2 (below a member)
  exact (ascends.nodup.subperm within).length_le.trans_eq List.length_range

theorem Ascends.size_lt (ascends : s.Ascends)
    (within : ∀ a ∈ s.members, a ∈ t.members) (differ : t.size ≠ s.size) : s.size < t.size := by
  have le : s.size ≤ t.size := (ascends.nodup.subperm within).length_le
  exact Nat.lt_of_le_of_ne le differ.symm

end AltSet

/-- A state of one rule calls the other rule. -/
def Network.RuleCalls (net : Network) (r s : Nat) : Prop :=
  ∃ n, (net.state n).rule = some r ∧ ∃ t ∈ net.out n, ∃ p follow, t.label = .rule s p follow

namespace RuleRelation

open Relation (ReflTransGen TransGen)

variable {related : Array AltSet} {rules final final' : AltSet} {size r s : Nat} {R : Nat → Nat → Prop}

/-! ## Widening -/

/-- The table lists the second rule for the first. -/
def Lists (related : Array AltSet) (r s : Nat) : Prop := s ∈ (related.getD r .empty).members

theorem widen_spec (related : Array AltSet) (ascends : rules.Ascends) : (widen related rules).Ascends ∧
    ∀ s, s ∈ (widen related rules).members ↔ s ∈ rules.members ∨ ∃ r ∈ rules.members, Lists related r s := by
  have fold (rs : List Nat) (acc : AltSet) (ascends : acc.Ascends) :
      (rs.foldl (fun acc r => acc.union (related.getD r .empty)) acc).Ascends ∧
        ∀ s, s ∈ (rs.foldl (fun acc r => acc.union (related.getD r .empty)) acc).members ↔
          s ∈ acc.members ∨ ∃ r ∈ rs, Lists related r s := by
    induction rs generalizing acc with
    | nil => exact ⟨ascends, fun s => by simp⟩
    | cons r rs ih =>
      obtain ⟨joined, members⟩ := AltSet.union_spec (t := related.getD r .empty) ascends
      obtain ⟨ascends', members'⟩ := ih _ joined
      refine ⟨ascends', fun s => (members' s).trans ?_⟩
      rw [members, or_assoc]
      simp [Lists]
  exact fold rules.members rules ascends

/-- Widening, as often as something is added. -/
inductive Saturates (related : Array AltSet) : AltSet → AltSet → Prop
  | done {rules : AltSet} (still : (widen related rules).size = rules.size) : Saturates related rules rules
  | round {rules final : AltSet} (grows : (widen related rules).size ≠ rules.size)
      (later : Saturates related (widen related rules) final) : Saturates related rules final

theorem Saturates.unique (first : Saturates related rules final) (second : Saturates related rules final') :
    final = final' := by
  induction first with
  | done still =>
    cases second with
    | done => rfl
    | round grows => exact absurd still grows
  | round grows _ ih =>
    cases second with
    | done still => exact absurd still grows
    | round _ later => exact ih later

/-- What is left when nothing is added any more is what the rules lead to. -/
theorem Saturates.members (saturates : Saturates related rules final) (ascends : rules.Ascends) :
    final.Ascends ∧ ∀ s, s ∈ final.members ↔ ∃ r ∈ rules.members, ReflTransGen (Lists related) r s := by
  induction saturates with
  | @done rules still =>
    obtain ⟨wider, members⟩ := widen_spec related ascends
    have same : rules = widen related rules :=
      ascends.eq_of_size wider (fun s member => (members s).2 (.inl member)) (Nat.le_of_eq still)
    have closed : ∀ r ∈ rules.members, ∀ s, Lists related r s → s ∈ rules.members := by
      intro r member s lists
      rw [same]
      exact (members s).2 (.inr ⟨r, member, lists⟩)
    refine ⟨ascends, fun s => ⟨fun member => ⟨s, member, .refl⟩, ?_⟩⟩
    rintro ⟨r, member, path⟩
    induction path with
    | refl => exact member
    | tail _ lists ih => exact closed _ ih _ lists
  | @round rules final grows later ih =>
    obtain ⟨wider, members⟩ := widen_spec related ascends
    obtain ⟨ascends', members'⟩ := ih wider
    refine ⟨ascends', fun s => (members' s).trans ⟨?_, ?_⟩⟩
    · rintro ⟨q, member, path⟩
      rcases (members q).1 member with old | ⟨r, old, lists⟩
      · exact ⟨q, old, path⟩
      · exact ⟨r, old, .head lists path⟩
    · rintro ⟨r, member, path⟩
      exact ⟨r, (members r).2 (.inl member), path⟩

/-- Each round but the last adds a rule, and there are no more rules than the table has places. -/
theorem saturate_saturates (inside : ∀ r s, Lists related r s → s < related.size) {rounds : Nat}
    (ascends : rules.Ascends) (below : ∀ r ∈ rules.members, r < related.size)
    (enough : related.size < rounds + rules.size) :
    Saturates related rules (saturate related rounds rules) := by
  induction rounds generalizing rules with
  | zero =>
    have few : rules.size ≤ related.size := ascends.size_le below
    omega
  | succ rounds ih =>
    obtain ⟨wider, members⟩ := widen_spec related ascends
    rw [saturate]
    by_cases still : (widen related rules).size = rules.size
    · rw [if_pos still]
      exact .done still
    · have more : rules.size < (widen related rules).size :=
        ascends.size_lt (fun s member => (members s).2 (.inl member)) still
      rw [if_neg still]
      apply Saturates.round still
      apply ih wider
      · intro s member
        rcases (members s).1 member with old | ⟨r, -, lists⟩
        · exact below s old
        · exact inside r s lists
      · omega

/-! ## Tables -/

/-- The table lists for each rule those that are in a relation to it. -/
structure Tabulates (related : Array AltSet) (size : Nat) (R : Nat → Nat → Prop) : Prop where
  places : related.size = size
  ascends : ∀ r, (related.getD r .empty).Ascends
  lists : ∀ r s, Lists related r s ↔ R r s

theorem tabulates_empty (size : Nat) : Tabulates (.replicate size .empty) size fun _ _ => False := by
  have none (r : Nat) : (Array.replicate size AltSet.empty).getD r .empty = .empty := by
    rw [Array.getD_eq_getD_getElem?, Array.getElem?_replicate]
    split <;> rfl
  refine ⟨Array.size_replicate, fun r => ?_, fun r s => ?_⟩
  · rw [none]
    exact List.Pairwise.nil
  · rw [Lists, none]
    exact List.mem_nil_iff s

theorem Tabulates.insert (tabulates : Tabulates related size R) {i j : Nat} (known : i < size) :
    Tabulates (related.modify i (·.insert j)) size fun r s => R r s ∨ r = i ∧ s = j := by
  have known' : i < related.size := by rw [tabulates.places]; exact known
  have entry (r : Nat) : (related.modify i (·.insert j)).getD r .empty =
      if r = i then (related.getD r .empty).insert j else related.getD r .empty := by
    simp only [Array.getD_eq_getD_getElem?, Array.getElem?_modify]
    by_cases same : r = i
    · subst same
      simp [Array.getElem?_eq_getElem known']
    · simp [same, Ne.symm same]
  refine ⟨by rw [Array.size_modify, tabulates.places], fun r => ?_, fun r s => ?_⟩
  · rw [entry]
    split
    · exact (tabulates.ascends r).insert j
    · exact tabulates.ascends r
  · rw [Lists, entry, ← tabulates.lists]
    split
    · next same =>
      rw [AltSet.insert, AltSet.mem_insertAscending, or_comm]
      simp [Lists, same]
    · next other => simp [Lists, other]

/-- Calls that are entered one after the other are listed from both sides. -/
theorem tabulates_calls {calls : List (Nat × Nat)} (known : ∀ c ∈ calls, c.1 < size ∧ c.2 < size) :
    Tabulates (calls.foldl (fun rel c => rel.add c.1 c.2) (empty size)).children size
        (fun r s => (r, s) ∈ calls) ∧
      Tabulates (calls.foldl (fun rel c => rel.add c.1 c.2) (empty size)).parents size
        (fun r s => (s, r) ∈ calls) := by
  induction calls using List.reverseRecOn with
  | nil =>
    simp only [List.not_mem_nil]
    exact ⟨tabulates_empty size, tabulates_empty size⟩
  | append_singleton calls c ih =>
    obtain ⟨children, parents⟩ := ih fun d member => known d (List.mem_append_left _ member)
    obtain ⟨caller, callee⟩ := known c (by simp)
    have listed (r s : Nat) : (r, s) ∈ calls ++ [c] ↔ (r, s) ∈ calls ∨ r = c.1 ∧ s = c.2 := by
      rw [List.mem_append, List.mem_singleton, Prod.ext_iff]
    rw [List.foldl_append]
    simp only [listed]
    refine ⟨children.insert caller, ?_⟩
    simp only [and_comm (b := _ = c.2)]
    exact parents.insert callee

/-- The closure of a table of a relation is the table of its transitive closure. -/
theorem Tabulates.closure (tabulates : Tabulates related size R) (inside : ∀ r s, R r s → s < size) (r : Nat) :
    (∀ final, Saturates related (related.getD r .empty) final ↔ final = closure related r) ∧
      ∀ s, s ∈ (closure related r).members ↔ TransGen R r s := by
  have same : Lists related = R := funext fun r => funext fun s => propext (tabulates.lists r s)
  have listed : ∀ r s, Lists related r s → s < related.size := by
    rw [same, tabulates.places]
    exact inside
  have saturates : Saturates related (related.getD r .empty) (RuleRelation.closure related r) := by
    apply saturate_saturates listed (tabulates.ascends r)
    · exact fun s member => listed r s member
    · omega
  constructor
  · intro final
    constructor
    · exact fun other => other.unique saturates
    · rintro rfl
      exact saturates
  · intro s
    rw [(saturates.members (tabulates.ascends r)).2 s, TransGen.head'_iff, same]
    exact exists_congr fun q => and_congr_left fun _ => tabulates.lists r q

end RuleRelation

/-! ## The calls of a compiled grammar -/

namespace Network

variable {net : Network} {g : Grammar}

theorem lt_size_of_rule {n r : Nat} (owned : (net.state n).rule = some r) : n < net.states.size := by
  by_contra outside
  rw [state_of_le (Nat.not_lt.1 outside)] at owned
  cases owned

/-- A state of a rule belongs to a rule of the grammar. -/
theorem LaidOut.rule_lt (laid : net.LaidOut g) {n r : Nat} (owned : (net.state n).rule = some r) :
    r < g.rules.length := by
  rcases laid.states_cases (lt_size_of_rule owned) with ⟨i, known, rfl | rfl⟩ | ⟨mode, known, rfl⟩ |
    ⟨i, d, seg, lo, hi, found, body, low, high⟩
  · exact Option.some.inj ((laid.startState i known).2.symm.trans owned) ▸ known
  · exact Option.some.inj ((laid.stopState i known).2.1.symm.trans owned) ▸ known
  · cases (laid.modeState mode known).2.1.symm.trans owned
  · exact Option.some.inj ((body.owner n low high).symm.trans owned) ▸ (List.getElem?_eq_some_iff.1 found).1

/-- A calling state has no other way to go on, and calls a rule of the grammar. -/
theorem Built.call_only (built : net.Built g) {n s follow : Nat} {p : Int} {t : Transition}
    (member : t ∈ net.out n) (label : t.label = .rule s p follow) : net.out n = [t] ∧ s < g.rules.length := by
  have move : t.move = .call s t.target follow := by rw [Transition.move, label]
  have among : t.move ∈ net.moves n := List.mem_map_of_mem member
  have notFree : ¬ ∀ move ∈ net.moves n, ∃ m, move = .free m := by
    intro free
    obtain ⟨m, isFree⟩ := free t.move among
    rw [move] at isFree
    cases isFree
  have inner : net.isStop n = false := by
    by_contra stop
    exact notFree (built.returns n (by simpa using stop))
  constructor
  · obtain ⟨only, one⟩ := (built.oneWay n inner).resolve_right notFree
    obtain ⟨t', out, -⟩ := List.map_eq_singleton_iff.1 one
    rw [out, List.mem_singleton] at member
    rw [out, member]
  · rw [move] at among
    exact built.numRules ▸ (built.calls n s t.target follow inner among).1

end Network

namespace Grammar

open RuleRelation

variable {g : Grammar} {compiled : CompiledGrammar} {net : Network} {verify : Bool}

theorem compile_rule_lt (assembled : g.Assembled) (run : g.compile = .ok compiled)
    (decoded : Network.decode compiled.words verify = .ok net) {n r : Nat}
    (owned : (net.state n).rule = some r) : r < g.rules.length := by
  obtain ⟨_, base, -, -, layOut, -, encoded⟩ := compile_steps run
  have laid := layOut_laidOut assembled.moded layOut
  obtain ⟨reread, -⟩ := Network.decode_encode (laid.writable encoded) encoded decoded
  exact laid.rule_lt ((reread.rules.states.rule n).symm.trans owned)

/-- The calls of a state are those of its rule, along its calling transitions. -/
theorem mem_callsOf {state : State} {r s : Nat} : (r, s) ∈ callsOf state ↔
    state.rule = some r ∧ state.epsilonOnly = true ∧
      ∃ t ∈ state.transitions, ∃ p follow, t.label = .rule s p follow := by
  unfold callsOf
  cases state.rule with
  | none => simp
  | some caller =>
    cases state.epsilonOnly with
    | false => simp
    | true =>
      simp only [if_true, List.mem_filterMap, Option.some.injEq, true_and]
      constructor
      · rintro ⟨t, among, isCall⟩
        split at isCall
        · next callee p follow label =>
          cases isCall
          exact ⟨rfl, t, among, p, follow, label⟩
        · cases isCall
      · rintro ⟨rfl, t, among, p, follow, label⟩
        exact ⟨t, among, by rw [label]⟩

/-- The calls that are read off a compiled grammar are its calls, and all are between its rules. -/
theorem compile_calls (assembled : g.Assembled) (run : g.compile = .ok compiled)
    (decoded : Network.decode compiled.words verify = .ok net) :
    (∀ r s, (r, s) ∈ net.states.toList.flatMap callsOf ↔ net.RuleCalls r s) ∧
      ∀ r s, net.RuleCalls r s → r < g.rules.length ∧ s < g.rules.length := by
  obtain ⟨built, epsilonOnly⟩ := compile_built assembled run decoded
  constructor
  · intro r s
    rw [List.mem_flatMap]
    constructor
    · rintro ⟨state, member, call⟩
      obtain ⟨n, inside, rfl⟩ := List.getElem_of_mem member
      rw [Array.getElem_toList, ← Network.state_of_lt] at call
      obtain ⟨owned, -, isCall⟩ := mem_callsOf.1 call
      exact ⟨n, owned, isCall⟩
    · rintro ⟨n, owned, t, member, p, follow, label⟩
      have only := (built.call_only member label).1
      have silent : (net.state n).epsilonOnly = true := by
        rw [epsilonOnly, only]
        simp [label, Label.isEpsilon]
      refine ⟨net.state n, ?_, mem_callsOf.2 ⟨owned, silent, t, member, p, follow, label⟩⟩
      rw [Network.state_of_lt (Network.lt_size_of_rule owned)]
      exact Array.getElem_mem_toList _
  · rintro r s ⟨n, owned, t, member, p, follow, label⟩
    exact ⟨compile_rule_lt assembled run decoded owned, (built.call_only member label).2⟩

/-- The tables of a compiled grammar list its calls from both sides. -/
theorem compile_tabulates (assembled : g.Assembled) (run : g.compile = .ok compiled)
    (decoded : Network.decode compiled.words verify = .ok net) :
    Tabulates (ofNetwork net).children g.rules.length net.RuleCalls ∧
      Tabulates (ofNetwork net).parents g.rules.length fun r s => net.RuleCalls s r := by
  obtain ⟨listed, known⟩ := compile_calls assembled run decoded
  have numRules : net.numRules = g.rules.length := (compile_built assembled run decoded).1.numRules
  have rules : ∀ c ∈ net.states.toList.flatMap callsOf, c.1 < g.rules.length ∧ c.2 < g.rules.length :=
    fun c member => known c.1 c.2 ((listed c.1 c.2).1 member)
  have tabulates := tabulates_calls rules
  simp only [listed] at tabulates
  rw [ofNetwork, numRules]
  exact tabulates

end Grammar

end AdaptiveLL
