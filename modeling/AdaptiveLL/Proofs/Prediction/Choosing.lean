import AdaptiveLL.Proofs.Guards.Resolution
import AdaptiveLL.Proofs.Prediction.Posing
import AdaptiveLL.Proofs.Prediction.Settling

/-!
# Choosing by guards

The configurations of an alternative may carry different guards, and the alternative may be taken if one of them
holds (`Enabled`). For each alternative of a decision its guards are joined to one (`holds_guardOf`), and where
some of these are open the alternatives are listed with them. Asking the list gives the enabled alternatives, and
if there is no list all of them are enabled (`guardedAlts_enabled`).

A decision that ends in an accepting state takes the least enabled alternative, and fails if there is none
(`accept_least`).
-/

set_option autoImplicit false

namespace AdaptiveLL

open Session

namespace Prediction

variable {η : Type} {env : Env η} {answer : Nat → Nat → Bool} {level : Int} {configs : ConfigSet} {alts : AltSet}
  {count a : Nat}

/-! ## Enabled alternatives -/

/-- A configuration of the alternative has a guard that is found to hold. -/
def Enabled (ev : Guard.Evaluator η) (h : η) (configs : ConfigSet) (a : Nat) : Prop :=
  ∃ c ∈ configs.configs, c.alt = a ∧ (c.guard.eval ev h).1 = true

theorem enabled_iff {ev : Guard.Evaluator η} (steady : ev.Steady answer level) (h : η) :
    Enabled ev h configs a ↔ ∃ c ∈ configs.configs, c.alt = a ∧ c.guard.holds answer level = true := by
  simp only [Enabled, Guard.eval_eq_holds steady]

/-- The guard of an alternative holds if one of its configurations has a guard that holds. -/
theorem holds_guardOf (some' : ∃ c ∈ configs.configs, c.alt = a) :
    (guardOf configs a).holds answer level = true ↔
      ∃ c ∈ configs.configs, c.alt = a ∧ c.guard.holds answer level = true := by
  have listed (g : Guard) : g ∈ (configs.configs.toList.filter (·.alt == a)).map (·.guard) ↔
      ∃ c ∈ configs.configs, c.alt = a ∧ c.guard = g := by
    simp only [List.mem_map, List.mem_filter, Array.mem_toList_iff, beq_iff_eq, and_assoc]
  unfold guardOf
  cases guards : (configs.configs.toList.filter (·.alt == a)).map (·.guard) with
  | nil =>
    obtain ⟨c, member, same⟩ := some'
    have among := (listed c.guard).2 ⟨c, member, same, rfl⟩
    rw [guards] at among
    cases among
  | cons g rest =>
    rw [Guard.holds_foldl_or, ← List.any_cons, ← guards, List.any_eq_true]
    constructor
    · rintro ⟨g, among, holds⟩
      obtain ⟨c, member, same, rfl⟩ := (listed g).1 among
      exact ⟨c, member, same, holds⟩
    · rintro ⟨c, member, same, holds⟩
      exact ⟨c.guard, (listed _).2 ⟨c, member, same, rfl⟩, holds⟩

/-! ## Asking a list of guarded alternatives -/

theorem ask_steady (steady : env.evaluator.Steady answer level) (g : Guard) (w : Scratch η) :
    (ask env g).run w = some (g.holds answer level, w) := by
  change some ((g.eval env.evaluator w.hooks).1,
    ({ w with hooks := (g.eval env.evaluator w.hooks).2 } : Scratch η)) = _
  rw [Guard.eval_eq_holds steady]

/-- The alternatives whose guards hold, for an evaluator that keeps no state. -/
theorem enabledAlts_run (steady : env.evaluator.Steady answer level) (pairs : List GuardedAlt) (w : Scratch η) :
    (enabledAlts env pairs).run w =
      some (.ofList ((pairs.filter (·.guard.holds answer level)).map (·.alt)), w) := by
  have fold (pairs : List GuardedAlt) (enabled : AltSet) :
      (pairs.foldlM (fun (enabled : AltSet) (p : GuardedAlt) => do
        return if ← ask env p.guard then enabled.insert p.alt else enabled) enabled).run w =
        some (((pairs.filter (·.guard.holds answer level)).map (·.alt)).foldl AltSet.insert enabled, w) := by
    induction pairs generalizing enabled with
    | nil => rfl
    | cons p pairs ih =>
      rw [List.foldlM_cons, StateT.run_bind, StateT.run_bind, ask_steady steady]
      cases holds : p.guard.holds answer level with
      | false =>
        rw [List.filter_cons_of_neg (by simp [holds])]
        exact ih enabled
      | true =>
        rw [List.filter_cons_of_pos (by simp [holds])]
        exact ih (enabled.insert p.alt)
  exact fold pairs .empty

/-- The set has alternatives of the decision, and configurations of each of them. -/
def Represents (configs : ConfigSet) (count : Nat) (alts : AltSet) : Prop :=
  ∀ a ∈ alts.members, (1 ≤ a ∧ a ≤ count) ∧ ∃ c ∈ configs.configs, c.alt = a

/-- If the alternatives of a set are listed with their guards, the enabled ones among them are found; if they are
not listed, all of them are enabled. -/
theorem guardedAlts_enabled (steady : env.evaluator.Steady answer level)
    (represents : Represents configs count alts) : match guardedAlts alts configs count with
      | some pairs => ∀ w, ∃ enabled : AltSet, (enabledAlts env pairs).run w = some (enabled, w) ∧ enabled.Ascends ∧
          ∀ a, a ∈ enabled.members ↔ a ∈ alts.members ∧ Enabled env.evaluator w.hooks configs a
      | none => ∀ a ∈ alts.members, ∀ h, Enabled env.evaluator h configs a := by
  have listed (p : GuardedAlt) :
      p ∈ ((List.range' 1 count).filter alts.contains).map (fun alt => (⟨guardOf configs alt, alt⟩ : GuardedAlt)) ↔
        p.alt ∈ alts.members ∧ p.guard = guardOf configs p.alt := by
    simp only [List.mem_map, List.mem_filter, List.mem_range'_1, AltSet.contains, List.contains_iff_mem]
    constructor
    · rintro ⟨alt, ⟨-, member⟩, rfl⟩
      exact ⟨member, rfl⟩
    · rintro ⟨member, guard⟩
      have known := (represents p.alt member).1
      exact ⟨p.alt, ⟨by omega, member⟩, by rw [← guard]⟩
  unfold guardedAlts
  dsimp only
  split
  · rename_i pairs isSome
    split at isSome
    · cases isSome
    obtain rfl := Option.some.inj isSome
    intro w
    obtain ⟨ascends, members⟩ := AltSet.ofList_spec
      (((((List.range' 1 count).filter alts.contains).map
        (fun alt => (⟨guardOf configs alt, alt⟩ : GuardedAlt))).filter (·.guard.holds answer level)).map (·.alt))
    refine ⟨_, enabledAlts_run steady _ w, ascends, fun a => (members a).trans ?_⟩
    rw [enabled_iff steady, List.mem_map]
    constructor
    · rintro ⟨p, among, rfl⟩
      obtain ⟨member, holds⟩ := List.mem_filter.1 among
      obtain ⟨inAlts, guard⟩ := (listed p).1 member
      exact ⟨inAlts, (holds_guardOf (represents _ inAlts).2).1 (guard ▸ holds)⟩
    · rintro ⟨inAlts, enabled⟩
      have holds := (holds_guardOf (represents a inAlts).2).2 enabled
      exact ⟨⟨guardOf configs a, a⟩, List.mem_filter.2 ⟨(listed _).2 ⟨inAlts, rfl⟩, holds⟩, rfl⟩
  · rename_i isNone
    split at isNone
    swap
    · cases isNone
    rename_i all
    intro a member h
    rw [enabled_iff steady]
    have always := List.all_eq_true.1 all ⟨guardOf configs a, a⟩ ((listed _).2 ⟨member, rfl⟩)
    refine (holds_guardOf (represents a member).2).1 ?_
    rcases Guard.eq_always_or_open (guardOf configs a) with same | open'
    · rw [same, Guard.holds]
    · rw [open'] at always
      cases always

/-! ## What an accepting state lists -/

theorem unionOf_spec (gs : List AltSet) :
    (unionOf gs).Ascends ∧ ∀ a, a ∈ (unionOf gs).members ↔ ∃ g ∈ gs, a ∈ g.members := by
  have fold (gs : List AltSet) (s : AltSet) (ascends : s.Ascends) : (gs.foldl AltSet.union s).Ascends ∧
      ∀ a, a ∈ (gs.foldl AltSet.union s).members ↔ a ∈ s.members ∨ ∃ g ∈ gs, a ∈ g.members := by
    induction gs generalizing s with
    | nil => exact ⟨ascends, fun a => by simp⟩
    | cons g gs ih =>
      obtain ⟨joined, members⟩ := AltSet.union_spec (t := g) ascends
      obtain ⟨ascends', members'⟩ := ih _ joined
      refine ⟨ascends', fun a => (members' a).trans ?_⟩
      rw [members, or_assoc]
      simp
  obtain ⟨ascends, members⟩ := fold gs .empty List.Pairwise.nil
  exact ⟨ascends, fun a => (members a).trans (by simp [AltSet.empty])⟩

/-- Every alternative of a set is in some group. -/
theorem unionOf_conflictGroups (configs : ConfigSet) : unionOf (conflictGroups configs) = configs.alts := by
  have grouped : Grouped configs.configs.toList (conflictGroups configs) := grouped_of _ configs
  obtain ⟨ascends, members⟩ := unionOf_spec (conflictGroups configs)
  refine ascends.ext (AltSet.ofList_spec _).1 fun a => ?_
  rw [members, mem_alts]
  constructor
  · rintro ⟨g, member, has⟩
    exact grouped.sound g member a has
  · rintro ⟨c, member, rfl⟩
    exact grouped.complete c member

/-- A shared alternative is the only one. -/
theorem singleton_sharedAlt (valid : ∀ c ∈ configs.configs, 1 ≤ c.alt) (shared : configs.sharedAlt ≠ invalidAlt) :
    .singleton configs.sharedAlt = configs.alts := by
  obtain ⟨nonempty, only⟩ := (ConfigSet.sharedAlt_eq_iff (fun c member => valid c (Array.mem_toList_iff.1 member))
    shared).1 rfl
  refine AltSet.Ascends.ext (List.pairwise_singleton _ _) (AltSet.ofList_spec _).1 fun a => ?_
  rw [mem_alts]
  obtain ⟨c, member⟩ := List.exists_mem_of_ne_nil _ nonempty
  constructor
  · intro same
    obtain rfl := List.mem_singleton.1 same
    exact ⟨c, member, only c member⟩
  · rintro ⟨c, member, rfl⟩
    exact List.mem_singleton.2 (only c member)

theorem Posed.represents (posed : Posed count configs) : Represents configs count configs.alts := by
  intro a member
  obtain ⟨c, among, rfl⟩ := mem_alts.1 member
  have among := Array.mem_toList_iff.1 among
  exact ⟨posed.numbered c among, c, among, rfl⟩

/-- What is not shared by all configurations is not said to be. -/
theorem Posed.undecided (posed : Posed count configs) (nonempty : 0 < configs.configs.size)
    (unshared : configs.sharedAlt = invalidAlt) : configs.uniqueAlt = invalidAlt := by
  by_contra decided
  have valid : ∀ c ∈ configs.configs.toList, 1 ≤ c.alt := fun c member =>
    (posed.numbered c (Array.mem_toList_iff.1 member)).1
  refine decided (((ConfigSet.sharedAlt_eq_iff valid decided).2 ⟨?_, fun c member => ?_⟩).symm.trans unshared)
  · rw [← List.length_pos_iff, Array.length_toList]
    exact nonempty
  · exact posed.decided decided c (Array.mem_toList_iff.1 member)

theorem exists_least (nonempty : 0 < configs.configs.size) : ∃ a, configs.alts.min? = some a := by
  have member := mem_alts.2 ⟨_, Array.mem_toList_iff.2 (Array.getElem_mem nonempty), rfl⟩
  unfold AltSet.min?
  cases members : configs.alts.members with
  | nil =>
    rw [members] at member
    cases member
  | cons a rest => exact ⟨a, rfl⟩

/-- An accepting state lists all alternatives of its configurations with their guards, or it predicts the least of
them where nothing is to be listed. -/
theorem Posed.verdict (posed : Posed count configs) (nonempty : 0 < configs.configs.size) {net : Network}
    {mode : PredictionMode} (accepts : (verdictOf net mode count configs).accepts = true) :
    (verdictOf net mode count configs).predicates =
      (if configs.hasGuards then guardedAlts configs.alts configs count else none) ∧
    ((verdictOf net mode count configs).predicates = none →
      (verdictOf net mode count configs).prediction = configs.alts.min?.getD invalidAlt) := by
  -- The state is accepting already when it is asked for guards, and its alternatives are those of the set.
  have settle (s : DfaState) (accepts : s.accepts = true) (same : s.configs.configs = configs.configs)
      (marked : s.configs.hasGuards = configs.hasGuards)
      (alts : (if s.configs.uniqueAlt ≠ invalidAlt then AltSet.singleton s.configs.uniqueAlt
        else s.configs.conflicting.getD .empty) = configs.alts)
      (open' : s.predicates = none) (prediction : s.prediction = configs.alts.min?.getD invalidAlt) :
      (guardState count s).predicates =
        (if configs.hasGuards then guardedAlts configs.alts configs count else none) ∧
      ((guardState count s).predicates = none →
        (guardState count s).prediction = configs.alts.min?.getD invalidAlt) := by
    have guarded : guardedAlts configs.alts s.configs count = guardedAlts configs.alts configs count := by
      have guards : guardOf s.configs = guardOf configs := by
        funext a
        rw [guardOf, guardOf, same]
      simp only [guardedAlts, guards]
    unfold guardState
    rw [accepts, Bool.true_and, marked]
    cases configs.hasGuards with
    | false => exact ⟨open', fun _ => prediction⟩
    | true =>
      simp only [if_true, alts, guarded]
      cases guardedAlts configs.alts configs count with
      | none => exact ⟨open', fun _ => rfl⟩
      | some pairs => exact ⟨rfl, fun absurd => by cases absurd⟩
  have valid : ∀ c ∈ configs.configs, 1 ≤ c.alt := fun c member => (posed.numbered c member).1
  unfold verdictOf Prediction.stateOf at accepts ⊢
  dsimp only at accepts ⊢
  split
  · rename_i shared
    have single := singleton_sharedAlt valid shared
    refine settle _ rfl rfl rfl ?_ rfl ?_
    · exact (if_pos shared).trans single
    · rw [← single]
      rfl
  · rename_i unshared
    rw [if_neg unshared] at accepts
    split
    · refine settle _ rfl rfl rfl ?_ rfl ?_
      · exact (if_neg (not_not.2 (posed.undecided nonempty (not_not.1 unshared)))).trans (unionOf_conflictGroups configs)
      · rw [← unionOf_conflictGroups]
    · rename_i noConflict
      rw [if_neg noConflict] at accepts
      unfold guardState at accepts
      cases accepts

end Prediction

/-! ## Accepting states -/

open Prediction

namespace Simulator

variable {η : Type} {env : Env η} {answer : Nat → Nat → Bool} {level : Int} {s : Simulator η} {d : DfaState}
  {configs : ConfigSet} {count : Nat}

theorem fail_reaches (start offending : Nat) : Reaches (fail env start offending) s fun r s' =>
    r = .error (.noViableAlt env.decision start offending) ∧ s' = s := fun _ => ⟨_, _, _, rfl, rfl, rfl⟩

/-- An accepting state that says what its configurations say takes the least enabled alternative. -/
theorem accept_enabled (steady : env.evaluator.Steady answer level) (posed : Posed count configs)
    (nonempty : 0 < configs.configs.size) {mode : PredictionMode}
    (told : d.verdict = verdictOf env.net mode count configs) (accepts : d.accepts = true)
    {tape : TokenTape} {pos : Option Nat} (views : s.stream.Views env.fuel tape pos)
    (enough : tape.body.length < env.fuel) (start : Nat) :
    Reaches (accept env start d) s fun r s' => s'.cache = s.cache ∧
      ((∃ a, r = .ok a ∧ Enabled env.evaluator s.stream.hooks configs a ∧
          ∀ b, Enabled env.evaluator s.stream.hooks configs b → a ≤ b) ∨
        (∃ offending, r = .error (.noViableAlt env.decision start offending)) ∧
          ∀ a, ¬ Enabled env.evaluator s.stream.hooks configs a) := by
  have listed := guardedAlts_enabled steady posed.represents
  obtain ⟨predicates, prediction⟩ := posed.verdict nonempty ((congrArg Verdict.accepts told).symm.trans accepts)
  rw [← told] at predicates prediction
  change d.predicates = _ at predicates
  change d.predicates = none → d.prediction = _ at prediction
  -- Every enabled alternative is one of the set.
  have among {h : η} {a : Nat} (enabled : Enabled env.evaluator h configs a) : a ∈ configs.alts.members := by
    obtain ⟨c, member, same, -⟩ := enabled
    exact mem_alts.2 ⟨c, Array.mem_toList_iff.2 member, same⟩
  have steadily {h h' : η} {a : Nat} (enabled : Enabled env.evaluator h configs a) :
      Enabled env.evaluator h' configs a := (enabled_iff steady h').2 ((enabled_iff steady h).1 enabled)
  unfold accept
  cases list : d.predicates with
  | none =>
    have all : ∀ a ∈ configs.alts.members, ∀ h, Enabled env.evaluator h configs a := by
      rw [list] at predicates
      cases marked : configs.hasGuards with
      | false =>
        intro a member h
        obtain ⟨c, inside, same⟩ := mem_alts.1 member
        have inside := Array.mem_toList_iff.1 inside
        exact (enabled_iff steady h).2 ⟨c, inside, same, by rw [posed.marked marked c inside, Guard.holds]⟩
      | true =>
        rw [marked, if_pos rfl] at predicates
        rw [← predicates] at listed
        exact listed
    obtain ⟨a, isLeast⟩ := exists_least nonempty
    have result : d.prediction.toNat = a := by
      rw [prediction list, isLeast]
      rfl
    obtain ⟨member, least⟩ := (AltSet.ofList_spec _).1.min?_eq_some_iff.1 isLeast
    exact .pure ⟨rfl, .inl ⟨a, congrArg Except.ok result, all a member _, fun b enabled => least b (among enabled)⟩⟩
  | some pairs =>
    have isList : guardedAlts configs.alts configs count = some pairs := by
      rw [list] at predicates
      split at predicates
      · exact predicates.symm
      · cases predicates
    rw [isList] at listed
    refine (onStream_reaches (views.returnTo enough start)).bind ?_
    rintro _ s₁ ⟨stream, rfl, views₁⟩
    obtain ⟨enabled, ran, ascends, members⟩ := listed { merges := s.merges, hooks := stream.hooks }
    refine (onConfigs_reaches (Q := fun found _ => found = enabled) ⟨_, _, ran, rfl, rfl⟩).bind ?_
    rintro found s₂ ⟨w, rfl, -, rfl⟩
    have member_iff (a : Nat) : a ∈ found.members ↔ Enabled env.evaluator s.stream.hooks configs a :=
      (members a).trans ⟨fun both => steadily both.2, fun isEnabled => ⟨among isEnabled, steadily isEnabled⟩⟩
    cases isLeast : found.min? with
    | some a =>
      obtain ⟨member, least⟩ := ascends.min?_eq_some_iff.1 isLeast
      exact .pure ⟨rfl, .inl ⟨a, rfl, (member_iff a).1 member, fun b isEnabled => least b ((member_iff b).2 isEnabled)⟩⟩
    | none =>
      refine .get_bind ((fail_reaches start _).imp ?_)
      rintro _ _ ⟨rfl, rfl⟩
      refine ⟨rfl, .inr ⟨⟨_, rfl⟩, fun a isEnabled => ?_⟩⟩
      have member := (member_iff a).2 isEnabled
      unfold AltSet.min? at isLeast
      rw [List.head?_eq_none_iff.1 isLeast] at member
      cases member

/-- **Choosing by guards.** For an evaluator that keeps no state, the guarded alternatives that are listed for a set
of alternatives are asked without a change, and those of the set are found that have a configuration with a guard
that holds; if none are listed, each alternative of the set has such a configuration. So wherever a prediction of a
parser comes to an accepting state of the automaton, it takes the least alternative that is enabled there, and no
alternative is viable if none is enabled. -/
theorem accept_least (steady : env.evaluator.Steady answer level) :
    (∀ {configs : ConfigSet} {count : Nat} {alts : AltSet}, Represents configs count alts →
      match guardedAlts alts configs count with
      | some pairs => ∀ w, ∃ enabled : AltSet, (enabledAlts env pairs).run w = some (enabled, w) ∧ enabled.Ascends ∧
          ∀ a, a ∈ enabled.members ↔ a ∈ alts.members ∧ Enabled env.evaluator w.hooks configs a
      | none => ∀ a ∈ alts.members, ∀ h, Enabled env.evaluator h configs a) ∧
    ∀ {s : Simulator η} {n : Nat} {d : DfaState} {tape : TokenTape} {pos : Option Nat} (start : Nat),
      env.net.isLexer = false → Underway env s → (s.cache.dfa env.decision).states[n]? = some d → d.accepts = true →
      s.stream.Views env.fuel tape pos → tape.body.length < env.fuel →
      Reaches (accept env start d) s fun r _ =>
        (∃ a, r = .ok a ∧ Enabled env.evaluator s.stream.hooks d.configs a ∧
          ∀ b, Enabled env.evaluator s.stream.hooks d.configs b → a ≤ b) ∨
        (∃ offending, r = .error (.noViableAlt env.decision start offending)) ∧
          ∀ a, ¬ Enabled env.evaluator s.stream.hooks d.configs a := by
  refine ⟨fun represents => guardedAlts_enabled steady represents, ?_⟩
  intro s n d tape pos start parser underway found accepts views enough
  obtain ⟨posed, nonempty⟩ := (underway.poses parser env.decision).states d (Array.mem_of_getElem? found)
  -- A state that says nothing does not accept.
  obtain ⟨mode, told⟩ : ∃ mode, d.verdict = verdictOf env.net mode (env.net.choices env.decision) d.configs := by
    refine (underway.telling.judged env.decision n d found).resolve_left fun blank => ?_
    cases accepts.symm.trans (congrArg Verdict.accepts blank.2)
  exact (accept_enabled steady posed (nonempty accepts) told accepts views enough start).imp fun _ _ known => known.2

/-- Three alternatives that are the same but for their guards, the second one with two of them. -/
def forked : Grammar :=
  (Grammar.parser "Forked" { literalNames := [none, some "'a'"] })
    |>.rule "s" (.alt [.seq [.predicate 0 false, .literal "a"],
      .seq [.alt [.predicate 0 false, .predicate 1 false], .literal "a"], .seq [.predicate 2 false, .literal "a"]])

/-- The predicates hold from one on. -/
def holdsFrom (first : Nat) : Guard.Evaluator Unit where
  predicate _ pred h := (decide (first ≤ pred), h)
  precedence p h := (decide (0 ≤ p), h)

/-- A prediction of the outer decision, over the automata that others have left. -/
def forkedEnv (net : Network) (cache : DfaCache) (first : Nat) : Env Unit where
  net
  decision := 1
  startState := (cache.dfa 1).networkState
  precedenceLoop := (cache.dfa 1).precedence
  evaluator := holdsFrom first
  fuel := 30

/-- It goes over a stream of a few tokens. -/
def forkedSimulator (cache : DfaCache) : Simulator Unit where
  cache
  mode := .ll
  stream := { source := .list TokenStream.spacedList (), channel := TokenStream.spacedTape.channel }

/-- The second alternative is the least that is enabled if the second one of its guards holds. -/
theorem accept_least_forked : ∃ compiled net, forked.compile = .ok compiled ∧
    Network.decode compiled.words true = .ok net ∧
    ∃ cache d, DfaCache.Learned net cache ∧ (cache.dfa 1).states[1]? = some d ∧
    d.accepts = true ∧ d.predicates.map (·.length) = some 3 ∧
    Reaches (accept (forkedEnv net cache 1) 0 d) (forkedSimulator cache) (fun r _ => r = .ok 2) ∧
    Reaches (accept (forkedEnv net cache 3) 0 d) (forkedSimulator cache) fun r _ =>
      ∃ offending, r = .error (.noViableAlt 1 0 offending) := by
  have answer : (do
      let net ← (Network.decode (← forked.compile.toOption).words true).toOption
      let ((_, s), _) ← ((predict net 30 (holdsFrom 1) 1 [] 0).run { twinSimulator net with mode := .sll }).run #[]
      let d ← (s.cache.dfa 1).states[1]?
      return (net.isLexer, d.accepts, d.predicates.map (·.length),
        d.configs.configs.toList.map fun c => (c.alt, c.guard))) =
      some (false, true, some 3, [(1, .predicate 0 0 false), (2, .predicate 0 0 false), (2, .predicate 0 1 false),
        (3, .predicate 0 2 false)]) := by cbv
  simp only [Option.bind_eq_bind, Option.bind_eq_some_iff] at answer
  obtain ⟨compiled, compiles, net, decodes, ⟨⟨result, s⟩, j⟩, ran, d, found, same⟩ := answer
  obtain ⟨parser, accepts, listed, guards⟩ : net.isLexer = false ∧ d.accepts = true ∧
      d.predicates.map (·.length) = some 3 ∧ d.configs.configs.toList.map (fun c => (c.alt, c.guard)) =
        [(1, .predicate 0 0 false), (2, .predicate 0 0 false), (2, .predicate 0 1 false),
          (3, .predicate 0 2 false)] := by
    simpa using same
  have learned : DfaCache.Learned net s.cache := .predicted .fresh ran
  have underway (first : Nat) : Underway (forkedEnv net s.cache first) (forkedSimulator s.cache) :=
    .begun learned rfl rfl rfl
  have steady (first : Nat) : (forkedEnv net s.cache first).evaluator.Steady (fun _ pred => decide (first ≤ pred)) 0 :=
    ⟨fun _ _ _ => rfl, fun _ _ => rfl⟩
  have views (fuel : Nat) : (forkedSimulator s.cache).stream.Views fuel TokenStream.spacedTape none :=
    .fresh (TokenSource.delivers_list TokenStream.spacedList (by decide) () fuel)
  have short : TokenStream.spacedTape.body.length < 30 := by decide
  have enabled_iff {first a : Nat} : Enabled (holdsFrom first) () d.configs a ↔
      a = 1 ∧ first ≤ 0 ∨ a = 2 ∧ (first ≤ 0 ∨ first ≤ 1) ∨ a = 3 ∧ first ≤ 2 := by
    have among : Enabled (holdsFrom first) () d.configs a ↔ ∃ p ∈ d.configs.configs.toList.map fun c => (c.alt, c.guard),
        p.1 = a ∧ (p.2.eval (holdsFrom first) ()).1 = true := by
      simp only [Enabled, List.mem_map, exists_exists_and_eq_and, Array.mem_toList_iff]
    have holds (pred : Nat) : ((Guard.predicate 0 pred false).eval (holdsFrom first) ()).1 = decide (first ≤ pred) := rfl
    simp only [among, guards, List.mem_cons, List.not_mem_nil, or_false, exists_eq_or_imp, exists_eq_left, holds,
      decide_eq_true_eq]
    omega
  refine ⟨compiled, net, except_ok_of_some compiles, except_ok_of_some decodes, s.cache, d, learned, found, accepts,
    listed, ?_, ?_⟩
  · refine ((accept_least (steady 1)).2 0 parser (underway 1) found accepts (views 30) short).imp ?_
    rintro r _ (⟨a, rfl, isEnabled, least⟩ | ⟨-, none'⟩)
    · have below := least 2 (enabled_iff.2 (by omega))
      have among := enabled_iff.1 isEnabled
      rw [show a = 2 by omega]
    · exact absurd (enabled_iff.2 (by omega)) (none' 2)
  · refine ((accept_least (steady 3)).2 0 parser (underway 3) found accepts (views 30) short).imp ?_
    rintro r _ (⟨a, -, isEnabled, -⟩ | ⟨failed, -⟩)
    · have among := enabled_iff.1 isEnabled
      omega
    · exact failed

end Simulator

end AdaptiveLL
