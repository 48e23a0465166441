import AdaptiveLL.Proofs.Prediction.Recording

/-!
# What the states of an automaton say

A state of a learned automaton says whether the decision ends there and what is predicted then (`Verdict`).
Behind a token this is what its configurations say (`verdictOf`), but a state is registered once and keeps
what it said first. The configurations at which a decision begins are registered without a verdict, and the
same configurations may be met again behind a token.

So of every automaton that predictions have made, a state without the verdict of its own configurations is one
at which the decision begins (`Judged`). A step behind a token leads to a state with the verdict of what it
has found, unless these configurations were registered before (`computeTarget_verdict`). A decision that
comes back to where it began stays without a verdict (`computeTarget_meets_start`).
-/

set_option autoImplicit false

namespace AdaptiveLL

open Session Prediction

/-- What a state says of the decision. -/
structure Verdict where
  accepts : Bool := false
  needsFullContext : Bool := false
  prediction : Int := 0
  predicates : Option (List GuardedAlt) := none
  deriving DecidableEq, Inhabited

/-- The verdict of a state. -/
def DfaState.verdict (s : DfaState) : Verdict := ⟨s.accepts, s.needsFullContext, s.prediction, s.predicates⟩

/-- What configurations say of a decision between some alternatives. -/
def Prediction.verdictOf (net : Network) (mode : PredictionMode) (count : Nat) (configs : ConfigSet) : Verdict :=
  (stateOf net mode count 0 configs).verdict

/-- The number of alternatives of a decision. -/
def Network.choices (net : Network) (decision : Nat) : Nat := (net.decisionState decision).transitions.length

variable {net : Network} {decision : Nat} {d d' : Dfa} {s : DfaState} {configs : ConfigSet}

namespace Prediction

theorem verdict_guardState {s s' : DfaState} (count : Nat) (verdict : s.verdict = s'.verdict)
    (configs : s.configs = s'.configs) : (guardState count s).verdict = (guardState count s').verdict := by
  obtain ⟨accepts, full, prediction, predicates⟩ := Verdict.mk.inj verdict
  unfold guardState
  rw [accepts, configs]
  split
  · dsimp only
    split <;> simp [DfaState.verdict, full, predicates]
  · exact verdict

/-- Whether local context ends in a conflict does not depend on what was found out about the set. -/
theorem endsInConflict_congr (net : Network) (mode : PredictionMode) (configs : ConfigSet)
    (conflicting : Option AltSet) :
    endsInConflict net mode { configs with conflicting } = endsInConflict net mode configs := by
  unfold endsInConflict
  dsimp only
  split <;> rfl

/-- A state says what its own configurations say. -/
theorem verdict_stateOf (net : Network) (mode : PredictionMode) (count width : Nat) (configs : ConfigSet) :
    (stateOf net mode count width configs).verdict =
      verdictOf net mode count (stateOf net mode count width configs).configs := by
  by_cases unique : configs.sharedAlt = invalidAlt
  · by_cases conflict : endsInConflict net mode configs = true
    · let found : ConfigSet := { configs with conflicting := some (unionOf (conflictGroups configs)) }
      have again : endsInConflict net mode found = true := (endsInConflict_congr net mode configs _).trans conflict
      have kept : (stateOf net mode count width configs).configs = found := by
        simp only [stateOf, unique, ne_eq, not_true, if_false, conflict, if_true, (Simulator.guardState_keeps count _).1]
        rfl
      rw [kept, verdictOf]
      simp only [stateOf, unique, show found.sharedAlt = invalidAlt from unique, ne_eq, not_true, if_false, conflict,
        again, if_true]
      exact verdict_guardState count rfl rfl
    · have kept : (stateOf net mode count width configs).configs = configs := by
        simp only [stateOf, unique, ne_eq, not_true, if_false, conflict, Bool.false_eq_true,
          (Simulator.guardState_keeps count _).1]
        rfl
      rw [kept, verdictOf]
      simp only [stateOf, unique, ne_eq, not_true, if_false, conflict, Bool.false_eq_true]
      exact verdict_guardState count rfl rfl
  · let found : ConfigSet := { configs with uniqueAlt := configs.sharedAlt }
    have again : found.sharedAlt ≠ invalidAlt := unique
    have kept : (stateOf net mode count width configs).configs = found := by
      simp only [stateOf, ne_eq, unique, not_false_eq_true, if_true, (Simulator.guardState_keeps count _).1]
      rfl
    rw [kept, verdictOf]
    simp only [stateOf, ne_eq, unique, not_false_eq_true, if_true, again]
    exact verdict_guardState count rfl rfl

/-- The width of a state does not matter to what it says. -/
theorem verdict_eq_verdictOf (net : Network) (mode : PredictionMode) (count width : Nat) (configs : ConfigSet) :
    (stateOf net mode count width configs).verdict = verdictOf net mode count configs := by
  rw [verdictOf]
  unfold stateOf
  dsimp only
  split
  · exact verdict_guardState count rfl rfl
  · split
    · exact verdict_guardState count rfl rfl
    · exact verdict_guardState count rfl rfl

end Prediction

namespace Dfa

/-- Is it a state at which the decision begins? -/
def IsStart (d : Dfa) (n : Nat) : Prop := d.start = some n ∨ ∃ precedence, (precedence, n) ∈ d.precedenceStarts

/-- The state says nothing and is one at which the decision begins, or it says what its configurations say. -/
def Tells (net : Network) (decision : Nat) (d : Dfa) (n : Nat) (t : DfaState) : Prop :=
  (d.IsStart n ∧ t.verdict = {}) ∨ ∃ mode, t.verdict = verdictOf net mode (net.choices decision) t.configs

/-- Every state without the verdict of its own configurations is one at which the decision begins. -/
def Judged (net : Network) (decision : Nat) (d : Dfa) : Prop :=
  ∀ (n : Nat) (t : DfaState), d.states[n]? = some t → d.Tells net decision n t

/-- No start state is forgotten. -/
theorem Tells.of_start {n : Nat} {t : DfaState} (tells : d.Tells net decision n t)
    (starts : ∀ n, d.IsStart n → d'.IsStart n) : d'.Tells net decision n t :=
  tells.imp_left fun blank => ⟨starts n blank.1, blank.2⟩

/-- What is registered is a new state, unless there is one with the same configurations. -/
theorem addState_cases (d : Dfa) (s : DfaState) (table : Context.Table) :
    (d.addState s table).2.1 = d ∨
      (d.addState s table).1 = d.states.size ∧ (d.addState s table).2.1 = { d with
        states := d.states.push { s with
          number := d.states.size
          configs := (s.configs.intern table).1
          identity := (s.configs.intern table).1.identity } } := by
  unfold Dfa.addState
  dsimp only
  split
  · exact .inl rfl
  · split
    · exact .inl rfl
    · exact .inr ⟨rfl, rfl⟩

theorem addState_known {n : Nat} (found : d.find? s.configs.identity = some n) (table : Context.Table) :
    (d.addState s table).1 = n ∧ (d.addState s table).2.1 = d := by
  unfold Dfa.addState
  simp only [found, and_self]

/-- Configurations that are kept as they are and that were not registered before get a new state. -/
theorem addState_unknown (none' : d.find? s.configs.identity = none) {table : Context.Table}
    (kept : (s.configs.intern table).1 = s.configs) :
    (d.addState s table).1 = d.states.size ∧ (d.addState s table).2.1 = { d with
      states := d.states.push { s with number := d.states.size, identity := s.configs.identity } } := by
  unfold Dfa.addState
  simp only [none', kept, and_self]

theorem Judged.push (judged : d.Judged net decision) (starts : ∀ n, d.IsStart n → d'.IsStart n)
    (states : d'.states = d.states.push s) (tells : d'.Tells net decision d.states.size s) :
    d'.Judged net decision := by
  intro n t found
  rw [states, Array.getElem?_push] at found
  split at found
  · rename_i isNew
    cases found
    exact isNew ▸ tells
  · exact (judged n t found).of_start starts

theorem Judged.of_states (judged : d.Judged net decision) (starts : ∀ n, d.IsStart n → d'.IsStart n)
    (states : d'.states = d.states) : d'.Judged net decision := by
  intro n t found
  rw [states] at found
  exact (judged n t found).of_start starts

/-- Edges say nothing of the decision. -/
theorem Judged.setEdge (judged : d.Judged net decision) (n i : Nat) (e : DfaEdge) :
    (d.setEdge n i e).Judged net decision := by
  intro k t found
  rw [getElem?_setEdge] at found
  split at found
  · obtain ⟨t', here, rfl⟩ := Option.map_eq_some_iff.1 found
    exact judged k t' here
  · exact judged k t found

/-- A registered state becomes one at which the decision begins. -/
theorem Judged.addStart (judged : d.Judged net decision) (blank : s.verdict = {}) (table : Context.Table)
    (states : d'.states = (d.addState s table).2.1.states)
    (starts : ∀ n, (d.addState s table).2.1.IsStart n → d'.IsStart n) (isStart : d'.IsStart (d.addState s table).1) :
    d'.Judged net decision := by
  rcases d.addState_cases s table with same | ⟨new, pushed⟩
  · rw [same] at states starts
    exact judged.of_states starts states
  · rw [pushed] at states starts
    rw [new] at isStart
    exact judged.push starts states (.inl ⟨isStart, blank⟩)

/-- To register a state does not change where the decision begins. -/
theorem addState_starts (d : Dfa) (s : DfaState) (table : Context.Table) :
    (d.addState s table).2.1.start = d.start ∧ (d.addState s table).2.1.precedenceStarts = d.precedenceStarts := by
  rcases d.addState_cases s table with same | ⟨-, pushed⟩
  · rw [same]
    exact ⟨rfl, rfl⟩
  · rw [pushed]
    exact ⟨rfl, rfl⟩

/-- The first start state stays. -/
theorem setStart_spec (unset : d.start = none) (n : Nat) :
    (d.setStart n).2.states = d.states ∧ (∀ k, d.IsStart k → (d.setStart n).2.IsStart k) ∧
      (d.setStart n).2.IsStart n := by
  rw [setStart, unset]
  refine ⟨rfl, fun k isStart => ?_, .inl rfl⟩
  rcases isStart with here | ⟨precedence, member⟩
  · cases unset.symm.trans here
  · exact .inr ⟨precedence, member⟩

theorem setPrecedenceStart_spec {precedence : Int} (unset : d.precedenceStart? precedence = none) (n : Nat) :
    (d.setPrecedenceStart precedence n).2.states = d.states ∧
      (∀ k, d.IsStart k → (d.setPrecedenceStart precedence n).2.IsStart k) ∧
      (d.setPrecedenceStart precedence n).2.IsStart n := by
  rw [setPrecedenceStart, unset]
  refine ⟨rfl, fun k isStart => ?_, .inr ⟨precedence, List.mem_append_right _ (List.mem_singleton.2 rfl)⟩⟩
  rcases isStart with here | ⟨precedence', member⟩
  · exact .inl here
  · exact .inr ⟨precedence', List.mem_append_left _ member⟩

/-- A registered state stands for what was found behind a token. It says what that says, unless there was a state
with these configurations before. -/
structure StandsFor (net : Network) (mode : PredictionMode) (decision : Nat) (d d' : Dfa) (reach : ConfigSet)
    (m : Nat) (t : DfaState) : Prop where
  registered : d'.states[m]? = some t
  identity : t.configs.identity = reach.identity
  new : d.find? reach.identity = none → t.verdict = verdictOf net mode (net.choices decision) reach
  known : ∀ k, d.find? reach.identity = some k → m = k ∧ t.verdict = (d.state k).verdict
  tells : d'.Tells net decision m t

/-- What is found is spoken for by the state that was there first. -/
theorem StandsFor.verdict_iff {mode : PredictionMode} {m : Nat} {t : DfaState}
    (stands : d.StandsFor net mode decision d' configs m t) :
    t.verdict = verdictOf net mode (net.choices decision) configs ↔
      ∀ k, d.find? configs.identity = some k →
        (d.state k).verdict = verdictOf net mode (net.choices decision) configs := by
  constructor
  · intro same k known
    exact (stands.known k known).2.symm.trans same
  · intro before
    cases known : d.find? configs.identity with
    | none => exact stands.new known
    | some k => exact (stands.known k known).2.trans (before k known)

theorem StandsFor.setEdge {mode : PredictionMode} {m : Nat} {t : DfaState}
    (stands : d.StandsFor net mode decision d' configs m t) (n i : Nat) (e : DfaEdge) :
    ∃ t, d.StandsFor net mode decision (d'.setEdge n i e) configs m t := by
  have found := getElem?_setEdge d' n i e m
  rw [stands.registered] at found
  split at found
  · exact ⟨t.setEdge i e, found, stands.identity, stands.new, stands.known, stands.tells⟩
  · exact ⟨t, found, stands.identity, stands.new, stands.known, stands.tells⟩

/-- A state that has the verdict of what was found is registered for it. -/
theorem Judged.addState (judged : d.Judged net decision) (isExact : d.Exact net decision) {mode : PredictionMode}
    {table : Context.Table} (kept : (s.configs.intern table).1 = s.configs)
    (identity : s.configs.identity = configs.identity)
    (own : s.verdict = verdictOf net mode (net.choices decision) s.configs)
    (found : s.verdict = verdictOf net mode (net.choices decision) configs) :
    (d.addState s table).2.1.Judged net decision ∧
      ∃ t, d.StandsFor net mode decision (d.addState s table).2.1 configs (d.addState s table).1 t := by
  cases known : d.find? s.configs.identity with
  | some k =>
    obtain ⟨number, same⟩ := addState_known known table
    obtain ⟨t, registered, again⟩ := find?_found isExact known
    have isState : d.state k = t := by
      rw [Dfa.state, Array.getD_eq_getD_getElem?, registered]
      rfl
    rw [identity] at known
    rw [number, same]
    refine ⟨judged, t, registered, again.trans identity, fun unknown => ?_, fun k' known' => ?_, judged k t registered⟩
    · cases known.symm.trans unknown
    · exact Option.some.inj (known.symm.trans known') ▸ ⟨rfl, congrArg DfaState.verdict isState.symm⟩
  | none =>
    obtain ⟨number, pushed⟩ := addState_unknown known kept
    rw [identity] at known
    rw [number, pushed]
    have tells : d.Tells net decision d.states.size s := .inr ⟨mode, own⟩
    refine ⟨judged.push (fun _ => id) rfl tells, _, Array.getElem?_push_size, identity, fun _ => found,
      fun k known' => ?_, tells⟩
    cases known.symm.trans known'

end Dfa

/-- Every state of the cache without the verdict of its own configurations is one at which a decision begins. -/
def DfaCache.Judged (net : Network) (cache : DfaCache) : Prop := ∀ i, (cache.dfa i).Judged net i

namespace DfaCache

variable {cache cache' : DfaCache}

theorem judged_fresh (net : Network) : (ofNetwork net).Judged net := by
  intro i n t found
  rw [states_fresh] at found
  cases found

/-- One automaton is changed, or none. -/
theorem Judged.change (judged : cache.Judged net) (isJudged : d.Judged net decision)
    (changed : (∀ k, cache'.dfa k = cache.dfa k) ∨
      ∀ k, cache'.dfa k = if k = decision then d else cache.dfa k) : cache'.Judged net := by
  intro i
  rcases changed with same | changed
  · exact same i ▸ judged i
  · rw [changed i]
    split
    · rename_i here
      exact here ▸ isJudged
    · exact judged i

/-- To register a state does not change where the decision begins. -/
theorem addState_starts (cache : DfaCache) (i : Nat) (s : DfaState) :
    ((cache.addState i s).2.dfa i).start = (cache.dfa i).start ∧
      ((cache.addState i s).2.dfa i).precedenceStarts = (cache.dfa i).precedenceStarts := by
  rcases dfa_addState_cases cache i s with ⟨-, same⟩ | changed
  · rw [same]
    exact ⟨rfl, rfl⟩
  · rw [changed, if_pos rfl]
    exact Dfa.addState_starts _ s _

/-- A state is registered that becomes one at which the decision begins. -/
theorem Judged.addStart (judged : cache.Judged net) (blank : s.verdict = {})
    (states : d'.states = ((cache.addState decision s).2.dfa decision).states)
    (starts : ∀ n, ((cache.addState decision s).2.dfa decision).IsStart n → d'.IsStart n)
    (isStart : d'.IsStart (cache.addState decision s).1) :
    ((cache.addState decision s).2.modifyDfa decision fun _ => d').Judged net := by
  have dfas : (cache.addState decision s).2.dfas =
      cache.dfas.setIfInBounds decision ((cache.dfa decision).addState s cache.contexts).2.1 := rfl
  intro i
  rcases Nat.lt_or_ge decision cache.dfas.size with inside | outside
  · have added := Lexer.dfa_addState inside s
    rw [added, if_pos rfl] at states starts
    rw [Lexer.dfa_modifyDfa (by rw [dfas, Array.size_setIfInBounds]; exact inside), added]
    split
    · rename_i here
      exact here ▸ (judged decision).addStart blank _ states starts isStart
    · exact judged i
  · rw [dfa_modifyDfa_outside (by rw [dfas, Array.size_setIfInBounds]; exact outside), dfa_addState_outside outside]
    exact judged i

end DfaCache

namespace Simulator

variable {η : Type} {env : Env η} {s s' : Simulator η}

theorem recordEdge_judged (judged : s.cache.Judged net) (n : Nat) (symbol : Int) (e : DfaEdge) :
    Leads (recordEdge env n symbol e) s fun _ s' => s'.cache.Judged net := by
  unfold recordEdge
  split
  · exact .of_modify (judged.change ((judged env.decision).setEdge _ _ _) (DfaCache.dfa_modifyDfa_cases _ _ _))
  · exact .pure judged

theorem startState_judged (judged : s.cache.Judged env.net) (precedence : Int) :
    Leads (startState env precedence) s fun _ s' => s'.cache.Judged env.net := by
  have registered (configs : ConfigSet) (width : Nat) (f : Dfa → Nat → Nat × Dfa) {s : Simulator η}
      (judged : s.cache.Judged env.net)
      (starts : ∀ (d : Dfa) (n : Nat), d.start = (s.cache.dfa env.decision).start →
        d.precedenceStarts = (s.cache.dfa env.decision).precedenceStarts → (f d n).2.states = d.states ∧
          (∀ k, d.IsStart k → (f d n).2.IsStart k) ∧ (f d n).2.IsStart n) :
      Leads (do
        let n ← register env.decision (.ofConfigs configs width)
        let started := f (← dfa env.decision) n
        modifyDfa env.decision fun _ => started.2
        return started.1) s fun _ s' => s'.cache.Judged env.net := by
    refine Leads.bind (P := fun n s' => n = (s.cache.addState env.decision (.ofConfigs configs width)).1 ∧
      s'.cache = (s.cache.addState env.decision (.ofConfigs configs width)).2) (.of_modifyGet ⟨rfl, rfl⟩) ?_
    rintro n s₁ ⟨rfl, added⟩
    obtain ⟨start, precedenceStarts⟩ := s.cache.addState_starts env.decision (.ofConfigs configs width)
    rw [← added] at start precedenceStarts
    obtain ⟨states, kept, isStart⟩ := starts (s₁.cache.dfa env.decision)
      (s.cache.addState env.decision (.ofConfigs configs width)).1 start precedenceStarts
    refine .get_bind (.modify_bind (.pure ?_))
    rw [added] at states kept isStart ⊢
    exact judged.addStart rfl states kept isStart
  refine .get_bind ?_
  dsimp only
  split
  · exact .pure judged
  · rename_i unset
    refine (Reading.onConfigs _ s).bind fun configs s₁ same₁ => ?_
    split
    · rename_i loop
      rw [if_pos loop] at unset
      refine (Reading.onConfigs _ s₁).bind fun configs' s₂ same₂ => ?_
      have same : s₂.cache = s.cache := same₂.trans same₁
      refine registered configs' _ (fun d n => d.setPrecedenceStart precedence n) (same ▸ judged) fun d n _ starts => ?_
      rw [same] at starts
      exact Dfa.setPrecedenceStart_spec (by rw [Dfa.precedenceStart?, starts]; exact unset) n
    · rename_i loop
      rw [if_neg loop] at unset
      refine registered configs _ (fun d n => d.setStart n) (same₁ ▸ judged) fun d n start _ => ?_
      rw [same₁] at start
      exact Dfa.setStart_spec (start.trans unset) n

/-! ## Behind a token -/

/-- When a state is registered for what was found, it says what that says, if it is new. -/
theorem register_stands (recording : Recording env s) (judged : s.cache.Judged env.net) {reach : ConfigSet}
    (formed : reach.Formed false) (width : Nat) (nonempty : (s.cache.dfa env.decision).states ≠ #[]) :
    Leads (register env.decision (stateOf env.net s.mode (env.net.choices env.decision) width reach)) s fun m s' =>
      s'.cache.Judged env.net ∧ ∃ t, Dfa.StandsFor env.net s.mode env.decision (s.cache.dfa env.decision)
        (s'.cache.dfa env.decision) reach m t := by
  obtain ⟨sameConfigs, ordered, -, -⟩ := stateOf_spec env.net s.mode (env.net.choices env.decision) width reach
  have own := verdict_stateOf env.net s.mode (env.net.choices env.decision) width reach
  have found := verdict_eq_verdictOf env.net s.mode (env.net.choices env.decision) width reach
  generalize stateOf env.net s.mode (env.net.choices env.decision) width reach = fresh at *
  have identity : fresh.configs.identity = reach.identity := by
    rw [ConfigSet.identity, ConfigSet.key, sameConfigs, ordered]
    rfl
  have kept : (fresh.configs.intern s.cache.contexts).1 = fresh.configs :=
    ConfigSet.intern_of_kept (fun c member t =>
      Context.Table.intern_eq (formed.contexts c (sameConfigs ▸ member)).1 t) s.cache.contexts
  have changed := (DfaCache.dfa_addState_cases s.cache env.decision fresh).resolve_left fun none' => nonempty none'.1
  obtain ⟨isJudged, stands⟩ :=
    (judged env.decision).addState (recording.recorded env.decision) kept identity own found
  have here := (changed env.decision).trans (if_pos rfl)
  refine .of_modifyGet ⟨judged.change isJudged (.inr changed), ?_⟩
  rw [← here] at stands
  exact stands

theorem recordEdge_stands {mode : PredictionMode} {reach : ConfigSet} {m : Nat} {t : DfaState}
    (stands : d.StandsFor env.net mode env.decision (s.cache.dfa env.decision) reach m t) (n : Nat) (symbol : Int)
    (e : DfaEdge) :
    Leads (recordEdge env n symbol e) s fun _ s' =>
      ∃ t, d.StandsFor env.net mode env.decision (s'.cache.dfa env.decision) reach m t := by
  unfold recordEdge
  split
  · refine .of_modify ?_
    rcases DfaCache.dfa_modifyDfa_cases s.cache env.decision _ with same | changed
    · exact ⟨t, (same env.decision).symm ▸ stands⟩
    · rw [changed env.decision, if_pos rfl]
      exact stands.setEdge _ _ _
  · exact .pure ⟨t, stands⟩

theorem computeTarget_stands (recording : Recording env s) (judged : s.cache.Judged env.net) (n : Nat)
    (symbol : Int) :
    Leads (computeTarget env n symbol) s fun edge s' => s'.cache.Judged env.net ∧ ∀ m, edge = .target m →
      ∃ reach t, (s.cache.dfa env.decision).Afresh env.net env.decision ((s.cache.dfa env.decision).state n).configs
          symbol (some reach) ∧
        (s.cache.dfa env.decision).StandsFor env.net s.mode env.decision (s'.cache.dfa env.decision) reach m t := by
  refine .get_bind ?_
  have formed := (recording.recorded env.decision).formed_state n
  refine (onConfigs_leads fun result w ran => And.intro (reachSet_afresh recording formed symbol result w ran)
    (fun none' => reachSet_none none' false _ result w ran)).bind fun result s₁ known => ?_
  obtain ⟨w, same, ⟨formed', faithful, afresh⟩, empty⟩ := known
  have cache : s₁.cache = s.cache := by rw [same]
  have mode : s₁.mode = s.mode := by rw [same]
  have recording₁ : Recording env s₁ := by
    rw [same]
    exact ⟨recording.recorded, recording.start, recording.loop, faithful⟩
  cases result with
  | none =>
    refine (recordEdge_judged (cache ▸ judged) n symbol .dead).bind fun _ _ judged₂ => .pure ⟨judged₂, fun m isTarget => ?_⟩
    cases isTarget
  | some reach =>
    have nonempty : (s₁.cache.dfa env.decision).states ≠ #[] := by
      intro none'
      rw [cache] at none'
      refine Option.some_ne_none reach (empty ?_)
      rw [Dfa.state, none']
      rfl
    refine .get_bind ((register_stands recording₁ (cache ▸ judged) (formed' reach rfl) _ nonempty).bind ?_)
    rintro m s₂ ⟨judged₂, t, stands⟩
    rw [cache, mode] at stands
    refine ((recordEdge_judged judged₂ n symbol (.target m)).and
      (recordEdge_stands stands n symbol (.target m))).bind ?_
    rintro - s₃ ⟨judged₃, t', stands₃⟩
    refine .pure ⟨judged₃, fun m' same' => ?_⟩
    cases same'
    exact ⟨reach, t', afresh, stands₃⟩

/-! ## Predictions -/

/-- During the local part of a prediction what is recorded is exact, and every state says what it should. -/
structure Telling (env : Env η) (s : Simulator η) : Prop extends Recording env s where
  judged : s.cache.Judged env.net

namespace Telling

variable {α : Type}

theorem startState (telling : Telling env s) (precedence : Int) :
    Leads (startState env precedence) s fun _ s' => Telling env s' :=
  ((startState_records telling.toRecording precedence).and (startState_judged telling.judged precedence)).imp
    fun _ _ known => ⟨known.1, known.2⟩

theorem computeTarget (telling : Telling env s) (n : Nat) (symbol : Int) :
    Leads (computeTarget env n symbol) s fun _ s' => Telling env s' :=
  ((computeTarget_records telling.toRecording n symbol).and
    (computeTarget_stands telling.toRecording telling.judged n symbol)).imp fun _ _ known => ⟨known.1, known.2.1⟩

theorem target (telling : Telling env s) (n : Nat) (symbol : Int) :
    Leads (target env n symbol) s fun _ s' => Telling env s' := by
  refine .get_bind ?_
  split
  · exact .modify_bind (.pure ⟨telling.toRecording.of_eq rfl rfl, telling.judged⟩)
  · refine .modify_bind (computeTarget ?_ n symbol)
    exact ⟨telling.toRecording.of_eq rfl rfl, telling.judged⟩

theorem onStream (telling : Telling env s) (step : TokenStream.StreamM η α) :
    Leads (onStream step) s fun _ s' => Telling env s' :=
  ((onStream_records telling.toRecording step).and (Reading.onStream step s)).imp
    fun _ _ known => ⟨known.1, known.2 ▸ telling.judged⟩

end Telling

theorem runLocal_judged (telling : Telling env s) (start : Nat) (outer : Context) (rounds n : Nat) (symbol : Int) :
    Leads (runLocal env start outer rounds n symbol) s fun _ s' => s'.cache.Judged env.net := by
  -- What comes behind the local part only reads the cache.
  have reading {x : PredictM η (Except RecognitionError Nat)} (reads : Reading x) {s : Simulator η}
      (telling : Telling env s) : Leads x s fun _ s' => s'.cache.Judged env.net :=
    (reads s).imp fun _ _ same => same ▸ telling.judged
  induction rounds generalizing n symbol s with
  | zero => exact .of_failure
  | succ rounds ih =>
    refine (telling.target n symbol).bind fun edge s₁ telling₁ => ?_
    split
    · exact .get_bind (reading (failOrFallback_reading _ _) telling₁)
    · refine .get_bind (.get_bind ?_)
      split
      · exact reading (settleConflict_reading _ _ _) telling₁
      · split
        · exact reading (accept_reading _ _) telling₁
        · split
          · exact (telling₁.onStream _).bind fun _ s₂ telling₂ =>
              (telling₂.onStream _).bind fun next s₃ telling₃ => ih telling₃ _ next
          · exact ih telling₁ _ symbol

/-- After a prediction every state says what it should. -/
theorem predict_judged {fuel : Nat} {evaluator : Guard.Evaluator η} {callStack : List Nat} {precedence : Int}
    (recorded : s.cache.Exact net) (judged : s.cache.Judged net) :
    Leads (predict net fuel evaluator decision callStack precedence) s fun _ s' => s'.cache.Judged net := by
  refine .modify_bind (.get_bind (.get_bind (.modify_bind ?_)))
  let env : Env η := { net, decision, evaluator, fuel, startState := (s.cache.dfa decision).networkState
                       precedenceLoop := (s.cache.dfa decision).precedence }
  let begun : Simulator η := { s with stats := { s.stats with predictions := s.stats.predictions + 1 }, merges := {} }
  have recording : Recording env begun := ⟨recorded, rfl, rfl, Context.Memo.faithful_empty true⟩
  have telling : Telling env begun := ⟨recording, judged⟩
  refine (telling.startState precedence).bind fun n s₁ telling₁ => ?_
  refine (telling₁.onStream _).bind fun symbol s₂ telling₂ => ?_
  refine (runLocal_judged telling₂ _ _ fuel n symbol).bind fun result s₃ judged₃ => ?_
  exact (Reading.onStream _ s₃).bind fun _ _ same => .pure (same ▸ judged₃)

end Simulator

/-- In every automaton that predictions have made, a state without the verdict of its own configurations is one
at which the decision begins. -/
theorem DfaCache.Learned.judged {cache : DfaCache} (learned : Learned net cache) : cache.Judged net := by
  induction learned with
  | fresh => exact judged_fresh net
  | predicted before ran judged => exact Simulator.predict_judged before.exact judged _ _ _ _ ran

namespace Simulator

variable {η : Type} {env : Env η} {s s' : Simulator η}

/-- A prediction is in its local part, over a cache that earlier predictions have made: it has begun, or it has
found its start state, followed a token through the automaton, or moved the stream. -/
inductive Underway (env : Env η) : Simulator η → Prop
  | begun {s : Simulator η} (learned : DfaCache.Learned env.net s.cache)
    (start : (s.cache.dfa env.decision).networkState = env.startState)
    (loop : (s.cache.dfa env.decision).precedence = env.precedenceLoop) (merges : s.merges = {}) : Underway env s
  | started {s s' : Simulator η} {precedence : Int} {n : Nat} {j j' : Journal} (before : Underway env s)
    (ran : ((startState env precedence).run s).run j = some ((n, s'), j')) : Underway env s'
  | followed {s s' : Simulator η} {n : Nat} {symbol : Int} {e : DfaEdge} {j j' : Journal} (before : Underway env s)
    (ran : ((target env n symbol).run s).run j = some ((e, s'), j')) : Underway env s'
  | moved {α : Type} {s s' : Simulator η} {step : TokenStream.StreamM η α} {a : α} {j j' : Journal}
    (before : Underway env s) (ran : ((onStream step).run s).run j = some ((a, s'), j')) : Underway env s'

theorem Underway.telling (underway : Underway env s) : Telling env s := by
  induction underway with
  | begun learned start loop merges =>
    exact ⟨⟨learned.exact, start, loop, merges ▸ Context.Memo.faithful_empty true⟩, learned.judged⟩
  | started _ ran telling => exact telling.startState _ _ _ _ _ ran
  | followed _ ran telling => exact telling.target _ _ _ _ _ _ ran
  | moved _ ran telling => exact telling.onStream _ _ _ _ _ ran

/-- Wherever a prediction finds out where a token leads, the state that it is led to stands for what is found
there afresh. It has the verdict of what is found exactly if every state with these configurations had it before:
otherwise that state's verdict stays, which is none for a state at which the decision begins. -/
theorem computeTarget_verdict (underway : Underway env s) {n m : Nat} {symbol : Int} {j j' : Journal}
    (ran : ((computeTarget env n symbol).run s).run j = some ((.target m, s'), j')) :
    ∃ reach t, (s.cache.dfa env.decision).Afresh env.net env.decision ((s.cache.dfa env.decision).state n).configs
        symbol (some reach) ∧
      (s.cache.dfa env.decision).StandsFor env.net s.mode env.decision (s'.cache.dfa env.decision) reach m t ∧
      (t.verdict = verdictOf env.net s.mode (env.net.choices env.decision) reach ↔
        ∀ k, (s.cache.dfa env.decision).find? reach.identity = some k →
          ((s.cache.dfa env.decision).state k).verdict =
            verdictOf env.net s.mode (env.net.choices env.decision) reach) := by
  have telling := underway.telling
  obtain ⟨-, found⟩ := computeTarget_stands telling.toRecording telling.judged n symbol j _ s' j' ran
  obtain ⟨reach, t, afresh, stands⟩ := found m rfl
  exact ⟨reach, t, afresh, stands, stands.verdict_iff⟩

/-- A prediction of the first decision, with guards that hold. -/
def firstDecision (net : Network) : Env Unit where
  net := net
  decision := 0
  startState := ((DfaCache.ofNetwork net).dfa 0).networkState
  precedenceLoop := ((DfaCache.ofNetwork net).dfa 0).precedence
  evaluator := { predicate _ _ h := (true, h), precedence _ h := (true, h) }
  fuel := 30

/-- Between two alternatives that are the same the state behind the token needs full context. -/
theorem computeTarget_verdict_twins : ∃ compiled net, twins.compile = .ok compiled ∧
    Network.decode compiled.words true = .ok net ∧ ∃ s s' j j' reach t, Underway (firstDecision net) s ∧
    ((computeTarget (firstDecision net) 0 1).run s).run j = some ((.target 1, s'), j') ∧
    (s.cache.dfa 0).StandsFor net s.mode 0 (s'.cache.dfa 0) reach 1 t ∧ t.verdict = ⟨true, true, 1, none⟩ := by
  have answer : (do
      let net ← (Network.decode (← twins.compile.toOption).words true).toOption
      let ((_, s), j) ← ((startState (firstDecision net) 0).run (twinSimulator net)).run #[]
      let ((e, s'), _) ← ((computeTarget (firstDecision net) 0 1).run s).run j
      return (e, (← (s'.cache.dfa 0).states[1]?).verdict)) = some (.target 1, ⟨true, true, 1, none⟩) := by cbv
  simp only [Option.bind_eq_bind, Option.bind_eq_some_iff] at answer
  obtain ⟨compiled, compiles, net, decodes, ⟨⟨n, s⟩, j⟩, started, ⟨⟨e, s'⟩, j'⟩, ran, t, found, same⟩ := answer
  obtain ⟨rfl, verdict⟩ := Prod.mk.inj (Option.some.inj same)
  have underway : Underway (firstDecision net) s := .started (.begun .fresh rfl rfl rfl) started
  obtain ⟨reach, t', -, stands, -⟩ := computeTarget_verdict underway ran
  obtain rfl : t = t' := Option.some.inj (found.symm.trans stands.registered)
  exact ⟨compiled, net, except_ok_of_some compiles, except_ok_of_some decodes, s, s', j, j', reach, t, underway, ran,
    stands, verdict⟩

/-- A rule that begins with two alternatives without a token, and a loop behind them. -/
def idle : Grammar :=
  (Grammar.parser "Idle" { literalNames := [none, some "'a'", some "'b'"] })
    |>.rule "s" (.seq [.alt [.seq [], .seq []], .star (.literal "a"), .literal "b"])

/-- The loop leads back to where the decision begins. There nothing is said of the decision, although the
alternatives conflict in what is found. -/
theorem computeTarget_meets_start : ∃ compiled net, idle.compile = .ok compiled ∧
    Network.decode compiled.words true = .ok net ∧ ∃ s s' j j' reach w t, Underway (firstDecision net) s ∧
    ((computeTarget (firstDecision net) 0 1).run s).run j = some ((.target 0, s'), j') ∧
    (reachSet (firstDecision net) ((s.cache.dfa 0).state 0).configs 1 false).run { hooks := () } =
      some (some reach, w) ∧
    (s'.cache.dfa 0).states[0]? = some t ∧ t.configs.identity = reach.identity ∧
    t.verdict = ({} : Verdict) ∧ verdictOf net s.mode (net.choices 0) reach = ⟨true, true, 1, none⟩ := by
  have answer : (do
      let net ← (Network.decode (← idle.compile.toOption).words true).toOption
      let ((_, s), j) ← ((startState (firstDecision net) 0).run (twinSimulator net)).run #[]
      let ((e, s'), _) ← ((computeTarget (firstDecision net) 0 1).run s).run j
      let (result, _) ← (reachSet (firstDecision net) ((s.cache.dfa 0).state 0).configs 1 false).run { hooks := () }
      let reach ← result
      let t ← (s'.cache.dfa 0).states[0]?
      return (e, t.configs.identity == reach.identity, t.verdict, verdictOf net s.mode (net.choices 0) reach)) =
        some (.target 0, true, ({} : Verdict), ⟨true, true, 1, none⟩) := by cbv
  simp only [Option.bind_eq_bind, Option.bind_eq_some_iff] at answer
  obtain ⟨compiled, compiles, net, decodes, ⟨⟨n, s⟩, j⟩, started, ⟨⟨e, s'⟩, j'⟩, ran, ⟨result, w⟩, simulated, reach,
    rfl, t, found, same⟩ := answer
  simp only [Option.pure_def, Option.some.injEq, Prod.mk.injEq] at same
  obtain ⟨rfl, identity, verdict, conflict⟩ := same
  have underway : Underway (firstDecision net) s := .started (.begun .fresh rfl rfl rfl) started
  exact ⟨compiled, net, except_ok_of_some compiles, except_ok_of_some decodes, s, s', j, j', reach, w, t, underway, ran,
    simulated, found, beq_iff_eq.1 identity, verdict, conflict⟩

end Simulator

end AdaptiveLL
