import AdaptiveLL.Proofs.Prediction.Labels
import AdaptiveLL.Proofs.Prediction.Refuelled
import AdaptiveLL.Proofs.Prediction.Settling

/-!
# Where a decision begins at the end of a rule

At the end of the input nothing is left but configurations at the end of a rule, and of these a state says that the
decision ends there. Only a state at which the decision begins says nothing. So where no decision begins with
configurations that are all at the end of a rule (`Dfa.Opens`), the end of the input ends the local part of a
prediction (`target_ends`). Elsewhere it may come back to where it began, and the prediction goes round forever
(`predict_circles`).
-/

set_option autoImplicit false

namespace AdaptiveLL

open Session Prediction

variable {net : Network} {decision : Nat} {configs : ConfigSet}

/-! ## Sets at the end of a rule -/

namespace Prediction

/-- Whether all configurations are at the end of a rule shows in the identity of their set. -/
theorem allAtStop_congr {s s' : ConfigSet} (same : s.identity = s'.identity) : allAtStop net s = allAtStop net s' := by
  have alike := ConfigSet.alike_of_identity same
  have places (s : ConfigSet) : allAtStop net s = true ↔ ∀ q, s.At q → net.isStop q.state = true := by
    rw [allAtStop_iff]
    constructor
    · rintro all q ⟨c, member, rfl⟩
      exact all c member
    · exact fun all c member => all c.place ⟨c, member, rfl⟩
  rw [Bool.eq_iff_iff, places, places]
  exact forall_congr' fun q => by rw [alike q]

/-- Of configurations that are all at the end of a rule a state says that the decision ends. -/
theorem verdictOf_accepts (mode : PredictionMode) (count : Nat) (atStop : allAtStop net configs = true) :
    (verdictOf net mode count configs).accepts = true := by
  have kept (s : DfaState) : (guardState count s).accepts = s.accepts := by
    unfold guardState
    split
    · dsimp only
      split <;> rfl
    · rfl
  have ends : endsInConflict net mode configs = true := by
    rw [endsInConflict, atStop, Bool.true_or]
  change (stateOf net mode count 0 configs).accepts = true
  unfold stateOf
  rw [kept]
  dsimp only
  split
  · rfl
  · rfl

end Prediction

/-! ## Automata -/

namespace Dfa

variable {d d' : Dfa}

theorem state_of_getElem? {n : Nat} {t : DfaState} (found : d.states[n]? = some t) : d.state n = t := by
  rw [Dfa.state, Array.getD_eq_getD_getElem?, found]
  rfl

/-- Wherever the decision begins some configuration is not at the end of a rule. -/
def Opens (net : Network) (d : Dfa) : Prop := ∀ n, d.IsStart n → allAtStop net (d.state n).configs = false

/-- A start state that is kept opens as before. -/
theorem Opens.keep (opens : d.Opens net) (starts : ∀ n, d'.IsStart n → d.IsStart n)
    (kept : ∀ (n : Nat) (t : DfaState), d.states[n]? = some t → ∃ t' : DfaState, d'.states[n]? = some t' ∧
      t'.configs = t.configs) : d'.Opens net := by
  intro n isStart
  have before := opens n (starts n isStart)
  cases found : d.states[n]? with
  | none =>
    -- Where no state is registered there are no configurations.
    rw [Dfa.state, Array.getD_eq_getD_getElem?, found] at before
    have none' : allAtStop net (.ofParser false) = true :=
      allAtStop_iff.2 fun c member => by simp [ConfigSet.ofParser] at member
    exact absurd (none'.symm.trans before).symm Bool.false_ne_true
  | some t =>
    obtain ⟨t', found', same⟩ := kept n t found
    rw [state_of_getElem? found', same, ← state_of_getElem? found]
    exact before

theorem Opens.addState (opens : d.Opens net) (t : DfaState) (table : Context.Table) :
    (d.addState t table).2.1.Opens net := by
  rcases d.addState_cases t table with same | ⟨-, pushed⟩
  · rw [same]
    exact opens
  · rw [pushed]
    refine opens.keep (fun _ => id) fun n u found => ⟨u, ?_, rfl⟩
    obtain ⟨inside, -⟩ := Array.getElem?_eq_some_iff.1 found
    exact (Array.getElem?_push_lt inside).trans ((Array.getElem?_eq_getElem inside).symm.trans found)

theorem Opens.setEdge (opens : d.Opens net) (n i : Nat) (e : DfaEdge) : (d.setEdge n i e).Opens net := by
  refine opens.keep (fun _ => id) fun k t found => ?_
  rw [getElem?_setEdge, found]
  split
  · exact ⟨t.setEdge i e, rfl, rfl⟩
  · exact ⟨t, rfl, rfl⟩

/-- What is found afresh at the end of the input is at the end of a rule. -/
theorem Afresh.atStop {reach : ConfigSet} (afresh : Afresh net decision d configs endOfInput (some reach)) :
    allAtStop net reach = true := by
  obtain ⟨enough, run⟩ := afresh
  obtain ⟨scratch, ran⟩ := run ⟨fun _ _ h => (true, h), fun _ h => (true, h)⟩ () enough (Nat.le_refl _)
  exact reachSet_atStop (.inl rfl) _ _ ran reach rfl

/-- A state with configurations that are all at the end of a rule ends the decision. -/
theorem Tells.accepts {n : Nat} {t : DfaState} (tells : d.Tells net decision n t) (opens : d.Opens net)
    (found : d.states[n]? = some t) (atStop : allAtStop net t.configs = true) : t.accepts = true := by
  rcases tells with ⟨isStart, -⟩ | ⟨mode, same⟩
  · have notStop := opens n isStart
    rw [state_of_getElem? found, atStop] at notStop
    cases notStop
  · exact (congrArg Verdict.accepts same).trans (verdictOf_accepts mode _ atStop)

end Dfa

namespace Simulator

variable {η : Type} {env : Env η} {s : Simulator η} {n : Nat} {symbol : Int}

/-! ## Following a token -/

theorem register_opens (opens : (s.cache.dfa env.decision).Opens env.net) (t : DfaState) :
    Leads (register env.decision t) s fun _ s' => (s'.cache.dfa env.decision).Opens env.net := by
  refine .of_modifyGet ?_
  rcases DfaCache.dfa_addState_cases s.cache env.decision t with ⟨-, same⟩ | changed
  · exact (same env.decision).symm ▸ opens
  · exact ((changed env.decision).trans (if_pos rfl)).symm ▸ opens.addState t _

theorem recordEdge_opens (opens : (s.cache.dfa env.decision).Opens env.net) (n : Nat) (symbol : Int) (e : DfaEdge) :
    Leads (recordEdge env n symbol e) s fun _ s' => (s'.cache.dfa env.decision).Opens env.net := by
  unfold recordEdge
  split
  · refine .of_modify ?_
    rcases DfaCache.dfa_modifyDfa_cases s.cache env.decision _ with same | changed
    · exact (same env.decision).symm ▸ opens
    · exact ((changed env.decision).trans (if_pos rfl)).symm ▸ opens.setEdge _ _ _
  · exact .pure opens

/-- To follow a token does not change where the decision begins. -/
theorem target_opens (opens : (s.cache.dfa env.decision).Opens env.net) (n : Nat) (symbol : Int) :
    Leads (target env n symbol) s fun _ s' => (s'.cache.dfa env.decision).Opens env.net := by
  refine .get_bind ?_
  split
  · exact .modify_bind (.pure opens)
  · refine .modify_bind (.get_bind ((Reading.onConfigs _ _).bind fun result s₁ same => ?_))
    have opens₁ : (s₁.cache.dfa env.decision).Opens env.net := same ▸ opens
    cases result with
    | none => exact (recordEdge_opens opens₁ n symbol .dead).bind fun _ _ opens₂ => .pure opens₂
    | some reach =>
      exact .get_bind ((register_opens opens₁ _).bind fun m _ opens₂ =>
        (recordEdge_opens opens₂ n symbol (.target m)).bind fun _ _ opens₃ => .pure opens₃)

/-- At the end of the input a state is met whose configurations are all at the end of a rule. -/
theorem target_atStop (telling : Telling env s) (n : Nat) :
    Leads (target env n endOfInput) s fun edge s' => ∀ m, edge = .target m →
      ∃ t, (s'.cache.dfa env.decision).states[m]? = some t ∧ allAtStop env.net t.configs = true := by
  refine .get_bind ?_
  split
  · rename_i e recorded
    refine .modify_bind (.pure fun m isTarget => ?_)
    obtain ⟨i, place, edge⟩ := Option.bind_eq_some_iff.1 recorded
    have isEnd : (i : Int) - 1 = endOfInput := by
      unfold edgePlace? at place
      split at place
      · cases place
        rfl
      · cases place
    cases found : (s.cache.dfa env.decision).states[n]? with
    | none =>
      rw [Dfa.state, Array.getD_eq_getD_getElem?, found] at edge
      cases edge
    | some t =>
      rw [Dfa.state_of_getElem? found] at edge
      obtain ⟨result, afresh, dead, leads⟩ :=
        (telling.recorded env.decision).edges t (Array.mem_of_getElem? found) i e edge
      rw [isEnd] at afresh
      cases result with
      | none => cases (dead.2 rfl).symm.trans isTarget
      | some reach =>
        obtain ⟨m', u, isTarget', found', same⟩ := leads reach rfl
        cases isTarget'.symm.trans isTarget
        exact ⟨u, found', (allAtStop_congr same).trans afresh.atStop⟩
  · refine .modify_bind ?_
    have telling' : Telling env { s with stats := { s.stats with networkSteps := s.stats.networkSteps + 1 } } :=
      ⟨telling.toRecording.of_eq rfl rfl, telling.judged⟩
    refine (computeTarget_stands telling'.toRecording telling'.judged n endOfInput).imp ?_
    intro edge s' known m isTarget
    obtain ⟨reach, t, afresh, stands⟩ := known.2 m isTarget
    exact ⟨t, stands.registered, (allAtStop_congr stands.identity).trans afresh.atStop⟩

/-- The end of the input ends the local part of a prediction. -/
theorem target_ends (telling : Telling env s) (opens : (s.cache.dfa env.decision).Opens env.net) (n : Nat) :
    Leads (target env n endOfInput) s fun edge s' => ∀ m, edge = .target m →
      ((s'.cache.dfa env.decision).state m).accepts = true := by
  refine ((target_atStop telling n).and ((telling.target n endOfInput).and (target_opens opens n endOfInput))).imp ?_
  rintro edge s' ⟨atStop, telling', opens'⟩ m isTarget
  obtain ⟨t, found, stopped⟩ := atStop m isTarget
  rw [Dfa.state_of_getElem? found]
  exact (telling'.judged env.decision m t found).accepts opens' found stopped

/-! ## Going round -/

/-- A state that says nothing, and to which the end of the input leads back. -/
structure Circles (net : Network) (n : Nat) (t : DfaState) : Prop where
  refuses : t.accepts = false
  undisturbed : t.needsFullContext = false
  back : (edgePlace? net endOfInput).bind t.edge? = some (.target n)

/-- Such a state is never left, whatever the fuel. -/
theorem runLocal_circles {t : DfaState} (found : (s.cache.dfa env.decision).states[n]? = some t)
    (circles : Circles env.net n t) (start : Nat) (outer : Context) (rounds : Nat) :
    Leads (runLocal env start outer rounds n endOfInput) s fun _ _ => False := by
  induction rounds generalizing s with
  | zero => exact .of_failure
  | succ rounds ih =>
    have isState := Dfa.state_of_getElem? found
    have here : Leads (target env n endOfInput) s fun edge s' => edge = .target n ∧ s'.cache = s.cache := by
      refine .get_bind ?_
      rw [isState, circles.back]
      exact .modify_bind (.pure ⟨rfl, rfl⟩)
    refine here.bind ?_
    rintro edge s₁ ⟨rfl, same⟩
    refine .get_bind (.get_bind ?_)
    rw [same, isState, circles.refuses, circles.undisturbed]
    exact ih (same ▸ found)

/-- A prediction that the end of the input leads to such a state never ends. -/
theorem runLocal_enters {s' : Simulator η} {enough n m : Nat} {j j' : Journal} {t : DfaState}
    (followed : ((target (env.fueled enough) n endOfInput).run s).run j = some ((.target m, s'), j'))
    (found : (s'.cache.dfa env.decision).states[m]? = some t) (circles : Circles env.net m t) (start : Nat)
    (outer : Context) (rounds : Nat) : Stalls (runLocal env start outer rounds n endOfInput) s j := by
  cases rounds with
  | zero => rfl
  | succ rounds =>
    refine .bind fun edge s₁ j₁ here => ?_
    have here : ((target (env.fueled env.fuel) n endOfInput).run s).run j = some ((edge, s₁), j₁) := here
    cases Refuels.unique (fun le => target_refuels env le n endOfInput) here followed
    refine .of_leads (.get_bind (.get_bind ?_))
    rw [Dfa.state_of_getElem? found, circles.refuses, circles.undisturbed]
    exact runLocal_circles found circles start outer rounds

/-- If some amount of fuel brings a prediction to the end of the input and from there to such a state, then it does not
end with any amount of fuel. -/
theorem predict_circles {net : Network} {evaluator : Guard.Evaluator η} {decision enough n m : Nat} {precedence : Int}
    {s₁ s₂ s₃ : Simulator η} {j j₁ j₂ j₃ : Journal} {t : DfaState}
    (started : ((startState (deciding net evaluator decision s enough) precedence).run s.begun).run j =
      some ((n, s₁), j₁))
    (looked : ((onStream (TokenStream.la enough 1)).run s₁).run j₁ = some ((endOfInput, s₂), j₂))
    (followed : ((target (deciding net evaluator decision s enough) n endOfInput).run s₂).run j₂ =
      some ((.target m, s₃), j₃))
    (found : (s₃.cache.dfa decision).states[m]? = some t) (circles : Circles net m t) (fuel : Nat)
    (callStack : List Nat) : Stalls (predict net fuel evaluator decision callStack precedence) s j := by
  let env := deciding net evaluator decision s 0
  refine .modify_bind (.get_bind (.get_bind (.modify_bind (.bind fun n' s₁' j₁' started' => ?_))))
  cases Refuels.unique (fun le => startState_refuels env le precedence) started started'
  refine .bind fun symbol s₂' j₂' looked' => ?_
  cases Refuels.unique (fun le => onStream_refuels (TokenStream.la_refuels le 1)) looked looked'
  have followed : ((target ((env.fueled fuel).fueled enough) n endOfInput).run s₂).run j₂ =
      some ((.target m, s₃), j₃) := followed
  exact .first (runLocal_enters followed found circles _ _ fuel)

/-- A left-recursive rule with one operator. -/
def suffixed : Grammar :=
  (Grammar.parser "Suffixed" { literalNames := [none, some "'a'", some "'b'"] })
    |>.leftRecursive "e" [.literal "a"] [.suffix (.literal "b")]

/-- Precedence predicates at a precedence. -/
def bindingFrom (least : Int) : Guard.Evaluator Unit where
  predicate _ _ h := (true, h)
  precedence p h := (decide (least ≤ p), h)

/-- A prediction of the loop over the operators. -/
def suffixedEnv (net : Network) (least : Int) : Env Unit where
  net := net
  decision := 0
  startState := ((DfaCache.ofNetwork net).dfa 0).networkState
  precedenceLoop := ((DfaCache.ofNetwork net).dfa 0).precedence
  evaluator := bindingFrom least
  fuel := 30

/-- A simulator over no tokens that has learned nothing. -/
def idleSimulator (net : Network) : Simulator Unit where
  cache := .ofNetwork net
  mode := .ll
  stream := { source := .list { tokens := #[] } () }

theorem suffixedEnv_eq (net : Network) (least : Int) :
    suffixedEnv net least = deciding net (bindingFrom least) 0 (idleSimulator net) 30 := rfl

/-- At a precedence that no operator reaches the loop can only be left, so the decision begins at the end of the rule.
At the end of the input its prediction goes round forever. -/
theorem predict_circles_suffixed : ∃ compiled net, suffixed.compile = .ok compiled ∧
    Network.decode compiled.words true = .ok net ∧
    (∀ fuel j, ((predict net fuel (bindingFrom 2) 0 [] 2).run (idleSimulator net)).run j = none) ∧
    ∃ s, Underway (suffixedEnv net 2) s ∧ (s.cache.dfa 0).precedenceStart? 2 = some 0 ∧ s.stream.index = 0 ∧
      ∀ fuel start outer rounds j,
        ((runLocal ((suffixedEnv net 2).fueled fuel) start outer rounds 0 endOfInput).run s).run j = none := by
  have answer (j : Journal) : (do
      let net ← (Network.decode (← suffixed.compile.toOption).words true).toOption
      let ((n, s₁), j₁) ← ((startState (suffixedEnv net 2) 2).run (idleSimulator net).begun).run j
      let ((symbol, s₂), j₂) ← ((onStream (TokenStream.la 30 1)).run s₁).run j₁
      let ((edge, s₃), _) ← ((target (suffixedEnv net 2) 0 endOfInput).run s₂).run j₂
      let t ← (s₃.cache.dfa 0).states[0]?
      return ((n, symbol, edge), t.accepts, t.needsFullContext, (edgePlace? net endOfInput).bind t.edge?,
        (s₃.cache.dfa 0).precedenceStart? 2, s₃.stream.index)) =
      some ((0, endOfInput, .target 0), false, false, some (.target 0), some 0, 0) := by cbv
  simp only [Option.bind_eq_bind, Option.bind_eq_some_iff] at answer
  obtain ⟨compiled, compiles, net, decodes, -⟩ := answer #[]
  have circling (j : Journal) : (∀ fuel, Stalls (predict net fuel (bindingFrom 2) 0 [] 2) (idleSimulator net) j) ∧
      ∃ s t, Underway (suffixedEnv net 2) s ∧ (s.cache.dfa 0).precedenceStart? 2 = some 0 ∧ s.stream.index = 0 ∧
        (s.cache.dfa 0).states[0]? = some t ∧ Circles net 0 t := by
    obtain ⟨compiled', compiles', net', decodes', ⟨⟨n, s₁⟩, j₁⟩, started, ⟨⟨symbol, s₂⟩, j₂⟩, looked,
      ⟨⟨edge, s₃⟩, j₃⟩, followed, t, found, same⟩ := answer j
    cases compiles.symm.trans compiles'
    cases decodes.symm.trans decodes'
    simp only [Option.pure_def, Option.some.injEq, Prod.mk.injEq] at same
    obtain ⟨⟨rfl, rfl, rfl⟩, refuses, undisturbed, back, isStart, index⟩ := same
    have circles : Circles net 0 t := ⟨refuses, undisturbed, back⟩
    have underway : Underway (suffixedEnv net 2) s₃ :=
      .followed (.moved (.started (.begun .fresh rfl rfl rfl) started) looked) followed
    refine ⟨fun fuel => ?_, s₃, t, underway, isStart, index, found, circles⟩
    rw [suffixedEnv_eq] at started followed
    exact predict_circles started looked followed found circles fuel []
  obtain ⟨-, s, t, underway, isStart, index, found, circles⟩ := circling #[]
  refine ⟨compiled, net, except_ok_of_some compiles, except_ok_of_some decodes, fun fuel j => (circling j).1 fuel,
    s, underway, isStart, index, fun fuel start outer rounds j => ?_⟩
  have circles' : Circles ((suffixedEnv net 2).fueled fuel).net 0 t := circles
  exact Stalls.of_leads (runLocal_circles found circles' start outer rounds)

end Simulator

end AdaptiveLL
