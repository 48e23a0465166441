import AdaptiveLL.Proofs.Prediction.Grounds
import AdaptiveLL.Proofs.Prediction.Landing
import AdaptiveLL.Proofs.Prediction.Opening
import AdaptiveLL.Proofs.Prediction.Posing
import AdaptiveLL.Proofs.Tokens.Passing
import AdaptiveLL.Proofs.Tokens.Refuelled

/-!
# Predictions end

A prediction follows the tokens one by one. Each of its steps ends, with enough fuel always in the same way, so what
is left is the end of the input, behind which there is no token to move on to. With full context the end of the input
settles the prediction (`reachSet_settled`), and with local context it ends it (`target_ends`), if nowhere the decision
begins with configurations that are all at the end of a rule.

So a prediction ends over every stream of finitely many tokens, in every mode, with everything that may have been
learned before and below every call stack (`predict_halts`).
-/

set_option autoImplicit false

namespace AdaptiveLL

open Session Prediction Filter

namespace Prediction

variable {η : Type} {env : Env η} {net : Network} {home : Nat} {hooks : η} {s : ConfigSet} {w : Scratch η}

/-- What is known where every prediction ends. -/
structure Terminating (env : Env η) : Prop where
  ending : Ending env.net
  ruled : env.net.Ruled
  stateless : env.evaluator.Stateless

theorem Terminating.fueled (terminating : Terminating env) (fuel : Nat) : Terminating (env.fueled fuel) :=
  ⟨terminating.ending, terminating.ruled, terminating.stateless⟩

theorem ask_kept (stateless : env.evaluator.Stateless) (kept : Kept net home hooks w) (g : Guard) :
    Leaves (ask env g) w fun _ => Kept net home hooks := by
  intro a w' ran
  cases ran
  exact ⟨kept.homing, (Guard.eval_stateless stateless g _).trans kept.hooks⟩

theorem answerGuards_kept (stateless : env.evaluator.Stateless) (cs : List Config) (kept : Kept net home hooks w) :
    Leaves (answerGuards env cs) w fun _ => Kept net home hooks := by
  induction cs generalizing w with
  | nil => exact .pure kept
  | cons c rest ih =>
    exact (ask_kept stateless kept c.guard).bind fun holds w₁ kept₁ => (ih kept₁).bind fun _ _ kept₂ => .pure kept₂

theorem fallbackAlt_kept (stateless : env.evaluator.Stateless) (s : ConfigSet) (kept : Kept net home hooks w) :
    Leaves (fallbackAlt env s) w fun _ => Kept net home hooks := by
  refine (answerGuards_kept stateless _ kept).bind fun answered w₁ kept₁ => ?_
  generalize answered.partition (·.2) = parts
  obtain ⟨valid, invalid⟩ := parts
  exact .pure kept₁

theorem enabledAlts_kept (stateless : env.evaluator.Stateless) (alts : List GuardedAlt) (kept : Kept net home hooks w) :
    Leaves (enabledAlts env alts) w fun _ => Kept net home hooks := by
  refine Leaves.foldlM (P := fun _ _ => Kept net home hooks) kept fun _ p enabled w' _ kept' => ?_
  exact (ask_kept stateless kept' p.guard).bind fun holds w₁ kept₁ => .pure kept₁

end Prediction

namespace Simulator

variable {η α : Type} {env : Env η} {net : Network} {home start p : Nat} {tape : TokenTape} {pos : Option Nat}
  {s : Simulator η} {configs : ConfigSet}

/-! ## Steps -/

/-- The prediction is at a place of a tape, and what it remembers of merges leads home. -/
structure Standing (net : Network) (home : Nat) (tape : TokenTape) (pos : Option Nat) (s : Simulator η) : Prop where
  displays : s.stream.Displays tape pos
  homing : s.merges.Homing net home

/-- A step on sets of configurations ends and leaves the stream alone. -/
theorem Standing.finds (standing : Standing net home tape pos s) {step : Nat → ScratchM η α} {R : α → Prop}
    (settles : ∀ w, Settles step w fun _ _ => True)
    (leaves : ∀ fuel w, Kept net home s.stream.hooks w → Leaves (step fuel) w fun a w' =>
      Kept net home s.stream.hooks w' ∧ R a) :
    Halts (fun fuel => onConfigs (step fuel)) s fun a s' =>
      Standing net home tape pos s' ∧ s'.cache = s.cache ∧ R a := by
  obtain ⟨a, w, ran, -, kept, holds⟩ := (settles { merges := s.merges, hooks := s.stream.hooks }).and fun fuel =>
    leaves fuel _ ⟨standing.homing, rfl⟩
  have displays : (s.stream.setHooks w.hooks).Displays tape pos := by
    rw [kept.hooks, TokenStream.setHooks_hooks]
    exact standing.displays
  let found : Simulator η := { s with merges := w.merges, stream := s.stream.setHooks w.hooks }
  refine .get_bind (.congr (y := fun _ => (do
    set found
    return a : PredictM η α)) (fun j => ⟨a, found, j, .of_forall fun _ => rfl, ⟨displays, kept.homing⟩, rfl, holds⟩) ?_)
  filter_upwards [ran] with fuel ran
  rw [ran]

/-- A step on sets of configurations of which nothing more is asked. -/
theorem Standing.onConfigs (standing : Standing net home tape pos s) {step : Nat → ScratchM η α}
    (settles : ∀ w, Settles step w fun _ _ => True)
    (leaves : ∀ fuel w, Kept net home s.stream.hooks w → Leaves (step fuel) w fun _ => Kept net home s.stream.hooks) :
    Halts (fun fuel => Simulator.onConfigs (step fuel)) s fun _ s' => Standing net home tape pos s' := by
  refine (standing.finds (R := fun _ => True) settles fun fuel w kept => ?_).imp fun _ _ known => known.1
  exact (leaves fuel w kept).imp fun _ _ kept' => ⟨kept', trivial⟩

theorem onStream_halts {step : Nat → TokenStream.StreamM η α} {Q : α → TokenStream η → Prop}
    (halts : Halts step s.stream Q) :
    Halts (fun fuel => onStream (step fuel)) s fun a s' => ∃ stream, s' = { s with stream } ∧ Q a stream :=
  .get_bind (.part_bind halts fun _ stream holds => .of_fixed fun j => ⟨_, _, j, rfl, stream, rfl, holds⟩)

theorem Standing.la (standing : Standing net home tape pos s) :
    Halts (fun fuel => onStream (TokenStream.la fuel 1)) s fun type s' =>
      Standing net home tape (some (tape.current pos)) s' ∧ type = tape.typeAt (tape.current pos) := by
  refine (onStream_halts standing.displays.la).imp ?_
  rintro type s' ⟨stream, rfl, displays, same⟩
  exact ⟨⟨displays, standing.homing⟩, same⟩

theorem Standing.returnTo (standing : Standing net home tape pos s) (i : Nat) :
    Halts (fun fuel => onStream (TokenStream.returnTo fuel i)) s fun _ s' =>
      Standing net home tape (some (tape.firstFrom i)) s' := by
  refine (onStream_halts (standing.displays.returnTo i)).imp ?_
  rintro _ s' ⟨stream, rfl, displays⟩
  exact ⟨displays, standing.homing⟩

theorem Standing.consume (standing : Standing net home tape pos s) :
    Halts (fun fuel => onStream (TokenStream.consume fuel)) s fun _ s' =>
      Standing net home tape (tape.call pos .consume).2 s' := by
  refine (onStream_halts standing.displays.consume).imp ?_
  rintro _ s' ⟨stream, rfl, displays⟩
  exact ⟨displays, standing.homing⟩

/-! ## The automaton -/

/-- A simulation from sets of configurations, whatever the fuel, remembers only merges that lead home. -/
theorem upholds_fueled (stateless : env.evaluator.Stateless) (home : Nat) (full : Bool) (fuel : Nat) (hooks : η) :
    Upholds (env.fueled fuel) full (fun _ => True) (fun _ => True) fun _ w => Kept env.net home hooks w :=
  upholds_kept (show (env.fueled fuel).evaluator.Stateless from stateless) hooks

/-- What changes neither the stream nor the remembered merges. -/
theorem Standing.of_eq {s' : Simulator η} (standing : Standing net home tape pos s) (stream : s'.stream = s.stream)
    (merges : s'.merges = s.merges) : Standing net home tape pos s' :=
  ⟨stream ▸ standing.displays, merges ▸ standing.homing⟩

theorem Standing.register (standing : Standing net home tape pos s) (decision : Nat) (t : DfaState) :
    Halts (fun _ => register decision t) s fun _ s' => Standing net home tape pos s' :=
  .of_modifyGet (standing.of_eq rfl rfl)

theorem Standing.modifyDfa (standing : Standing net home tape pos s) (decision : Nat) (f : Dfa → Dfa) :
    Halts (fun _ => modifyDfa decision f) s fun _ s' => Standing net home tape pos s' :=
  .of_fixed (.of_modify (standing.of_eq rfl rfl))

theorem Standing.recordEdge (standing : Standing net home tape pos s) (n : Nat) (symbol : Int) (e : DfaEdge) :
    Halts (fun fuel => recordEdge (env.fueled fuel) n symbol e) s fun _ s' => Standing net home tape pos s' := by
  change Halts (fun _ => Simulator.recordEdge env n symbol e) s _
  unfold Simulator.recordEdge
  split
  · exact standing.modifyDfa _ _
  · exact .pure standing

theorem dfa_bind {β : Type} {decision : Nat} {f : Nat → Dfa → PredictM η β} {Q : β → Simulator η → Prop}
    (rest : Halts (fun fuel => f fuel (s.cache.dfa decision)) s Q) : Halts (fun fuel => dfa decision >>= f fuel) s Q :=
  rest

section Automaton

variable (terminating : Terminating env) (standing : Standing env.net home tape pos s)
include terminating standing

theorem startState_halts (precedence : Int) : Halts (fun fuel => startState (env.fueled fuel) precedence) s fun _ s' =>
    Standing env.net home tape pos s' := by
  have upholds := upholds_fueled terminating.stateless home false
  have recorded {s : Simulator η} (standing : Standing env.net home tape pos s) (configs : ConfigSet) (width : Nat)
      (f : Dfa → Nat → Nat × Dfa) : Halts (fun _ => do
        let n ← register env.decision (.ofConfigs configs width)
        let started := f (← dfa env.decision) n
        modifyDfa env.decision fun _ => started.2
        return started.1) s fun _ s' => Standing env.net home tape pos s' :=
    (standing.register _ _).bind fun n s₁ standing₁ =>
      .get_bind ((standing₁.modifyDfa _ _).bind fun _ _ standing₂ => .pure standing₂)
  unfold startState
  simp only [decision_fueled]
  refine dfa_bind ?_
  generalize (if (s.cache.dfa env.decision).precedence = true then
    (s.cache.dfa env.decision).precedenceStart? precedence else (s.cache.dfa env.decision).start) = known
  cases known with
  | some n => exact .pure standing
  | none =>
    refine (standing.onConfigs (fun w => startSet_settles terminating.ending .empty false) fun fuel w kept =>
      startSet_upholds (upholds fuel _) kept fun _ _ _ => trivial).bind fun configs s₁ standing₁ => ?_
    refine .ite (fun _ => ?_) fun _ => recorded standing₁ configs _ fun d n => d.setStart n
    refine (standing₁.onConfigs (fun w => precedenceFilter_settles configs w) fun fuel w kept =>
      precedenceFilter_upholds (upholds fuel _) (fun _ _ _ _ _ => trivial) kept).bind fun configs' s₂ standing₂ => ?_
    exact recorded standing₂ configs' _ fun d n => d.setPrecedenceStart precedence n

theorem computeTarget_halts (n : Nat) (symbol : Int) :
    Halts (fun fuel => computeTarget (env.fueled fuel) n symbol) s fun _ s' => Standing env.net home tape pos s' := by
  unfold computeTarget
  simp only [net_fueled, decision_fueled]
  refine dfa_bind ?_
  refine (standing.onConfigs (fun w => reachSet_settles terminating.ending _ symbol false w) fun fuel w kept => ?_).bind
    fun result s₁ standing₁ => ?_
  · exact (reachSet_upholds (upholds_fueled terminating.stateless home false fuel _) kept).imp
      fun _ _ known => known.1.elim fun _ => id
  cases result with
  | none => exact (standing₁.recordEdge n symbol .dead).bind fun _ _ standing₂ => .pure standing₂
  | some reach =>
    refine .get_bind ((standing₁.register _ _).bind fun m s₂ standing₂ => ?_)
    exact (standing₂.recordEdge n symbol (.target m)).bind fun _ _ standing₃ => .pure standing₃

theorem target_halts (n : Nat) (symbol : Int) : Halts (fun fuel => target (env.fueled fuel) n symbol) s fun _ s' =>
    Standing env.net home tape pos s' := by
  refine .get_bind ?_
  simp only [net_fueled, decision_fueled]
  generalize ((edgePlace? env.net symbol).bind ((s.cache.dfa env.decision).state n).edge?) = known
  cases known with
  | some e => exact .modify_bind (.pure (standing.of_eq rfl rfl))
  | none =>
    refine .modify_bind (computeTarget_halts terminating ?_ n symbol)
    exact standing.of_eq rfl rfl

end Automaton

/-! ## Outcomes -/

theorem Standing.report (standing : Standing net home tape pos s) (e : Event) :
    Halts (fun _ => report e) s fun _ s' => Standing net home tape pos s' := .of_journal standing

theorem Standing.count (standing : Standing net home tape pos s) (f : Stats → Stats) :
    Halts (fun _ => count f) s fun _ s' => Standing net home tape pos s' :=
  .of_fixed (.of_modify (standing.of_eq rfl rfl))

theorem Standing.fail (standing : Standing net home tape pos s) (offending : Nat) :
    Halts (fun fuel => fail (env.fueled fuel) start offending) s fun _ s' => Standing net home tape pos s' := by
  change Halts (fun _ => Simulator.fail env start offending) s _
  refine (standing.report _).bind fun _ _ standing₁ => ?_
  exact .pure standing₁

theorem failOrFallback_halts (terminating : Terminating env) (standing : Standing env.net home tape pos s) (start : Nat)
    (configs : ConfigSet) : Halts (fun fuel => failOrFallback (env.fueled fuel) start configs) s fun _ s' =>
      Standing env.net home tape pos s' := by
  refine .get_bind ?_
  refine (standing.onConfigs (fun w => fallbackAlt_settles configs w) fun fuel w kept =>
    fallbackAlt_kept (terminating.fueled fuel).stateless configs kept).bind fun alt s₁ standing₁ => ?_
  cases alt with
  | some alt => exact .pure standing₁
  | none => exact standing₁.fail _

theorem Standing.concludeFull (standing : Standing net home tape pos s) (start : Nat) (reach : ConfigSet) (alt : Nat)
    (isExact : Bool) : Halts (fun fuel => concludeFull (env.fueled fuel) start reach alt isExact) s fun _ s' =>
      Standing net home tape pos s' := by
  change Halts (fun _ => Simulator.concludeFull env start reach alt isExact) s _
  refine .get_bind (.ite (fun _ => ?_) fun _ => ?_)
  · refine (standing.count _).bind fun _ _ standing₁ => (standing₁.report _).bind fun _ _ standing₂ => ?_
    exact .pure standing₂
  · refine (standing.count _).bind fun _ _ standing₁ => (standing₁.report _).bind fun _ _ standing₂ => ?_
    exact .pure standing₂

/-! ## Full context -/

/-- A prediction with full context stands at a token, with configurations that have landed. -/
structure Full (net : Network) (home : Nat) (tape : TokenTape) (p : Nat) (s : Simulator η) (configs : ConfigSet) :
    Prop extends Standing net home tape (some p) s where
  landed : ∀ c ∈ configs.configs, c.Landed net home
  valid : configs.Within fun alt _ => alt ≠ invalidAlt

/-- What is found behind a token has landed again. At the end of the input it settles the prediction. -/
structure Found (net : Network) (home : Nat) (symbol : Int) (reach : ConfigSet) : Prop where
  landed : ∀ c ∈ reach.configs, c.Landed net home
  valid : reach.Within fun alt _ => alt ≠ invalidAlt
  settled : symbol = endOfInput → ∀ mode, ∃ outcome,
    settled? mode { reach with uniqueAlt := reach.sharedAlt } = some outcome

theorem reachSet_full (terminating : Terminating env) (full : Full env.net home tape p s configs) (symbol : Int) :
    Halts (fun fuel => onConfigs (reachSet (env.fueled fuel) configs symbol true)) s fun result s' =>
      Standing env.net home tape (some p) s' ∧ ∀ reach, result = some reach → Found env.net home symbol reach := by
  have inherits (fuel : Nat) : (env.fueled fuel).net.Inherits fun alt _ => alt ≠ invalidAlt :=
    fun _ _ _ _ _ _ _ valid => valid
  refine (full.finds (fun w => reachSet_settles terminating.ending configs symbol true w) fun fuel w kept => ?_).imp
    fun result s' known => ⟨known.1, known.2.2⟩
  intro result w' ran
  have landed :=
    reachSet_upholds (upholds_landed (terminating.fueled fuel).ruled) ⟨full.landed, kept.homing⟩ result w' ran
  have valid := reachSet_upholds (upholds_within (inherits fuel)) full.valid result w' ran
  obtain ⟨⟨-, kept'⟩, -⟩ := reachSet_upholds (upholds_fueled terminating.stateless home true fuel _) kept result w' ran
  refine ⟨kept', fun reach found => ⟨?_, ?_, ?_⟩⟩
  · exact (landed.2 reach found).1.1
  · exact (valid.2 reach found).1
  · rintro rfl mode
    exact reachSet_settled (terminating.fueled fuel).ruled full.landed full.valid kept.homing result w' ran reach found

/-- One token with full context. The end of the input is the last one. -/
theorem runFull_step (terminating : Terminating env) (full : Full env.net home tape p s configs) (delay : Nat)
    {Q : Except RecognitionError Nat → Simulator η → Prop}
    (ended : ∀ {pos result s'}, Standing env.net home tape pos s' → Q result s')
    (goesOn : tape.typeAt p ≠ endOfInput → ∃ q, (tape.call (some p) .consume).2 = some q ∧
      ∀ s configs, Full env.net home tape q s configs →
        Halts (fun fuel => runFull (env.fueled fuel) start (fuel - (delay + 1)) configs (tape.typeAt q)) s Q) :
    Halts (fun fuel => runFull (env.fueled fuel) start (fuel - delay) configs (tape.typeAt p)) s Q := by
  let more (fuel : Nat) := runFull (env.fueled fuel) start (fuel - (delay + 1) + 1) configs (tape.typeAt p)
  refine .congr (y := more) ?_ ?_
  · simp only [more, runFull]
    refine (reachSet_full terminating full _).bind fun result s₁ after => ?_
    obtain ⟨standing₁, found⟩ := after
    cases result with
    | none => exact (failOrFallback_halts terminating standing₁ start configs).imp fun _ _ standing₂ => ended standing₂
    | some reach =>
      obtain ⟨landed, valid, settled⟩ := found reach rfl
      refine .get_bind ?_
      cases verdict : settled? s₁.mode { reach with uniqueAlt := reach.sharedAlt } with
      | some outcome =>
        obtain ⟨alt, isExact⟩ := outcome
        refine (standing₁.concludeFull start _ alt isExact).bind fun _ _ standing₂ => ?_
        exact .pure (ended standing₂)
      | none =>
        refine .ite (fun further => ?_) fun atEnd => ?_
        · obtain ⟨q, moves, rest⟩ := goesOn further
          refine standing₁.consume.bind fun _ s₂ standing₂ => ?_
          rw [moves] at standing₂
          refine standing₂.la.bind fun next s₃ seen => ?_
          rw [seen.2]
          exact rest s₃ _ ⟨seen.1, landed, valid.reflag rfl rfl⟩
        · obtain ⟨outcome', same⟩ := settled (not_not.1 atEnd) s₁.mode
          exact absurd (same.symm.trans verdict) (Option.some_ne_none _)
  · filter_upwards [eventually_gt_atTop delay] with fuel enough
    rw [show fuel - delay = fuel - (delay + 1) + 1 by omega]

/-- With full context a prediction ends, at the end of the input at the latest. -/
theorem runFull_halts (terminating : Terminating env) {ts : List Token} (ahead : tape.Ahead p ts)
    (full : Full env.net home tape p s configs) (delay : Nat) :
    Halts (fun fuel => runFull (env.fueled fuel) start (fuel - delay) configs (tape.typeAt p)) s fun _ s' =>
      ∃ pos, Standing env.net home tape pos s' := by
  induction ts generalizing p s configs delay with
  | nil => exact runFull_step terminating full delay (fun standing => ⟨_, standing⟩) fun further =>
      absurd ahead.typeAt_last further
  | cons t ts ih =>
    obtain ⟨-, -, q, moves, rest⟩ := ahead.first
    exact runFull_step terminating full delay (fun standing => ⟨_, standing⟩) fun _ =>
      ⟨q, moves, fun s configs full => ih rest full (delay + 1)⟩

/-- Every alternative begins in a rule from which the context leads home. -/
def BeginsHome (env : Env η) (home : Nat) (outer : Context) : Prop :=
  ∀ i t, (env.net.out env.startState)[i]? = some t → (first i t outer).OnWay env.net home

theorem predictFull_halts (terminating : Terminating env) (standing : Standing env.net home tape pos s) (start : Nat)
    {outer : Context} (begins : BeginsHome env home outer) (conflicting : Option AltSet) :
    Halts (fun fuel => predictFull (env.fueled fuel) start outer conflicting) s fun _ s' =>
      ∃ pos, Standing env.net home tape pos s' := by
  have inherits (fuel : Nat) : (env.fueled fuel).net.Inherits fun alt _ => alt ≠ invalidAlt :=
    fun _ _ _ _ _ _ _ valid => valid
  refine (standing.finds (R := fun configs => (∀ c ∈ configs.configs, c.Landed env.net home) ∧
    configs.Within fun alt _ => alt ≠ invalidAlt) (fun w => startSet_settles terminating.ending outer true) ?_).bind ?_
  · intro fuel w kept configs w' ran
    have kept' := startSet_upholds (upholds_fueled terminating.stateless home true fuel _) kept (fun _ _ _ => trivial)
      configs w' ran
    have landed := startSet_upholds (upholds_landed (terminating.fueled fuel).ruled)
      ⟨fun c member => by simp [ConfigSet.ofParser] at member, kept.homing⟩ begins configs w' ran
    have valid := startSet_upholds (upholds_within (inherits fuel))
      (ConfigSet.within_ofParser true) (fun i t found => (Nat.succ_ne_zero i : _)) configs w' ran
    exact ⟨kept', landed.1, valid⟩
  · rintro configs s₁ ⟨standing₁, -, landed, valid⟩
    refine (standing₁.count _).bind fun _ s₂ standing₂ => .get_bind ?_
    refine Halts.bind (x := fun _ => report (.fullContext env.decision start s₂.stream.index conflicting))
      (standing₂.report _) fun _ s₃ standing₃ => ?_
    refine (standing₃.returnTo start).bind fun _ s₄ standing₄ => ?_
    refine standing₄.la.bind fun symbol s₅ seen => ?_
    rw [seen.2]
    obtain ⟨ts, ahead⟩ := (tape.shows_firstFrom start).ahead
    exact runFull_halts terminating ahead ⟨seen.1, landed, valid⟩ 0

/-! ## Local context -/

theorem enabledAlts_halts (terminating : Terminating env) (standing : Standing env.net home tape pos s)
    (alts : List GuardedAlt) : Halts (fun fuel => onConfigs (enabledAlts (env.fueled fuel) alts)) s fun _ s' =>
      Standing env.net home tape pos s' :=
  standing.onConfigs (fun w => enabledAlts_settles alts w) fun fuel _ kept =>
    enabledAlts_kept (terminating.fueled fuel).stateless alts kept

theorem settleConflict_halts (terminating : Terminating env) (standing : Standing env.net home tape pos s) (start : Nat)
    {outer : Context} (begins : BeginsHome env home outer) (d : DfaState) :
    Halts (fun fuel => settleConflict (env.fueled fuel) start outer d) s fun _ s' =>
      ∃ pos, Standing env.net home tape pos s' := by
  unfold settleConflict
  cases d.predicates with
  | none => exact predictFull_halts terminating standing start begins _
  | some guarded =>
    refine (enabledAlts_halts terminating standing guarded).bind fun enabled s₁ standing₁ => ?_
    refine .ite (fun _ => .pure ⟨pos, standing₁⟩) fun _ => ?_
    exact predictFull_halts terminating standing₁ start begins _

theorem accept_halts (terminating : Terminating env) (standing : Standing env.net home tape pos s) (start : Nat)
    (d : DfaState) : Halts (fun fuel => accept (env.fueled fuel) start d) s fun _ s' =>
      ∃ pos, Standing env.net home tape pos s' := by
  unfold accept
  cases d.predicates with
  | none => exact .pure ⟨pos, standing⟩
  | some guarded =>
    refine (standing.returnTo start).bind fun _ s₁ standing₁ => ?_
    refine (enabledAlts_halts terminating standing₁ guarded).bind fun enabled s₂ standing₂ => ?_
    cases enabled.min? with
    | some alt => exact .pure ⟨_, standing₂⟩
    | none =>
      refine .get_bind ?_
      exact (standing₂.fail _).imp fun _ _ standing₃ => ⟨_, standing₃⟩

/-- A prediction with local context stands at a token. What it has learned is told rightly, and nowhere the decision
begins with configurations that are all at the end of a rule. -/
structure Walking (env : Env η) (home : Nat) (tape : TokenTape) (pos : Option Nat) (s : Simulator η) : Prop
    extends Standing env.net home tape pos s where
  telling : Telling env s
  opens : (s.cache.dfa env.decision).Opens env.net

theorem Telling.fueled (telling : Telling env s) (fuel : Nat) : Telling (env.fueled fuel) s :=
  ⟨⟨telling.recorded, telling.start, telling.loop, telling.faithful⟩, telling.judged⟩

theorem Telling.of_fueled {fuel : Nat} (telling : Telling (env.fueled fuel) s) : Telling env s :=
  ⟨⟨telling.recorded, telling.start, telling.loop, telling.faithful⟩, telling.judged⟩

theorem Walking.target (terminating : Terminating env) (walking : Walking env home tape pos s) (n : Nat)
    (symbol : Int) : Halts (fun fuel => target (env.fueled fuel) n symbol) s fun edge s' =>
      Walking env home tape pos s' ∧ (symbol = endOfInput →
        ∀ m, edge = .target m → ((s'.cache.dfa env.decision).state m).accepts = true) := by
  have telling (fuel : Nat) : Leads (Simulator.target (env.fueled fuel) n symbol) s fun _ s' => Telling env s' :=
    ((walking.telling.fueled fuel).target n symbol).imp fun _ _ => Telling.of_fueled
  have opens (fuel : Nat) : Leads (Simulator.target (env.fueled fuel) n symbol) s fun _ s' =>
      (s'.cache.dfa env.decision).Opens env.net :=
    target_opens (show (s.cache.dfa (env.fueled fuel).decision).Opens (env.fueled fuel).net from walking.opens) n symbol
  have ends (fuel : Nat) : Leads (Simulator.target (env.fueled fuel) n symbol) s fun edge s' => symbol = endOfInput →
      ∀ m, edge = .target m → ((s'.cache.dfa env.decision).state m).accepts = true := by
    rintro j edge s' j' ran rfl
    exact target_ends (walking.telling.fueled fuel) walking.opens n j edge s' j' ran
  refine ((target_halts terminating walking.toStanding n symbol).and fun fuel =>
    (telling fuel).and ((opens fuel).and (ends fuel))).imp ?_
  rintro edge s' ⟨standing', telling', opens', ends'⟩
  exact ⟨⟨standing', telling', opens'⟩, ends'⟩

/-- A step on the stream that ends leads from one token to another one. -/
theorem Walking.onStream (walking : Walking env home tape pos s) {step : Nat → TokenStream.StreamM η α}
    {pos' : Option Nat} {R : α → Prop} (halts : Halts (fun fuel => onStream (step fuel)) s fun a s' =>
      Standing env.net home tape pos' s' ∧ R a) :
    Halts (fun fuel => Simulator.onStream (step fuel)) s fun a s' => Walking env home tape pos' s' ∧ R a := by
  refine (halts.and fun fuel => (walking.telling.onStream (step fuel)).and (Reading.onStream (step fuel) s)).imp ?_
  rintro a s' ⟨⟨standing', holds⟩, telling', same⟩
  exact ⟨⟨standing', telling', same ▸ walking.opens⟩, holds⟩

/-- One token with local context. The end of the input is the last one. -/
theorem runLocal_step (terminating : Terminating env) (walking : Walking env home tape (some p) s) {outer : Context}
    (begins : BeginsHome env home outer) (n delay : Nat) {Q : Except RecognitionError Nat → Simulator η → Prop}
    (ended : ∀ {pos result s'}, Standing env.net home tape pos s' → Q result s')
    (goesOn : tape.typeAt p ≠ endOfInput → ∃ q, (tape.call (some p) .consume).2 = some q ∧
      ∀ s n, Walking env home tape (some q) s →
        Halts (fun fuel => runLocal (env.fueled fuel) start outer (fuel - (delay + 1)) n (tape.typeAt q)) s Q) :
    Halts (fun fuel => runLocal (env.fueled fuel) start outer (fuel - delay) n (tape.typeAt p)) s Q := by
  let more (fuel : Nat) := runLocal (env.fueled fuel) start outer (fuel - (delay + 1) + 1) n (tape.typeAt p)
  refine .congr (y := more) ?_ ?_
  · simp only [more, runLocal]
    refine (walking.target terminating n (tape.typeAt p)).bind fun edge s₁ after => ?_
    obtain ⟨walking₁, ends⟩ := after
    have standing₁ := walking₁.toStanding
    cases edge with
    | dead =>
      simp only [decision_fueled]
      refine dfa_bind ?_
      exact (failOrFallback_halts terminating standing₁ start _).imp fun _ _ standing₂ => ended standing₂
    | target next =>
      simp only [decision_fueled]
      refine dfa_bind (.get_bind ?_)
      refine .ite (fun _ => ?_) fun _ => .ite (fun _ => ?_) fun refuses => .ite (fun further => ?_) fun atEnd => ?_
      · exact (settleConflict_halts terminating standing₁ start begins _).imp fun _ _ after => after.elim fun _ => ended
      · exact (accept_halts terminating standing₁ start _).imp fun _ _ after => after.elim fun _ => ended
      · obtain ⟨q, moves, rest⟩ := goesOn further
        have consumed := standing₁.consume
        rw [moves] at consumed
        refine (walking₁.onStream (R := fun _ => True) (consumed.imp fun _ _ standing₂ => ⟨standing₂, trivial⟩)).bind
          fun _ s₂ after => ?_
        refine (after.1.onStream after.1.toStanding.la).bind fun symbol s₃ seen => ?_
        rw [seen.2]
        exact rest s₃ next seen.1
      · exact absurd (ends (not_not.1 atEnd) next rfl) refuses
  · filter_upwards [eventually_gt_atTop delay] with fuel enough
    rw [show fuel - delay = fuel - (delay + 1) + 1 by omega]

/-- With local context a prediction ends, at the end of the input at the latest. -/
theorem runLocal_halts (terminating : Terminating env) {ts : List Token} (ahead : tape.Ahead p ts)
    (walking : Walking env home tape (some p) s) {outer : Context} (begins : BeginsHome env home outer)
    (n delay : Nat) :
    Halts (fun fuel => runLocal (env.fueled fuel) start outer (fuel - delay) n (tape.typeAt p)) s fun _ s' =>
      ∃ pos, Standing env.net home tape pos s' := by
  induction ts generalizing p s n delay with
  | nil => exact runLocal_step terminating walking begins n delay (fun standing => ⟨_, standing⟩) fun further =>
      absurd ahead.typeAt_last further
  | cons t ts ih =>
    obtain ⟨-, -, q, moves, rest⟩ := ahead.first
    exact runLocal_step terminating walking begins n delay (fun standing => ⟨_, standing⟩) fun _ =>
      ⟨q, moves, fun s n walking => ih rest walking n (delay + 1)⟩

end Simulator

/-! ## Predictions -/

open Simulator

theorem Grammar.compile_ending {g : Grammar} {compiled : CompiledGrammar} {net : Network} {verify : Bool}
    (assembled : g.Assembled) (run : g.compile = .ok compiled)
    (decoded : Network.decode compiled.words verify = .ok net) (progressive : net.atEnd.Progressive) : Ending net := by
  obtain ⟨built, -⟩ := compile_built assembled run decoded
  refine ⟨built.calls, built.returns, progressive, Network.wellFounded_turn (Network.wellFounded_silent ?_)⟩
  exact Network.silent_acyclic built.calls progressive.of_atEnd built.circleFree

/-- **Predictions end.** Over a parser in which no rule comes back to its start without moving on, where the end of the
input is not moved past, and with predicates that change no state, every prediction ends, with enough fuel always in the
same way. It is asked only that, once the start state is found, some configuration of every start state of the decision
is not at the end of a rule. -/
theorem Simulator.predict_halts {η : Type} {g : Grammar} {compiled : CompiledGrammar} {net : Network} {verify : Bool}
    {s : Simulator η} {tape : TokenTape} {pos : Option Nat} {decision : Nat} {evaluator : Guard.Evaluator η}
    (assembled : g.Assembled) (representable : g.Representable) (run : g.compile = .ok compiled)
    (decoded : Network.decode compiled.words verify = .ok net) (parser : g.isLexer = false)
    (progressive : net.atEnd.Progressive) (known : decision < net.decisions.size)
    (stateless : evaluator.Stateless) (learned : DfaCache.Learned net s.cache) (displays : s.stream.Displays tape pos)
    (callStack : List Nat) (precedence : Int)
    (opens : ∀ fuel, Leads (startState (deciding net evaluator decision s fuel) precedence) s.begun fun _ s' =>
      (s'.cache.dfa decision).Opens net) :
    ∀ j, ∃ result s' j' enough, ∀ fuel, enough ≤ fuel →
      ((predict net fuel evaluator decision callStack precedence).run s).run j = some ((result, s'), j') := by
  obtain ⟨built, -⟩ := Grammar.compile_built assembled run decoded
  have isParser : net.isLexer = false := by
    rw [Network.isLexer, built.kind]
    exact parser
  have ruled := Grammar.compile_ruled assembled representable run decoded
  let env := deciding net evaluator decision s 0
  have terminating : Terminating env :=
    ⟨Grammar.compile_ending assembled run decoded progressive, ruled, stateless⟩
  obtain ⟨r, owner, inner, free⟩ := Grammar.compile_decisionState assembled representable run decoded parser known
  obtain ⟨home, homeward⟩ := Context.exists_home ruled callStack r
  have begins : BeginsHome env home (.ofCallStack net callStack) := by
    intro i t found
    have member := List.mem_of_getElem? found
    rw [show env.startState = net.decisions.getD decision 0 from (learned.poses isParser decision).begins] at member
    have plain : ∀ r q follow, t.label ≠ .rule r q follow := fun _ _ _ label => by
      rw [free t member] at label
      cases label
    have stays := built.owner _ r owner inner t.move (List.mem_map_of_mem member)
    rw [Transition.next_of_plain plain] at stays
    exact ⟨r, stays, homeward⟩
  have telling : Telling env s.begun :=
    ⟨⟨learned.exact, rfl, rfl, Context.Memo.faithful_empty true⟩, learned.judged⟩
  have halts : Halts (fun fuel => predict net fuel evaluator decision callStack precedence) s fun _ _ => True := by
    refine .modify_bind (dfa_bind (.get_bind (.modify_bind ?_)))
    have standing : Standing net home tape pos s.begun := ⟨displays, Context.Memo.homing_empty⟩
    have started : Halts (fun fuel => startState (env.fueled fuel) precedence) s.begun fun _ s' =>
        Standing net home tape pos s' ∧ Telling env s' ∧ (s'.cache.dfa decision).Opens net :=
      (startState_halts terminating standing precedence).and fun fuel =>
        (((telling.fueled fuel).startState precedence).imp fun _ _ => Telling.of_fueled).and (opens fuel)
    refine started.bind fun n s₁ after => ?_
    obtain ⟨standing₁, telling₁, opens₁⟩ := after
    have walking₁ : Walking env home tape pos s₁ := ⟨standing₁, telling₁, opens₁⟩
    refine (walking₁.onStream standing₁.la).bind fun symbol s₂ seen => ?_
    rw [seen.2]
    obtain ⟨ts, ahead⟩ := displays.placed.current.ahead
    refine (runLocal_halts terminating ahead seen.1 begins n 0).bind fun result s₃ ends => ?_
    obtain ⟨pos₃, standing₃⟩ := ends
    exact (standing₃.returnTo _).bind fun _ _ _ => .pure trivial
  intro j
  obtain ⟨result, s', j', ran, -⟩ := halts j
  obtain ⟨enough, same⟩ := eventually_atTop.1 ran
  exact ⟨result, s', j', enough, same⟩

/-! ## A prediction that ends -/

namespace Simulator

/-- A start state that is known is returned, and nothing changes. -/
theorem startState_known {η : Type} {env : Env η} {s : Simulator η} {precedence : Int} {n : Nat}
    (known : (if (s.cache.dfa env.decision).precedence = true then
      (s.cache.dfa env.decision).precedenceStart? precedence else (s.cache.dfa env.decision).start) = some n) :
    Leads (startState env precedence) s fun _ s' => s' = s := by
  refine .get_bind ?_
  rw [known]
  exact .pure rfl

/-- The network of a left-recursive rule with one operator. -/
@[irreducible]
def suffixedNetwork : Network :=
  (do (Network.decode (← suffixed.compile.toOption).words true).toOption).getD default

theorem suffixedNetwork_progressive : suffixedNetwork.atEnd.Progressive := by
  refine Network.progressive_of_rank (fun n => [1, 0, 0, 5, 2, 1, 0, 7, 3, 6, 4, 5, 1].getD n 0)
    (fun n => [1, 3, 7, 9, 10, 11, 12].contains n) ?_ ?_
  · decide +kernel
  · decide +kernel

theorem suffixed_representable : suffixed.Representable := by
  intro r member e leaf
  obtain rfl := List.mem_singleton.1 member
  simp only [Element.leaves, Element.leavesAll, Operator.body, Operator.tails, Operator.tail, List.zipIdx_cons,
    List.zipIdx_nil, List.map_cons, List.map_nil, Element.star, List.append_nil, List.cons_append,
    List.nil_append, List.mem_cons, List.not_mem_nil, or_false] at leaf
  rcases leaf with rfl | rfl | rfl <;> simp [Element.Representable]

/-- At a precedence that the operator reaches some configuration of the start goes on with the operator, so the
prediction ends over every stream. -/
theorem predict_halts_suffixed : ∃ compiled net, suffixed.compile = .ok compiled ∧
    Network.decode compiled.words true = .ok net ∧
    ∃ s, DfaCache.Learned net s.cache ∧ (s.cache.dfa 0).precedenceStarts = [(0, 0)] ∧
    net.atEnd.Progressive ∧ s.stream.Displays TokenStream.spacedTape none ∧ (s.cache.dfa 0).Opens net ∧
    ∀ j, ∃ result s' j' enough, ∀ fuel, enough ≤ fuel →
      ((predict net fuel (bindingFrom 0) 0 [] 0).run s).run j = some ((result, s'), j') := by
  have answer : (do
      let net ← (Network.decode (← suffixed.compile.toOption).words true).toOption
      let ((_, s), _) ← ((predict net 30 (bindingFrom 0) 0 [] 0).run (idleSimulator net)).run #[]
      return (net.decisions.size, (s.cache.dfa 0).precedence, (s.cache.dfa 0).start, (s.cache.dfa 0).precedenceStarts,
        allAtStop net ((s.cache.dfa 0).state 0).configs)) = some (1, true, none, [(0, 0)], false) := by cbv
  simp only [Option.bind_eq_bind, Option.bind_eq_some_iff] at answer
  obtain ⟨compiled, compiles, net, decodes, ⟨⟨result, s₀⟩, j₀⟩, ran, same⟩ := answer
  simp only [Option.pure_def, Option.some.injEq, Prod.mk.injEq] at same
  obtain ⟨decisions, loop, start, starts, notStop⟩ := same
  have isNet : suffixedNetwork = net := by
    simp [suffixedNetwork, compiles, decodes]
  have progressive : net.atEnd.Progressive := isNet ▸ suffixedNetwork_progressive
  let s : Simulator Unit := { idleSimulator net with
    cache := s₀.cache
    stream := { source := .list TokenStream.spacedList (), channel := TokenStream.spacedTape.channel } }
  have learned : DfaCache.Learned net s.cache := (.predicted .fresh ran : DfaCache.Learned net s₀.cache)
  have displays : s.stream.Displays TokenStream.spacedTape none := .of_forall fun fuel =>
    .fresh (TokenSource.delivers_list TokenStream.spacedList (by decide) () fuel)
  have inside : 0 < net.decisions.size := by omega
  have stateless : (bindingFrom 0).Stateless := ⟨fun _ _ _ => rfl, fun _ _ => rfl⟩
  have opens : (s₀.cache.dfa 0).Opens net := by
    rintro n (isStart | ⟨p, member⟩)
    · cases start.symm.trans isStart
    · rw [starts] at member
      cases List.mem_singleton.1 member
      exact notStop
  refine ⟨compiled, net, except_ok_of_some compiles, except_ok_of_some decodes, s, learned, starts, progressive,
    displays, opens, ?_⟩
  refine predict_halts (.leftRecursive _ _ _ (.parser _ _)) suffixed_representable (except_ok_of_some compiles)
    (except_ok_of_some decodes) rfl progressive inside stateless learned displays [] 0 ?_
  -- The start state of the precedence is known.
  have known : (s₀.cache.dfa 0).precedenceStart? 0 = some 0 := by
    rw [Dfa.precedenceStart?, starts]
    rfl
  exact fun fuel => (startState_known ((if_pos loop).trans known)).imp fun _ s' same => same ▸ opens

end Simulator

end AdaptiveLL
