import AdaptiveLL.Grammar.Compiled
import AdaptiveLL.Grammar.Layout
import AdaptiveLL.Network.Decode
import AdaptiveLL.Prediction.Adaptive
import AdaptiveLL.Proofs.Prediction.Alternatives
import AdaptiveLL.Proofs.Prediction.Inheritance
import AdaptiveLL.Proofs.Tokens.Reporting
import Mathlib

/-!
# What a prediction reports

The reports of one prediction follow a protocol (`Protocol`): there are none, or only that no alternative is
viable, or full context is reported, with at most one report of what it has found out. The result goes with
the last report, and the counters grow with the reports (`Counted`). This holds whatever was learned before
and wherever the prediction ends (`predict_protocol`).

A step of a prediction is followed together with its reports (`Speaks`). With full context every alternative
comes from one of the decision, so none is invalid, and what was reached has at least two alternatives when
an ambiguity is reported; the alternative taken is the least of them, since it is the least of every group.

Here and in the modules that follow, `cbv` evaluates predictions over small networks. It unfolds functions of the
core library by their equations, and Mathlib is imported whole so that these are Mathlib's and no second copies.
-/

set_option autoImplicit false

namespace AdaptiveLL

namespace Event

/-- Is it the report that full context is needed? -/
def isFullContext : Event → Bool
  | .fullContext _ _ _ _ => true
  | _ => false

/-- Is it the report of a sensitivity to context? -/
def isSensitivity : Event → Bool
  | .sensitivity _ _ _ _ => true
  | _ => false

end Event

/-- The counters have grown by the numbers of the events that they count. -/
structure Stats.Counted (s s' : Stats) (es : List Event) : Prop where
  fullContext : s'.fullContext = s.fullContext + es.countP Event.isFullContext
  ambiguities : s'.ambiguities = s.ambiguities + es.countP Event.isAmbiguity
  sensitivities : s'.sensitivities = s.sensitivities + es.countP Event.isSensitivity

theorem Stats.Counted.refl (s : Stats) : s.Counted s [] := ⟨rfl, rfl, rfl⟩

theorem Stats.Counted.trans {s s' s'' : Stats} {es es' : List Event} (first : s.Counted s' es)
    (second : s'.Counted s'' es') : s.Counted s'' (es ++ es') := by
  refine ⟨?_, ?_, ?_⟩
  · rw [second.fullContext, first.fullContext, List.countP_append, Nat.add_assoc]
  · rw [second.ambiguities, first.ambiguities, List.countP_append, Nat.add_assoc]
  · rw [second.sensitivities, first.sensitivities, List.countP_append, Nat.add_assoc]

namespace Simulator

open Session Prediction TokenStream

variable {η : Type} {α β : Type} {mode : PredictionMode} {env : Env η} {start : Nat}

/-- The reports of a prediction for the decision, begun at the token `start`, with the result of the
prediction. Each shape of reports has its results. -/
inductive Protocol (mode : PredictionMode) (decision start : Nat) : List Event → Except RecognitionError Nat → Prop
  | silent {alt : Nat} : Protocol mode decision start [] (.ok alt)
  | noViable {stop : Nat} : Protocol mode decision start [.noViableAlt decision start stop]
      (.error (.noViableAlt decision start stop))
  | full {stop alt : Nat} {conflicting : Option AltSet} (retried : mode ≠ .sll) :
      Protocol mode decision start [.fullContext decision start stop conflicting] (.ok alt)
  | ambiguity {stop stop' alt : Nat} {conflicting : Option AltSet} {exact' : Bool} {alts : AltSet}
      (retried : mode ≠ .sll) (exactly : exact' = true → mode = .exact) (ascends : alts.Ascends)
      (several : 2 ≤ alts.size) (least : alts.min? = some alt) :
      Protocol mode decision start
        [.fullContext decision start stop conflicting, .ambiguity decision start stop' exact' alts] (.ok alt)
  | sensitivity {stop stop' alt : Nat} {conflicting : Option AltSet} (retried : mode ≠ .sll) :
      Protocol mode decision start
        [.fullContext decision start stop conflicting, .sensitivity decision start stop' alt] (.ok alt)
  | fullNoViable {stop stop' : Nat} {conflicting : Option AltSet} (retried : mode ≠ .sll) :
      Protocol mode decision start
        [.fullContext decision start stop conflicting, .noViableAlt decision start stop']
        (.error (.noViableAlt decision start stop'))

/-! ## Steps with their reports -/

/-- Whenever the step ends in the mode, its result and its reports satisfy `R`, the mode is the same, and the
counters have grown with the reports. -/
def Speaks (mode : PredictionMode) (R : α → List Event → Prop) (x : PredictM η α) : Prop :=
  ∀ s : Simulator η, s.mode = mode → Reports x s fun a s' es =>
    s'.mode = mode ∧ s.stats.Counted s'.stats es ∧ R a es

namespace Speaks

variable {R : β → List Event → Prop}

theorem bind {x : PredictM η α} {f : α → PredictM η β} {P : α → List Event → Prop} (first : Speaks mode P x)
    (second : ∀ a es, P a es → Speaks mode (fun b es' => R b (es ++ es')) (f a)) :
    Speaks mode R (x >>= f) := by
  refine fun s same => (first s same).bind fun a s' es ⟨same', counted, holds⟩ => ?_
  refine (second a es holds s' same').imp fun b s'' es' ⟨same'', counted', holds'⟩ => ?_
  exact ⟨same'', counted.trans counted', holds'⟩

/-- A step without reports may come first. -/
theorem mute_bind {x : PredictM η α} {f : α → PredictM η β} {P : α → Prop}
    (first : Speaks mode (fun a es => es = [] ∧ P a) x) (second : ∀ a, P a → Speaks mode R (f a)) :
    Speaks mode R (x >>= f) := by
  refine first.bind fun a es holds => ?_
  obtain ⟨rfl, holds⟩ := holds
  exact second a holds

theorem pure {b : β} (holds : R b []) : Speaks mode R (pure b : PredictM η β) :=
  fun _ same => .pure ⟨same, .refl _, holds⟩

theorem get_bind {f : Simulator η → PredictM η β} (rest : ∀ s, s.mode = mode → Speaks mode R (f s)) :
    Speaks mode R (get >>= f) := fun s same => rest s same s same

theorem failure : Speaks mode R (failure : PredictM η β) := fun _ _ => .of_failure

theorem imp {x : PredictM η β} {P : β → List Event → Prop} (speaks : Speaks mode P x)
    (imp : ∀ b es, P b es → R b es) : Speaks mode R x :=
  fun s same => (speaks s same).imp fun b _ es ⟨same', counted, holds⟩ => ⟨same', counted, imp b es holds⟩

/-- A change of the state that concerns neither the mode nor the counters of events. -/
theorem modify {next : Simulator η → Simulator η}
    (kept : ∀ s, (next s).mode = s.mode ∧ s.stats.Counted (next s).stats []) :
    Speaks mode (fun _ es => es = [] ∧ True) (modify next : PredictM η PUnit) := by
  intro s same
  refine Reports.imp (Mute.of_modify (Q := fun _ s' => s' = next s) rfl) fun _ s' _ holds => ?_
  obtain ⟨rfl, rfl⟩ := holds
  exact ⟨(kept s).1.trans same, (kept s).2, rfl, trivial⟩

theorem modifyGet {f : Simulator η → α × Simulator η}
    (kept : ∀ s, (f s).2.mode = s.mode ∧ s.stats.Counted (f s).2.stats []) :
    Speaks mode (fun _ es => es = [] ∧ True) (modifyGet f : PredictM η α) := by
  intro s same
  refine Reports.imp (Mute.of_modifyGet (Q := fun _ s' => s' = (f s).2) rfl) fun _ s' _ holds => ?_
  obtain ⟨rfl, rfl⟩ := holds
  exact ⟨(kept s).1.trans same, (kept s).2, rfl, trivial⟩

theorem onStream {step : StreamM η α} (quiet : Quiet step) :
    Speaks mode (fun _ es => es = [] ∧ True) (onStream step) := by
  intro s same
  have mute : Mute (Simulator.onStream step) s fun _ s' => s'.mode = s.mode ∧ s'.stats = s.stats :=
    .get_bind ((quiet s.stream).part_bind fun _ _ _ => .set_bind (.pure ⟨rfl, rfl⟩))
  refine Reports.imp mute fun _ s' es holds => ?_
  obtain ⟨rfl, mode', stats⟩ := holds
  exact ⟨mode'.trans same, stats ▸ .refl _, rfl, trivial⟩

theorem onConfigs {step : ScratchM η α} {P : α → Prop} (leaves : ∀ w, Leaves step w fun a _ => P a) :
    Speaks mode (fun a es => es = [] ∧ P a) (onConfigs step) := by
  intro s same
  have mute : Mute (Simulator.onConfigs step) s fun a s' => s'.mode = s.mode ∧ s'.stats = s.stats ∧ P a := by
    refine .get_bind ?_
    split
    · rename_i a w ran
      exact .set_bind (.pure ⟨rfl, rfl, leaves _ a w ran⟩)
    · exact .of_failure
  refine Reports.imp mute fun a s' es holds => ?_
  obtain ⟨rfl, mode', stats, holds⟩ := holds
  exact ⟨mode'.trans same, stats ▸ .refl _, rfl, holds⟩

/-- The same where nothing is to be known of the result. -/
theorem asking (step : ScratchM η α) : Speaks mode (fun _ es => es = [] ∧ True) (Simulator.onConfigs step) :=
  onConfigs fun _ _ _ _ => trivial

theorem report (e : Event) (uncounted : ∀ s : Stats, s.Counted s [e]) :
    Speaks mode (fun _ es => es = [e]) (report e : PredictM η Unit) :=
  fun _ same => .of_report ⟨same, uncounted _, rfl⟩

/-- A report that is counted. -/
theorem count_report {f : Stats → Stats} {e : Event} {k : Unit → PredictM η β}
    (counted : ∀ s : Stats, s.Counted (f s) [e]) (rest : Speaks mode (fun b es => R b (e :: es)) (k ())) :
    Speaks mode R (count f >>= fun _ => Simulator.report e >>= k) := by
  intro s same
  have told : Reports (Simulator.report e >>= k) { s with stats := f s.stats } fun b s' es =>
      s'.mode = mode ∧ s.stats.Counted s'.stats es ∧ R b es := by
    refine Reports.bind (P := fun _ s' es => s' = { s with stats := f s.stats } ∧ es = [e])
      (.of_report ⟨rfl, rfl⟩) fun _ s' es known => ?_
    obtain ⟨rfl, rfl⟩ := known
    refine (rest { s with stats := f s.stats } same).imp fun b s'' es' ⟨same'', counted', holds⟩ => ?_
    exact ⟨same'', (counted s.stats).trans counted', holds⟩
  exact told

/-- A counter that counts no events. -/
theorem count_bind {f : Stats → Stats} {k : Unit → PredictM η β} (uncounted : ∀ s : Stats, s.Counted (f s) [])
    (rest : Speaks mode R (k ())) : Speaks mode R (count f >>= k) := by
  have counts : Speaks mode (fun _ es => es = [] ∧ True) (count f : PredictM η Unit) :=
    modify fun s => ⟨rfl, uncounted s.stats⟩
  exact counts.mute_bind fun _ _ => rest

theorem index : Speaks mode (fun _ es => es = [] ∧ True) (index : PredictM η Nat) :=
  get_bind fun _ _ => pure ⟨rfl, trivial⟩

theorem dfa (decision : Nat) : Speaks mode (fun _ es => es = [] ∧ True) (dfa decision : PredictM η Dfa) :=
  get_bind fun _ _ => pure ⟨rfl, trivial⟩

theorem modifyDfa (decision : Nat) (f : Dfa → Dfa) :
    Speaks mode (fun _ es => es = [] ∧ True) (modifyDfa decision f : PredictM η Unit) :=
  modify fun _ => ⟨rfl, .refl _⟩

theorem register (decision : Nat) (d : DfaState) :
    Speaks mode (fun _ es => es = [] ∧ True) (register decision d : PredictM η Nat) :=
  modifyGet fun _ => ⟨rfl, .refl _⟩

theorem nothing {a : α} : Speaks mode (fun _ es => es = [] ∧ True) (Pure.pure a : PredictM η α) :=
  pure ⟨rfl, trivial⟩

end Speaks

/-! ## The learned automaton -/

theorem recordEdge_mute (n : Nat) (symbol : Int) (e : DfaEdge) :
    Speaks mode (fun _ es => es = [] ∧ True) (recordEdge env n symbol e) := by
  unfold recordEdge
  split
  · exact .modifyDfa _ _
  · exact .nothing

theorem startState_mute (precedence : Int) :
    Speaks mode (fun _ es => es = [] ∧ True) (startState env precedence) := by
  refine (Speaks.dfa _).mute_bind fun d _ => ?_
  split
  · exact .nothing
  · refine (Speaks.asking _).mute_bind fun configs _ => ?_
    have registered (configs : ConfigSet) (f : Dfa → Nat → Nat × Dfa) :
        Speaks mode (fun _ es => es = [] ∧ True) (do
          let n ← register env.decision (.ofConfigs configs d.width)
          let started := f (← dfa env.decision) n
          modifyDfa env.decision fun _ => started.2
          return started.1 : PredictM η Nat) :=
      (Speaks.register _ _).mute_bind fun n _ => (Speaks.dfa _).mute_bind fun d _ =>
        (Speaks.modifyDfa _ _).mute_bind fun _ _ => .nothing
    split
    · exact (Speaks.asking _).mute_bind fun configs _ =>
        registered configs fun d n => d.setPrecedenceStart precedence n
    · exact registered configs fun d n => d.setStart n

theorem target_mute (n : Nat) (symbol : Int) :
    Speaks mode (fun _ es => es = [] ∧ True) (target env n symbol) := by
  refine (Speaks.dfa _).mute_bind fun d _ => ?_
  split
  · exact Speaks.count_bind (fun _ => ⟨rfl, rfl, rfl⟩) .nothing
  · refine Speaks.count_bind (fun _ => ⟨rfl, rfl, rfl⟩) ((Speaks.dfa _).mute_bind fun d _ =>
      (Speaks.asking _).mute_bind fun reach _ => ?_)
    split
    · exact (recordEdge_mute n symbol _).mute_bind fun _ _ => .nothing
    · exact Speaks.get_bind fun s _ => (Speaks.register _ _).mute_bind fun target _ =>
        (recordEdge_mute n symbol _).mute_bind fun _ _ => .nothing

/-! ## Outcomes -/

/-- A failure is reported and gives the error with the same places. -/
def Fails (decision start : Nat) (result : Except RecognitionError Nat) (es : List Event) : Prop :=
  ∃ stop, es = [.noViableAlt decision start stop] ∧ result = .error (.noViableAlt decision start stop)

theorem fail_speaks (offending : Nat) : Speaks mode (Fails env.decision start) (fail env start offending) := by
  refine (Speaks.report _ fun _ => ⟨rfl, rfl, rfl⟩).bind fun _ es same => ?_
  subst same
  exact .pure ⟨offending, rfl, rfl⟩

theorem failOrFallback_speaks (configs : ConfigSet) :
    Speaks mode (fun result es => (es = [] ∧ ∃ alt, result = .ok alt) ∨ Fails env.decision start result es)
      (failOrFallback env start configs) := by
  refine Speaks.index.mute_bind fun offending _ => (Speaks.asking _).mute_bind fun alt _ => ?_
  split
  · exact .pure (.inl ⟨rfl, _, rfl⟩)
  · exact (fail_speaks offending).imp fun _ _ => .inr

/-! ## Full context -/

/-- The configurations of a prediction with full context have alternatives of the decision. -/
abbrev Valid (s : ConfigSet) : Prop := s.Within fun alt _ => alt ≠ invalidAlt

theorem upholds_valid (env : Env η) :
    Upholds env true (fun c => c.alt ≠ invalidAlt) (fun c => c.alt ≠ invalidAlt) fun s (_ : Scratch η) => Valid s :=
  upholds_within (I := fun alt _ => alt ≠ invalidAlt) fun _ _ _ _ _ _ _ valid => valid

/-- The reports go on a report of full context. -/
def Retried (mode : PredictionMode) (decision start : Nat) (result : Except RecognitionError Nat)
    (es : List Event) : Prop :=
  ∀ stop conflicting, Protocol mode decision start (.fullContext decision start stop conflicting :: es) result

theorem failOrFallback_retried (retried : mode ≠ .sll) (configs : ConfigSet) :
    Speaks mode (Retried mode env.decision start) (failOrFallback env start configs) := by
  refine (failOrFallback_speaks configs).imp fun result es outcome => ?_
  rcases outcome with ⟨rfl, alt, rfl⟩ | ⟨stop, rfl, rfl⟩
  · exact fun _ _ => .full retried
  · exact fun _ _ => .fullNoViable retried

/-- What full context settles on, if not on the only alternative, is the least one. -/
theorem settled_least {reach : ConfigSet} {alt : Nat} {exact' : Bool} (nonempty : reach.isEmpty = false)
    (several : reach.uniqueAlt = invalidAlt) (settled : settled? mode reach = some (alt, exact')) :
    reach.alts.min? = some alt ∧ (exact' = true → mode = .exact) := by
  unfold settled? at settled
  dsimp only at settled
  rw [if_neg (not_not_intro several)] at settled
  split at settled
  · split at settled
    · rename_i valid
      cases settled
      exact ⟨least_of_singleViable rfl valid, nofun⟩
    · cases settled
  · rename_i isExact
    split at settled
    · rename_i conflicts
      cases settled
      exact ⟨least_of_allEqual nonempty (Bool.and_eq_true_iff.1 conflicts).2, fun _ => not_not.1 isExact⟩
    · cases settled

theorem concludeFull_speaks (retried : mode ≠ .sll) {reach : ConfigSet} {alt : Nat} {exact' : Bool}
    (valid : Valid reach) (nonempty : reach.isEmpty = false) (shared : reach.uniqueAlt = reach.sharedAlt)
    (settled : settled? mode reach = some (alt, exact')) :
    Speaks mode (fun a es => Retried mode env.decision start (.ok a) es)
      (concludeFull env start reach alt exact') := by
  refine Speaks.index.mute_bind fun stop _ => ?_
  split
  · refine Speaks.count_report (fun _ => ⟨rfl, rfl, rfl⟩) ?_
    exact .pure fun _ _ => .sensitivity retried
  · rename_i several
    have several : reach.uniqueAlt = invalidAlt := not_not.1 several
    obtain ⟨least, exactly⟩ := settled_least nonempty several settled
    refine Speaks.count_report (fun _ => ⟨rfl, rfl, rfl⟩) (.pure fun _ _ => ?_)
    exact .ambiguity retried exactly (AltSet.ofList_spec _).1
      (two_le_alts nonempty valid.configs (shared.symm.trans several)) least

theorem runFull_speaks (retried : mode ≠ .sll) (rounds : Nat) {configs : ConfigSet} (valid : Valid configs)
    (symbol : Int) :
    Speaks mode (Retried mode env.decision start) (runFull env start rounds configs symbol) := by
  induction rounds generalizing configs symbol with
  | zero => exact .failure
  | succ rounds ih =>
    refine (Speaks.onConfigs fun w => (reachSet_upholds (upholds_valid env) valid).imp
      fun _ _ known => known.2).mute_bind fun result behind => ?_
    split
    · exact failOrFallback_retried retried configs
    · rename_i reach
      obtain ⟨reachValid, nonempty⟩ := behind reach rfl
      have valid' : Valid { reach with uniqueAlt := reach.sharedAlt } := reachValid.reflag rfl rfl
      refine Speaks.get_bind fun s same => ?_
      rw [same]
      split
      · rename_i settled
        refine (concludeFull_speaks retried valid' nonempty rfl settled).bind fun a es holds => ?_
        exact .pure (by simpa using holds)
      · split
        · exact (Speaks.onStream TokenStream.consume_quiet).mute_bind fun _ _ =>
            (Speaks.onStream (TokenStream.la_quiet 1)).mute_bind fun next _ => ih valid' next
        · exact ih valid' symbol

/-- A prediction with full context begins with its report. -/
theorem predictFull_retried (retried : mode ≠ .sll) (outer : Context) (conflicting : Option AltSet) :
    Speaks mode (fun result es => ∃ stop es', es = .fullContext env.decision start stop conflicting :: es' ∧
      Retried mode env.decision start result es') (predictFull env start outer conflicting) := by
  refine (Speaks.onConfigs fun w => startSet_upholds (upholds_valid env) (ConfigSet.within_ofParser true)
    fun i _ _ => Nat.succ_ne_zero i).mute_bind fun configs valid => ?_
  -- Where the stream stands does not depend on the counters.
  change Speaks mode _ (index >>= fun stop => count (fun s => { s with fullContext := s.fullContext + 1 }) >>=
    fun _ => report (.fullContext env.decision start stop conflicting) >>= fun _ => _)
  refine Speaks.index.mute_bind fun stop _ => Speaks.count_report (fun _ => ⟨rfl, rfl, rfl⟩) ?_
  refine (Speaks.onStream (TokenStream.returnTo_quiet start)).mute_bind fun _ _ =>
    (Speaks.onStream (TokenStream.la_quiet 1)).mute_bind fun symbol _ => ?_
  exact (runFull_speaks retried env.fuel valid symbol).imp fun result es holds => ⟨stop, es, rfl, holds⟩

theorem predictFull_speaks (retried : mode ≠ .sll) (outer : Context) (conflicting : Option AltSet) :
    Speaks mode (fun result es => Protocol mode env.decision start es result)
      (predictFull env start outer conflicting) := by
  refine (predictFull_retried retried outer conflicting).imp fun result es told => ?_
  obtain ⟨stop, es', rfl, retries⟩ := told
  exact retries stop conflicting

/-! ## Local context -/

theorem settleConflict_speaks (retried : mode ≠ .sll) (outer : Context) (d : DfaState) :
    Speaks mode (fun result es => Protocol mode env.decision start es result)
      (settleConflict env start outer d) := by
  unfold settleConflict
  split
  · exact predictFull_speaks retried outer _
  · refine (Speaks.asking _).mute_bind fun enabled _ => ?_
    split
    · exact .pure .silent
    · exact predictFull_speaks retried outer _

theorem accept_speaks (d : DfaState) :
    Speaks mode (fun result es => Protocol mode env.decision start es result) (accept env start d) := by
  unfold accept
  split
  · exact .pure .silent
  · refine (Speaks.onStream (TokenStream.returnTo_quiet start)).mute_bind fun _ _ =>
      (Speaks.asking _).mute_bind fun enabled _ => ?_
    split
    · exact .pure .silent
    · refine Speaks.index.mute_bind fun stop _ => (fail_speaks stop).imp fun result es fails => ?_
      obtain ⟨stop, rfl, rfl⟩ := fails
      exact .noViable

theorem runLocal_speaks (outer : Context) (rounds n : Nat) (symbol : Int) :
    Speaks mode (fun result es => Protocol mode env.decision start es result)
      (runLocal env start outer rounds n symbol) := by
  induction rounds generalizing n symbol with
  | zero => exact .failure
  | succ rounds ih =>
    refine (target_mute n symbol).mute_bind fun edge _ => ?_
    split
    · refine (Speaks.dfa _).mute_bind fun d _ => (failOrFallback_speaks _).imp fun result es outcome => ?_
      rcases outcome with ⟨rfl, alt, rfl⟩ | ⟨stop, rfl, rfl⟩
      · exact .silent
      · exact .noViable
    · refine (Speaks.dfa _).mute_bind fun d _ => Speaks.get_bind fun s same => ?_
      rw [same]
      split
      · rename_i conflict
        have retried : mode ≠ .sll := by simpa using (Bool.and_eq_true_iff.1 conflict).2
        exact settleConflict_speaks retried outer _
      · split
        · exact accept_speaks _
        · split
          · exact (Speaks.onStream TokenStream.consume_quiet).mute_bind fun _ _ =>
              (Speaks.onStream (TokenStream.la_quiet 1)).mute_bind fun next _ => ih _ next
          · exact ih _ symbol

/-- A prediction keeps to the protocol, and its counters grow with its reports, in every mode and whatever was
learned before. -/
theorem predict_protocol {net : Network} {fuel : Nat} {evaluator : Guard.Evaluator η} {decision : Nat}
    {callStack : List Nat} {precedence : Int} {s s' : Simulator η} {j j' : Journal}
    {result : Except RecognitionError Nat}
    (ran : ((predict net fuel evaluator decision callStack precedence).run s).run j = some ((result, s'), j')) :
    ∃ new : Journal, j' = j ++ new ∧
      Protocol s.mode decision s.stream.index (new.reports (· == .parser)) result ∧
      s.stats.Counted s'.stats (new.reports (· == .parser)) := by
  have speaks : Reports (predict net fuel evaluator decision callStack precedence) s fun result s' es =>
      Protocol s.mode decision s.stream.index es result ∧ s.stats.Counted s'.stats es := by
    refine .modify_bind (.get_bind (.get_bind (.modify_bind ?_)))
    dsimp only
    -- The state is now the one before, but for counters that count no reports and the remembered merges.
    refine ((startState_mute precedence).mute_bind fun n _ => (Speaks.onStream (la_quiet 1)).mute_bind
      fun symbol _ => (runLocal_speaks _ fuel n symbol).bind
        (R := fun result es => Protocol s.mode decision s.stream.index es result) fun result es holds =>
          (Speaks.onStream (returnTo_quiet _)).mute_bind fun _ _ => .pure ?_) _ rfl |>.imp ?_
    · simpa using holds
    · exact fun result s' es ⟨_, counted, holds⟩ =>
        ⟨holds, counted.fullContext, counted.ambiguities, counted.sensitivities⟩
  obtain ⟨new, rfl, holds, counted⟩ := speaks j result s' j' ran
  exact ⟨new, rfl, holds, counted⟩

/-- A rule with the same alternative twice. -/
def twins : Grammar :=
  (Grammar.parser "Twins" { literalNames := [none, some "'a'"] })
    |>.rule "s" (.seq [.alt [.literal "a", .literal "a"], .eof])

/-- A simulator over one token that has learned nothing. -/
def twinSimulator (net : Network) : Simulator Unit where
  cache := .ofNetwork net
  mode := .ll
  stream := {
    source := .list { tokens := #[{
      type := 1, channel := 0, start := 0, stop := 1, line := 1, column := 0, index := none, text := none }] } () }

/-- A prediction over the network of the grammar. -/
def twinPrediction (net : Network) : Option ((Except RecognitionError Nat × Simulator Unit) × Journal) :=
  ((predict net 30 { predicate _ _ h := (true, h), precedence _ h := (true, h) } 0 [] 0).run
    (twinSimulator net)).run #[]

/-- Of two alternatives that are the same the first is taken, and the ambiguity is reported. -/
theorem predict_protocol_twins : ∃ compiled net, twins.compile = .ok compiled ∧
    Network.decode compiled.words true = .ok net ∧ ∃ s' j', twinPrediction net = some ((.ok 1, s'), j') ∧
    ∃ new : Journal, j' = #[] ++ new ∧
      new.reports (· == .parser) =
        [.fullContext 0 0 0 (some ⟨[1, 2]⟩), .ambiguity 0 0 0 false ⟨[1, 2]⟩] ∧
      Protocol .ll 0 0 (new.reports (· == .parser)) (.ok 1) ∧
      (twinSimulator net).stats.Counted s'.stats (new.reports (· == .parser)) := by
  have answer : (do
      let net ← (Network.decode (← twins.compile.toOption).words true).toOption
      let ((result, s'), j') ← twinPrediction net
      return (result.toOption, j'.reports (· == .parser))) = some (some 1,
        [.fullContext 0 0 0 (some ⟨[1, 2]⟩), .ambiguity 0 0 0 false ⟨[1, 2]⟩]) := by cbv
  simp only [Option.bind_eq_bind, Option.bind_eq_some_iff] at answer
  obtain ⟨compiled, compiles, net, decodes, ⟨⟨result, s'⟩, j'⟩, ran, same⟩ := answer
  obtain ⟨isOk, reports⟩ := by simpa using same
  obtain rfl := except_ok_of_some isOk
  obtain ⟨new, rfl, protocol, counted⟩ := predict_protocol ran
  have told : new.reports (· == .parser) =
      [.fullContext 0 0 0 (some ⟨[1, 2]⟩), .ambiguity 0 0 0 false ⟨[1, 2]⟩] := by
    simpa using reports
  exact ⟨compiled, net, except_ok_of_some compiles, except_ok_of_some decodes, s', _, ran, new, rfl, told, protocol,
    counted⟩

end Simulator

end AdaptiveLL
