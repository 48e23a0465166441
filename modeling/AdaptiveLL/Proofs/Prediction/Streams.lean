import AdaptiveLL.Prediction.Adaptive
import AdaptiveLL.Proofs.Tokens.Streams

/-!
# Predictions leave the stream where it was

A prediction looks ahead as far as it needs to. On the way it reads tokens from the source and lets user
code run, but it loses nothing (`Steady`), and at its end it returns to the place where it began, so no
token is passed over (`predict_reads`).
-/

set_option autoImplicit false

namespace AdaptiveLL.Simulator

open Session Prediction TokenStream

variable {η : Type} {P : Int → Prop} {α β : Type}

/-- A step on the stream changes nothing else. -/
theorem onStream_leads {step : StreamM η α} {s : Simulator η} {Q : α → TokenStream η → Prop}
    (leads : Leads step s.stream Q) :
    Leads (onStream step) s fun a s' => s' = { s with stream := s'.stream } ∧ Q a s'.stream :=
  .get_bind (leads.part_bind fun _ _ holds => .set_bind (.pure ⟨rfl, holds⟩))

/-- Whatever the step does, its stream loses nothing of what it was at the beginning. -/
def Steady (P : Int → Prop) (o : TokenStream η) (x : PredictM η α) : Prop :=
  ∀ s : Simulator η, Grows P o s.stream → Leads x s fun _ s' => Grows P o s'.stream

variable {o : TokenStream η}

namespace Steady

theorem bind {x : PredictM η α} {f : α → PredictM η β} (first : Steady P o x)
    (second : ∀ a, Steady P o (f a)) : Steady P o (x >>= f) :=
  fun s grows => (first s grows).bind fun a s' grows' => second a s' grows'

theorem pure (a : α) : Steady P o (pure a : PredictM η α) := fun _ grows => .pure grows

theorem get_bind {f : Simulator η → PredictM η β} (rest : ∀ s, Steady P o (f s)) :
    Steady P o (get >>= f) := fun s grows => rest s s grows

theorem failure : Steady P o (failure : PredictM η α) := fun _ _ => .of_failure

theorem onStream {step : StreamM η α} (goes : ∀ s : TokenStream η, Grows P o s →
    Leads step s fun _ s' => Grows P o s') : Steady P o (onStream step) :=
  fun s grows => (onStream_leads (goes s.stream grows)).imp fun _ _ known => known.2

theorem onConfigs (step : ScratchM η α) : Steady P o (onConfigs step) := by
  intro s grows
  refine .get_bind ?_
  split
  · exact .set_bind (.pure (grows.trans (grows.sound.reads_setHooks _).toGrows))
  · exact .of_failure

theorem count (f : Stats → Stats) : Steady P o (count f : PredictM η Unit) :=
  fun _ grows => .of_modify grows

theorem report (e : Event) : Steady P o (report e : PredictM η Unit) :=
  fun _ grows => .of_journal grows

theorem modifyDfa (decision : Nat) (f : Dfa → Dfa) : Steady P o (modifyDfa decision f : PredictM η Unit) :=
  fun _ grows => .of_modify grows

theorem register (decision : Nat) (d : DfaState) : Steady P o (register decision d : PredictM η Nat) :=
  fun _ grows => .of_modifyGet grows

theorem index : Steady P o (index : PredictM η Nat) := get_bind fun _ => pure _

theorem dfa (decision : Nat) : Steady P o (dfa decision : PredictM η Dfa) := get_bind fun _ => pure _

theorem la (fuel : Nat) (k : Int) : Steady P o (Simulator.onStream (TokenStream.la fuel k) : PredictM η Int) :=
  onStream fun _ grows => (la_reads grows.sound k).imp fun _ _ known => grows.trans known.1.toGrows

theorem consume (fuel : Nat) : Steady P o (Simulator.onStream (TokenStream.consume fuel) : PredictM η Unit) :=
  onStream fun _ grows => (consume_grows grows.sound).imp fun _ _ known => grows.trans known.1

/-- Returning to the place where the stream was. -/
theorem returnTo (sound : o.Sound P) (fuel : Nat) :
    Steady P o (Simulator.onStream (TokenStream.returnTo fuel o.index) : PredictM η Unit) :=
  onStream fun _ grows => (returnTo_back sound grows).imp fun _ _ reads => reads.toGrows

end Steady

variable {env : Env η}

/-! ## The learned automaton -/

theorem recordEdge_steady (n : Nat) (symbol : Int) (e : DfaEdge) : Steady P o (recordEdge env n symbol e) := by
  unfold recordEdge
  split
  · exact .modifyDfa _ _
  · exact .pure _

theorem startState_steady (precedence : Int) : Steady P o (startState env precedence) := by
  refine (Steady.dfa _).bind fun d => ?_
  split
  · exact .pure _
  · refine (Steady.onConfigs _).bind fun configs => ?_
    split
    · exact (Steady.onConfigs _).bind fun configs => (Steady.register _ _).bind fun n =>
        (Steady.dfa _).bind fun d => (Steady.modifyDfa _ _).bind fun _ => .pure _
    · exact (Steady.register _ _).bind fun n => (Steady.dfa _).bind fun d =>
        (Steady.modifyDfa _ _).bind fun _ => .pure _

theorem target_steady (n : Nat) (symbol : Int) : Steady P o (target env n symbol) := by
  refine (Steady.dfa _).bind fun d => ?_
  split
  · exact (Steady.count _).bind fun _ => .pure _
  · refine (Steady.count _).bind fun _ => (Steady.dfa _).bind fun d => (Steady.onConfigs _).bind
      fun reach => ?_
    split
    · exact (recordEdge_steady n symbol _).bind fun _ => .pure _
    · exact Steady.get_bind fun s => (Steady.register _ _).bind fun target =>
        (recordEdge_steady n symbol _).bind fun _ => .pure _

/-! ## Outcomes -/

theorem fail_steady (start offending : Nat) : Steady P o (fail env start offending) :=
  (Steady.report _).bind fun _ => .pure _

theorem failOrFallback_steady (start : Nat) (configs : ConfigSet) :
    Steady P o (failOrFallback env start configs) := by
  refine Steady.index.bind fun offending => (Steady.onConfigs _).bind fun alt => ?_
  split
  · exact .pure _
  · exact fail_steady start offending

theorem concludeFull_steady (start : Nat) (reach : ConfigSet) (alt : Nat) (exact' : Bool) :
    Steady P o (concludeFull env start reach alt exact') := by
  refine Steady.index.bind fun stop => ?_
  split
  · exact (Steady.count _).bind fun _ => (Steady.report _).bind fun _ => .pure _
  · exact (Steady.count _).bind fun _ => (Steady.report _).bind fun _ => .pure _

theorem runFull_steady (start rounds : Nat) (configs : ConfigSet) (symbol : Int) :
    Steady P o (runFull env start rounds configs symbol) := by
  induction rounds generalizing configs symbol with
  | zero => exact .failure
  | succ rounds ih =>
    refine (Steady.onConfigs _).bind fun reach => ?_
    split
    · exact failOrFallback_steady start configs
    · refine Steady.get_bind fun s => ?_
      split
      · exact (concludeFull_steady start _ _ _).bind fun _ => .pure _
      · split
        · exact (Steady.consume _).bind fun _ => (Steady.la _ _).bind fun _ => ih _ _
        · exact ih _ _

theorem predictFull_steady (sound : o.Sound P) (outer : Context) (conflicting : Option AltSet) :
    Steady P o (predictFull env o.index outer conflicting) :=
  (Steady.onConfigs _).bind fun _ => (Steady.count _).bind fun _ => Steady.index.bind fun _ =>
    (Steady.report _).bind fun _ => (Steady.returnTo sound _).bind fun _ => (Steady.la _ _).bind
      fun _ => runFull_steady _ _ _ _

theorem settleConflict_steady (sound : o.Sound P) (outer : Context) (d : DfaState) :
    Steady P o (settleConflict env o.index outer d) := by
  unfold settleConflict
  split
  · exact predictFull_steady sound outer _
  · refine (Steady.onConfigs _).bind fun enabled => ?_
    split
    · exact .pure _
    · exact predictFull_steady sound outer _

theorem accept_steady (sound : o.Sound P) (d : DfaState) : Steady P o (accept env o.index d) := by
  unfold accept
  split
  · exact .pure _
  · refine (Steady.returnTo sound _).bind fun _ => (Steady.onConfigs _).bind fun enabled => ?_
    split
    · exact .pure _
    · exact Steady.index.bind fun _ => fail_steady _ _

theorem runLocal_steady (sound : o.Sound P) (outer : Context) (rounds n : Nat) (symbol : Int) :
    Steady P o (runLocal env o.index outer rounds n symbol) := by
  induction rounds generalizing n symbol with
  | zero => exact .failure
  | succ rounds ih =>
    refine (target_steady n symbol).bind fun edge => ?_
    split
    · exact (Steady.dfa _).bind fun d => failOrFallback_steady _ _
    · refine (Steady.dfa _).bind fun d => Steady.get_bind fun s => ?_
      split
      · exact settleConflict_steady sound outer _
      · split
        · exact accept_steady sound _
        · split
          · exact (Steady.consume _).bind fun _ => (Steady.la _ _).bind fun _ => ih _ _
          · exact ih _ _

/-- A prediction passes over no token, whatever was learned before. -/
theorem predict_reads {net : Network} {fuel : Nat} {evaluator : Guard.Evaluator η} {decision : Nat}
    {callStack : List Nat} {precedence : Int} {s : Simulator η} (sound : s.stream.Sound P) :
    Leads (predict net fuel evaluator decision callStack precedence) s fun _ s' =>
      Reads P s.stream s'.stream := by
  refine .modify_bind (.get_bind (.get_bind (.modify_bind ?_)))
  refine (startState_steady (P := P) (o := s.stream) precedence _ ?_).bind fun n s₁ grows => ?_
  · exact .refl sound
  refine (Steady.la fuel 1 _ grows).bind fun symbol s₂ grows => ?_
  refine (runLocal_steady sound _ fuel n symbol _ grows).bind fun result s₃ grows => ?_
  exact (onStream_leads (returnTo_back sound grows)).bind fun _ _ reads => .pure reads.2

end AdaptiveLL.Simulator
