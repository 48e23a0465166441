import AdaptiveLL.Parser.Run
import AdaptiveLL.Proofs.Tokens.Reporting

/-!
# The parts of matching and repairing

Matching a token, repairing one, choosing how to go on and giving up a rule are put together from a few
steps: looks at the stream, predictions, notes on the recovery, reports of syntax errors and leaves for the
node in progress. What holds of these steps and of whatever is put together from steps of which it holds
(`StepLaw`) holds of all of them.

The parts read much of the parser, but none of them reads the mode of its predictions.
-/

set_option autoImplicit false

namespace AdaptiveLL.Parser

variable {η : Type} {net : Network}

/-- The parser with another mode of predictions. -/
def inMode (p : Parser η) (mode : PredictionMode) : Parser η := { p with sim := { p.sim with mode } }

/-- A property of steps of parsers on the network that the basic steps have and that all have that are put
together from such steps. -/
structure StepLaw (net : Network) (L : {α : Type} → ParseM η α → Prop) : Prop where
  pure {α : Type} (a : α) : L (Pure.pure a : ParseM η α)
  failure {α : Type} : L (Alternative.failure : ParseM η α)
  bind {α β : Type} {x : ParseM η α} {f : α → ParseM η β} (first : L x) (second : ∀ a, L (f a)) : L (x >>= f)
  get_bind {α : Type} {f : Parser η → ParseM η α} (rest : ∀ p, p.net = net → L (f p))
    (blind : ∀ p mode, f (p.inMode mode) = f p) : L (get >>= f)
  onStream {α : Type} {step : TokenStream.StreamM η α} (quiet : Session.Quiet step) : L (onStream step)
  predict (fuel : Nat) (evaluator : Guard.Evaluator η) (decision : Nat) (callStack : List Nat)
    (precedence : Int) : L (onSimulator (Simulator.predict net fuel evaluator decision callStack precedence))
  note (recovery : Parser η → Recovery) (blind : ∀ p mode, recovery (p.inMode mode) = recovery p) :
    L (modify fun p => { p with recovery := recovery p })
  count : L (modify fun p => { p with syntaxErrors := p.syntaxErrors + 1 })
  tell (offending : Option Token) (line column : Nat) (message : String) (error : Option RecognitionError) :
    L (modifyThe Journal (·.push (.report .parser (.syntaxError offending line column message error))))
  addLeaf (node : Nat) (kind : NodeKind) : L (onTree fun tree => (tree.addLeaf node kind).2)
  noteEof : L (modify ({ · with matchedEof := true }))
  ask (rule pred : Nat) : L (askPredicate rule pred)
  act (rule action : Nat) : L (runAction rule action)

namespace StepLaw

variable {L : {α : Type} → ParseM η α → Prop} (law : StepLaw net L) {α β : Type} {fuel : Nat}
include law

/-! ## Steps that may meet an error -/

theorem walk_pure (a : α) : L (Pure.pure a : WalkM η α).run := law.pure _

theorem throw (e : RecognitionError) : L (throw e : WalkM η α).run := law.pure _

theorem walk_bind {x : WalkM η α} {f : α → WalkM η β} (first : L x.run) (second : ∀ a, L (f a).run) :
    L (x >>= f).run := by
  rw [ExceptT.run_bind]
  apply law.bind first
  intro result
  cases result with
  | ok a => exact second a
  | error e => exact law.pure _

theorem lift {x : ParseM η α} (step : L x) : L (sure x).run := by
  unfold sure
  rw [ExceptT.run_lift, map_eq_pure_bind]
  exact law.bind step fun _ => law.pure _

theorem walk_modify {next : Parser η → Parser η} (step : L (modify next)) :
    L (modify next : WalkM η PUnit).run := law.lift step

theorem walk_get_bind {f : Parser η → WalkM η α} (rest : ∀ p, p.net = net → L (f p).run)
    (blind : ∀ p mode, f (p.inMode mode) = f p) : L (get >>= f).run :=
  law.get_bind rest fun p mode => congrArg ExceptT.run (blind p mode)

/-! ## Tokens -/

theorem la (k : Int) : L (la fuel k : ParseM η Int) := law.onStream (TokenStream.la_quiet k)

theorem tokenIndex (k : Int) : L (tokenIndex fuel k : ParseM η (Option Nat)) :=
  law.bind (law.onStream (TokenStream.lt_quiet k)) fun _ => law.pure _

theorem currentToken : L (currentToken fuel : ParseM η Token) :=
  law.bind (law.onStream (TokenStream.lt_quiet 1)) fun _ => law.pure _

theorem consume : L (consume fuel : ParseM η Unit) := by
  apply law.bind law.currentToken
  intro t
  have adds : L (do
      let p ← get
      if p.buildTrees then
        onTree fun tree => (tree.addLeaf p.ctx (if p.recovery.active then .error t else .token t)).2 :
          ParseM η Unit) := by
    refine law.get_bind (fun p _ => ?_) fun _ _ => rfl
    split
    · exact law.addLeaf _ _
    · exact law.pure _
  dsimp only
  split
  · exact law.bind (law.onStream TokenStream.consume_quiet) fun _ => adds
  · exact adds

theorem noteMatch : L (noteMatch : ParseM η Unit) := law.note (fun _ => {}) fun _ _ => rfl

/-! ## Reports -/

theorem report (offending : Option Token) (message : String) (error : Option RecognitionError) :
    L (report offending message error : ParseM η Unit) :=
  law.bind law.count fun _ => law.tell _ _ _ _ _

theorem unlessRecovering {step : ParseM η Unit} (reports : L step) : L (unlessRecovering step) := by
  refine law.get_bind (fun p _ => ?_) fun _ _ => rfl
  split
  · exact law.bind (law.note (fun p => { p.recovery with active := true }) fun _ _ => rfl) fun _ => reports
  · exact law.pure _

theorem reportError (e : RecognitionError) : L (reportError fuel e : ParseM η Unit) := by
  refine law.unlessRecovering (law.get_bind (fun p _ => ?_) fun _ _ => ?_)
  · cases e with
    | noViableAlt decision start offending => exact law.report _ _ _
    | inputMismatch state offending => exact law.report _ _ _
    | failedPredicate rule predicate => exact law.bind law.currentToken fun _ => law.report _ _ _
    | noViableToken start index => exact law.bind law.currentToken fun _ => law.report _ _ _
  · cases e <;> rfl

theorem reportUnwanted : L (reportUnwanted fuel : ParseM η Unit) :=
  law.unlessRecovering <| law.bind law.currentToken fun _ =>
    law.get_bind (fun _ _ => law.report _ _ _) fun _ _ => rfl

theorem reportMissing : L (reportMissing fuel : ParseM η Unit) :=
  law.unlessRecovering <| law.bind law.currentToken fun _ =>
    law.get_bind (fun _ _ => law.report _ _ _) fun _ _ => rfl

/-! ## Giving up a rule -/

theorem consumeUntil (set : SymbolSet) : L (consumeUntil fuel set : ParseM η Unit) := by
  have goes (rounds : Nat) : L (consumeUntil.go fuel set rounds : ParseM η Unit) := by
    induction rounds with
    | zero => exact law.failure
    | succ rounds ih =>
      apply law.bind (law.la 1)
      intro type
      split
      · exact law.bind law.consume fun _ => ih
      · exact law.pure _
  exact goes fuel

theorem recover (e : RecognitionError) : L (recover fuel e : ParseM η Unit) := by
  -- Behind the token that is passed over to get on.
  have rest (place : Nat) : L (do
      modify fun p : Parser η => { p with recovery := { p.recovery with
        lastIndex := some p.stream.index
        lastStates := p.recovery.lastStates ++ [p.state] } }
      Parser.consumeUntil fuel (← get).recoverySet
      let p ← get
      if p.stream.index = place && p.buildTrees then
        let t ← Parser.currentToken fuel
        onTree fun tree => (tree.addLeaf p.ctx (.error (p.standIn e t))).2 : ParseM η Unit) := by
    refine law.bind (law.note (fun p => { p.recovery with
      lastIndex := some p.stream.index
      lastStates := p.recovery.lastStates ++ [p.state] }) fun _ _ => rfl) fun _ => ?_
    refine law.get_bind (fun p _ => law.bind (law.consumeUntil _) fun _ => ?_) fun _ _ => rfl
    refine law.get_bind (fun p _ => ?_) fun _ _ => rfl
    split
    · exact law.bind law.currentToken fun _ => law.addLeaf _ _
    · exact law.pure _
  refine law.get_bind (fun p _ => ?_) fun _ _ => rfl
  dsimp only
  split
  · exact law.bind law.consume fun _ => rest _
  · exact rest _

/-! ## Repairs in place -/

theorem deleteToken? : L (deleteToken? fuel : ParseM η (Option Token)) := by
  refine law.bind (law.la 2) fun next => law.get_bind (fun p _ => ?_) fun _ _ => rfl
  split
  · exact law.bind law.reportUnwanted fun _ => law.bind law.consume fun _ =>
      law.bind law.currentToken fun _ => law.bind law.noteMatch fun _ => law.pure _
  · exact law.pure _

theorem insertToken : L (insertToken fuel : ParseM η Bool) := by
  refine law.bind (law.la 1) fun current => law.get_bind (fun p _ => ?_) fun _ _ => rfl
  split
  · exact law.pure _
  · split
    · exact law.bind law.reportMissing fun _ => law.pure _
    · exact law.pure _

theorem missingToken : L (missingToken fuel : ParseM η Token) := by
  refine law.get_bind (fun p _ => law.bind law.currentToken fun current => ?_) fun _ _ => rfl
  simp only [pure_bind]
  split
  · exact law.bind (law.onStream (TokenStream.lt_quiet _)) fun _ => law.pure _
  · exact law.pure _

theorem mismatch : L (mismatch : WalkM η α).run := law.walk_get_bind (fun _ _ => law.throw _) fun _ _ => rfl

theorem repair : L (repair fuel : WalkM η Unit).run := by
  -- Behind the token that was found or made up.
  have rest (t : Token) : L (do
      let p ← get
      if p.buildTrees && t.index.isNone then
        sure (onTree fun tree => (tree.addLeaf p.ctx (.error t)).2) : WalkM η Unit).run := by
    refine law.walk_get_bind (fun p _ => ?_) fun _ _ => rfl
    split
    · exact law.lift (law.addLeaf _ _)
    · exact law.walk_pure _
  apply law.walk_bind (law.lift law.deleteToken?)
  intro found
  cases found with
  | some t => exact law.walk_bind (law.lift law.consume) fun _ => rest t
  | none =>
    apply law.walk_bind (law.lift law.insertToken)
    intro inserts
    split
    · exact law.walk_bind (law.lift law.missingToken) fun t => rest t
    · exact law.walk_bind law.mismatch fun t => rest t

theorem sync : L (sync fuel : WalkM η Unit).run := by
  have deletes : L (do if (← sure (Parser.deleteToken? fuel)).isNone then Parser.mismatch : WalkM η Unit).run := by
    apply law.walk_bind (law.lift law.deleteToken?)
    intro found
    split
    · exact law.mismatch
    · exact law.walk_pure _
  have passes : L (do
      sure (Parser.reportUnwanted fuel)
      let p ← get
      sure (Parser.consumeUntil fuel (p.expected.union p.recoverySet)) : WalkM η Unit).run :=
    law.walk_bind (law.lift law.reportUnwanted) fun _ =>
      law.walk_get_bind (fun p _ => law.lift (law.consumeUntil _)) fun _ _ => rfl
  refine law.walk_get_bind (fun p _ => ?_) fun _ _ => rfl
  split
  · exact law.walk_pure _
  refine law.walk_bind (law.lift (law.la 1)) fun symbol => law.walk_get_bind (fun p _ => ?_) fun _ _ => rfl
  dsimp only
  split
  · exact law.walk_pure _
  split
  · exact deletes
  · exact deletes
  · exact passes
  · exact passes
  · exact law.walk_pure _

/-! ## Matching and choosing -/

theorem matchOrRepair (accepted : Bool) : L (matchOrRepair fuel accepted : WalkM η Unit).run := by
  unfold Parser.matchOrRepair
  split
  · exact law.walk_bind (law.lift law.noteMatch) fun _ => law.lift law.consume
  · exact law.repair

theorem chooseAlt (s : State) : L (chooseAlt fuel s : WalkM η Nat).run := by
  unfold Parser.chooseAlt
  split
  · exact law.walk_pure _
  split
  · exact law.walk_pure _
  refine law.walk_bind law.sync fun _ => law.walk_get_bind (fun p onNet => ?_) fun _ _ => rfl
  dsimp only
  rw [onNet]
  refine law.walk_bind (law.lift (law.predict _ _ _ _ _)) fun result => ?_
  split
  · exact law.walk_pure _
  · exact law.throw _

/-- A transition that calls no rule and does not make a left-recursive rule go on. -/
theorem take {s : State} {t : Transition} (plain : ∀ r q follow, t.label ≠ .rule r q follow)
    (steady : ∀ q, t.label = .epsilon q →
      (s.kind.isPrecedenceLoop && !(net.state t.target).kind.isLoopEnd) = false) :
    L (take fuel s t : WalkM η Unit).run := by
  have looks (accepts : Int → Bool) :
      L (do Parser.matchOrRepair fuel (accepts (← sure (Parser.la fuel 1))) : WalkM η Unit).run :=
    law.walk_bind (law.lift (law.la 1)) fun _ => law.matchOrRepair _
  unfold Parser.take
  refine law.walk_get_bind (fun p onNet => ?_) fun _ _ => rfl
  rw [onNet]
  dsimp only
  split
  · rename_i label
    rw [steady _ label, if_neg Bool.false_ne_true]
    exact law.walk_pure _
  · refine law.walk_bind (law.lift (law.la 1)) fun symbol => ?_
    split
    · exact law.walk_bind (law.walk_modify law.noteEof) fun _ => law.matchOrRepair _
    · exact law.matchOrRepair _
  · exact looks _
  · exact looks _
  · exact looks _
  · exact looks _
  · rename_i label
    exact absurd label (plain _ _ _)
  · refine law.walk_bind (law.lift (law.ask _ _)) fun answer => ?_
    split
    · exact law.throw _
    · exact law.walk_pure _
  · split
    · exact law.lift (law.act _ _)
    · exact law.walk_pure _
  · refine law.walk_get_bind (fun p _ => ?_) fun _ _ => rfl
    split
    · exact law.throw _
    · exact law.walk_pure _

end StepLaw

end AdaptiveLL.Parser
