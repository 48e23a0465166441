import AdaptiveLL.Proofs.Grammar.Returns
import AdaptiveLL.Proofs.Prediction.Recording

/-!
# Predictions that go alike in every mode

The mode counts at two places of the local part of a prediction: where guards are ignored in the test for a
conflict, and where a conflict is settled with full context. Without predicates there are no guards
(`DfaCache.Guardless`), and whoever settles a conflict with full context reports it. So a prediction that has
not reported full context has gone just as it goes with local context only (`predict_agrees`).

Two runs are followed step by step (`Unison`), up to the first report that is loud.
-/

set_option autoImplicit false

namespace AdaptiveLL

open Session

/-! ## Runs in unison -/

namespace Session

/-- Whenever `x` ends, it has only added to the journal, and its result and its state satisfy `Q`. Unless a
parser has reported something loud, `y` goes the same way from the image of the state. -/
def Unison {σ α : Type} (image : σ → σ) (loud : Event → Bool) (x y : StateT σ Session α) (s : σ)
    (Q : α → σ → Prop) : Prop :=
  ∀ j a s' j', (x.run s).run j = some ((a, s'), j') → ∃ new : Journal, j' = j ++ new ∧ Q a s' ∧
    ((new.reports (· == .parser)).any loud = false → (y.run (image s)).run j = some ((a, image s'), j'))

namespace Unison

variable {σ α β ρ : Type} {image : σ → σ} {inner : ρ → ρ} {loud : Event → Bool} {s : σ} {x y : StateT σ Session α}
  {f g : α → StateT σ Session β} {P : α → σ → Prop} {Q : β → σ → Prop}

theorem bind (first : Unison image loud x y s P)
    (second : ∀ a s', P a s' → Unison image loud (f a) (g a) s' Q) : Unison image loud (x >>= f) (y >>= g) s Q := by
  intro j b s'' j'' ran
  rw [StateT.run_bind, StateT.run_bind] at ran
  obtain ⟨⟨⟨a, s'⟩, j'⟩, ran, rest⟩ := Option.bind_eq_some_iff.1 ran
  obtain ⟨new, rfl, holds, same⟩ := first j a s' j' ran
  obtain ⟨new', rfl, holds', same'⟩ := second a s' holds _ b s'' j'' rest
  refine ⟨new ++ new', Array.append_assoc, holds', fun quiet => ?_⟩
  rw [Journal.reports_append, List.any_append, Bool.or_eq_false_iff] at quiet
  rw [StateT.run_bind, StateT.run_bind]
  exact Option.bind_eq_some_iff.2 ⟨_, same quiet.1, same' quiet.2⟩

theorem pure {a : α} (holds : P a s) : Unison image loud (pure a) (pure a) s P := by
  intro j b s' j' ran
  cases ran
  exact ⟨#[], Array.append_empty.symm, holds, fun _ => rfl⟩

theorem failure : Unison image loud failure y s P := by
  intro j a s' j' ran
  cases ran

theorem get_bind {f g : σ → StateT σ Session β} (rest : Unison image loud (f s) (g (image s)) s Q) :
    Unison image loud (get >>= f) (get >>= g) s Q := rest

theorem set_bind {f g : PUnit → StateT σ Session β} {next next' : σ} (same : next' = image next)
    (rest : Unison image loud (f ⟨⟩) (g ⟨⟩) next Q) : Unison image loud (set next >>= f) (set next' >>= g) s Q := by
  subst same
  exact rest

theorem of_set {next next' : σ} {P : PUnit → σ → Prop} (same : next' = image next) (holds : P ⟨⟩ next) :
    Unison image loud (set next) (set next') s P := by
  intro j a s' j' ran
  subst same
  cases ran
  exact ⟨#[], Array.append_empty.symm, holds, fun _ => rfl⟩

theorem of_modifyGet {f g : σ → α × σ} (same : g (image s) = ((f s).1, image (f s).2)) (holds : P (f s).1 (f s).2) :
    Unison image loud (modifyGet f) (modifyGet g) s P := by
  intro j a s' j' ran
  have ran : some (f s, j) = some ((a, s'), j') := ran
  obtain ⟨result, rfl⟩ := Prod.mk.inj (Option.some.inj ran)
  rw [result] at same holds
  exact ⟨#[], Array.append_empty.symm, holds, fun _ => congrArg (fun r => some (r, j)) same⟩

theorem of_modify {f g : σ → σ} {P : PUnit → σ → Prop} (same : g (image s) = image (f s)) (holds : P ⟨⟩ (f s)) :
    Unison image loud (modify f) (modify g) s P :=
  of_modifyGet (f := fun s => (PUnit.unit, f s)) (g := fun s => (PUnit.unit, g s)) (congrArg _ same) holds

/-- Both write the same into the journal. -/
theorem of_journal {write : Journal → Journal} {P : PUnit → σ → Prop}
    (adds : ∀ j, ∃ new : Journal, write j = j ++ new) (holds : P ⟨⟩ s) :
    Unison image loud (modifyThe Journal write) (modifyThe Journal write) s P := by
  intro j a s' j' ran
  cases ran
  obtain ⟨new, same⟩ := adds j
  exact ⟨new, same, holds, fun _ => rfl⟩

/-- Steps on a part of the state. -/
theorem part_bind {r : ρ} {x y : StateT ρ Session α} {f g : α × ρ → StateT σ Session β} {P : α → ρ → Prop}
    (first : Unison inner loud x y r P)
    (second : ∀ a r', P a r' → Unison image loud (f (a, r')) (g (a, inner r')) s Q) :
    Unison image loud (liftM (x.run r) >>= f) (liftM (y.run (inner r)) >>= g) s Q := by
  intro j b s'' j'' ran
  rw [StateT.run_bind, StateT.run_bind] at ran
  obtain ⟨⟨⟨⟨a, r'⟩, s'⟩, j'⟩, lifted, rest⟩ := Option.bind_eq_some_iff.1 ran
  obtain ⟨⟨⟨a', r''⟩, j₁⟩, ran, same⟩ := Option.bind_eq_some_iff.1 lifted
  cases same
  obtain ⟨new, rfl, holds, same⟩ := first j a r' _ ran
  obtain ⟨new', rfl, holds', same'⟩ := second a r' holds _ b s'' j'' rest
  refine ⟨new ++ new', Array.append_assoc, holds', fun quiet => ?_⟩
  rw [Journal.reports_append, List.any_append, Bool.or_eq_false_iff] at quiet
  rw [StateT.run_bind, StateT.run_bind]
  refine Option.bind_eq_some_iff.2 ⟨_, Option.bind_eq_some_iff.2 ⟨_, same quiet.1, rfl⟩, same' quiet.2⟩

/-- A step that reports something loud is in unison with every other. -/
theorem of_loud (reports : Reports x s fun a s' es => es.any loud = true ∧ P a s') : Unison image loud x y s P := by
  intro j a s' j' ran
  obtain ⟨new, rfl, isLoud, holds⟩ := reports j a s' j' ran
  exact ⟨new, rfl, holds, fun quiet => nomatch isLoud.symm.trans quiet⟩

end Unison

/-- A step that reports nothing is in unison with itself. -/
theorem Quiet.unison {σ α : Type} {x : StateT σ Session α} (quiet : Quiet x) (loud : Event → Bool) (s : σ) :
    Unison id loud x x s fun _ _ => True := by
  intro j a s' j' ran
  obtain ⟨new, rfl, -, -⟩ := quiet s j a s' j' ran
  exact ⟨new, rfl, trivial, fun _ => ran⟩

end Session

/-! ## Automata without guards -/

namespace ConfigSet

variable {s : ConfigSet}

/-- Every configuration is possible always. -/
abbrev Guardless (s : ConfigSet) : Prop := s.Within fun _ guard => guard = .always

theorem Guardless.unmarked (guardless : s.Guardless) : s.hasGuards = false := by
  by_contra marked
  obtain ⟨_, _, rfl, absurd⟩ := guardless.marked (by simpa using marked)
  cases absurd

/-- The kept contexts do not change what is known of each configuration alone. -/
theorem Within.intern {I : Nat → Guard → Prop} (within : s.Within I) (table : Context.Table) :
    (s.intern table).1.Within I := by
  have folded (cs : List Config) (known : ∀ c ∈ cs, I c.alt c.guard) (acc : Array Config × Context.Table)
      (before : ∀ c ∈ acc.1, I c.alt c.guard) :
      ∀ c ∈ (cs.foldl (fun (acc : Array Config × Context.Table) c =>
        (acc.1.push { c with context := (Context.Table.intern c.context acc.2).1 },
          (Context.Table.intern c.context acc.2).2)) acc).1, I c.alt c.guard := by
    induction cs generalizing acc with
    | nil => exact before
    | cons c cs ih =>
      refine ih (fun d member => known d (List.mem_cons_of_mem _ member)) _ fun d member => ?_
      rcases Array.mem_push.1 member with old | rfl
      · exact before d old
      · exact known c List.mem_cons_self
  refine ⟨?_, within.marked⟩
  unfold ConfigSet.intern
  rw [← Array.foldl_toList]
  exact folded s.configs.toList (fun c member => within.configs c (Array.mem_toList_iff.1 member)) (#[], table)
    fun c member => absurd member (Array.not_mem_empty c)

end ConfigSet

/-- The state is not left to guards. -/
structure DfaState.Guardless (t : DfaState) : Prop where
  configs : t.configs.Guardless
  predicates : t.predicates = none

/-- No state is left to guards. -/
def Dfa.Guardless (d : Dfa) : Prop := ∀ t ∈ d.states, t.Guardless

namespace Dfa

variable {d d' : Dfa} {t : DfaState}

theorem Guardless.of_states (guardless : d.Guardless) (states : d'.states = d.states) : d'.Guardless := by
  unfold Guardless
  rw [states]
  exact guardless

theorem Guardless.state (guardless : d.Guardless) (n : Nat) : (d.state n).Guardless := by
  rw [Dfa.state, Array.getD_eq_getD_getElem?]
  cases found : d.states[n]? with
  | none => exact ⟨ConfigSet.within_ofParser false, rfl⟩
  | some t => exact guardless t (Array.mem_of_getElem? found)

theorem Guardless.setEdge (guardless : d.Guardless) (n i : Nat) (e : DfaEdge) : (d.setEdge n i e).Guardless := by
  intro t member
  rcases mem_setEdge member with old | ⟨s, before, rfl⟩
  · exact guardless t old
  · have known := guardless s (Array.mem_of_getElem? before)
    exact ⟨known.configs, known.predicates⟩

theorem Guardless.addState (guardless : d.Guardless) (new : t.Guardless) (table : Context.Table) :
    (d.addState t table).2.1.Guardless := by
  unfold Dfa.addState
  dsimp only
  split
  · exact guardless
  · split
    · exact guardless
    · intro s member
      rcases Array.mem_push.1 member with old | rfl
      · exact guardless s old
      · exact ⟨new.configs.intern table, new.predicates⟩

theorem Guardless.setStart (guardless : d.Guardless) (n : Nat) : (d.setStart n).2.Guardless := by
  unfold Dfa.setStart
  split <;> exact guardless.of_states rfl

theorem Guardless.setPrecedenceStart (guardless : d.Guardless) (p : Int) (n : Nat) :
    (d.setPrecedenceStart p n).2.Guardless := by
  unfold Dfa.setPrecedenceStart
  split <;> exact guardless.of_states rfl

end Dfa

/-- No automaton of the cache leaves anything to guards. -/
def DfaCache.Guardless (cache : DfaCache) : Prop := ∀ i, (cache.dfa i).Guardless

namespace DfaCache

variable {cache : DfaCache}

theorem guardless_fresh (net : Network) : (ofNetwork net).Guardless := by
  intro i t member
  rw [states_fresh] at member
  cases Array.not_mem_empty t member

theorem Guardless.modifyDfa (guardless : cache.Guardless) (i : Nat) {f : Dfa → Dfa}
    (kept : ∀ d : Dfa, d.Guardless → (f d).Guardless) : (cache.modifyDfa i f).Guardless := by
  intro k
  rcases dfa_modifyDfa_cases cache i f with same | changed
  · rw [same]
    exact guardless k
  · rw [changed]
    split
    · exact kept _ (guardless i)
    · exact guardless k

theorem Guardless.addState (guardless : cache.Guardless) (i : Nat) {t : DfaState} (new : t.Guardless) :
    (cache.addState i t).2.Guardless := by
  intro k
  rcases dfa_addState_cases cache i t with ⟨-, same⟩ | changed
  · rw [same]
    exact guardless k
  · rw [changed]
    split
    · exact (guardless i).addState new _
    · exact guardless k

end DfaCache

namespace Prediction

variable {η : Type} {env : Env η} {configs : ConfigSet}

/-- Without guards the mode does not count for the state of a set of configurations. -/
theorem stateOf_guardless (guardless : configs.Guardless) (net : Network) (mode mode' : PredictionMode)
    (count width : Nat) :
    stateOf net mode count width configs = stateOf net mode' count width configs ∧
      (stateOf net mode count width configs).Guardless := by
  have unmarked := guardless.unmarked
  have plain {s : DfaState} (none' : s.configs.hasGuards = false) : guardState count s = s := by
    rw [guardState, none', Bool.and_false]
    rfl
  have ends : endsInConflict net mode configs = endsInConflict net mode' configs := by
    simp only [endsInConflict, unmarked, Bool.and_false]
  unfold stateOf
  rw [← ends]
  refine ⟨rfl, ?_⟩
  dsimp only
  rw [plain (by split <;> [skip; split] <;> exact unmarked)]
  split
  · exact ⟨guardless.reflag rfl rfl, rfl⟩
  · split
    · exact ⟨guardless.reflag rfl rfl, rfl⟩
    · exact ⟨guardless, rfl⟩

theorem resolves_always (env : Env η) : Resolves env fun c => c.guard = .always := by
  intro c always h g resolved
  rw [always] at resolved
  cases resolved
  rfl

end Prediction

/-! ## Steps of predictions -/

namespace Simulator

open Prediction TokenStream

variable {η : Type} {α β : Type} {env : Env η} {start : Nat}

/-- The simulator with another mode. -/
def inMode (s : Simulator η) (mode : PredictionMode) : Simulator η := { s with mode }

/-- Up to a report of full context, the step goes alike with local context only. Its result satisfies `P`, and
nothing is left to guards. -/
def Agrees (P : α → Prop) (x : PredictM η α) : Prop := ∀ s : Simulator η, s.cache.Guardless →
  Unison (inMode · .sll) Event.isFullContext x x s fun a s' => s'.cache.Guardless ∧ P a

namespace Agrees

variable {P : α → Prop} {Q : β → Prop}

theorem bind {x : PredictM η α} {f : α → PredictM η β} (first : Agrees P x) (second : ∀ a, P a → Agrees Q (f a)) :
    Agrees Q (x >>= f) := fun s guardless =>
  (first s guardless).bind fun a s' ⟨guardless', holds⟩ => second a holds s' guardless'

theorem pure {a : α} (holds : P a) : Agrees P (pure a : PredictM η α) := fun _ guardless => .pure ⟨guardless, holds⟩

theorem failure : Agrees P (failure : PredictM η α) := fun _ _ => .failure

theorem get_bind {f : Simulator η → PredictM η α} (rest : ∀ s, Agrees P (f s))
    (blind : ∀ s : Simulator η, f (s.inMode .sll) = f s) : Agrees P (get >>= f) := by
  refine fun s guardless => .get_bind ?_
  rw [blind]
  exact rest s s guardless

theorem modify {next : Simulator η → Simulator η} (blind : ∀ s, next (s.inMode .sll) = (next s).inMode .sll)
    (kept : ∀ s, s.cache.Guardless → (next s).cache.Guardless) :
    Agrees (fun _ => True) (modify next : PredictM η PUnit) :=
  fun s guardless => .of_modify (blind s) ⟨kept s guardless, trivial⟩

theorem onStream {step : StreamM η α} (quiet : Quiet step) : Agrees (fun _ => True) (onStream step) :=
  fun s guardless => .get_bind <| (quiet.unison _ s.stream).part_bind fun _ _ _ =>
    .set_bind rfl (.pure ⟨guardless, trivial⟩)

theorem onConfigs {step : ScratchM η α} (leaves : ∀ w, Leaves step w fun a _ => P a) :
    Agrees P (onConfigs step) := by
  refine fun s guardless => .get_bind ?_
  cases ran : step.run { merges := s.merges, hooks := s.stream.hooks } with
  | none =>
    simp only [inMode, ran]
    exact .failure
  | some r =>
    simp only [inMode, ran]
    exact .set_bind rfl (.pure ⟨guardless, leaves _ _ _ ran⟩)

/-- The same where nothing is to be known of the result. -/
theorem asking (step : ScratchM η α) : Agrees (fun _ => True) (Simulator.onConfigs step) :=
  onConfigs fun _ _ _ _ => trivial

theorem count (f : Stats → Stats) : Agrees (fun _ => True) (count f : PredictM η Unit) :=
  modify (fun _ => rfl) fun _ => id

theorem report (e : Event) : Agrees (fun _ => True) (report e : PredictM η Unit) :=
  fun _ guardless => .of_journal (fun _ => ⟨_, Array.push_eq_append⟩) ⟨guardless, trivial⟩

theorem index : Agrees (fun _ => True) (index : PredictM η Nat) := get_bind (fun _ => pure trivial) fun _ => rfl

theorem dfa (decision : Nat) : Agrees Dfa.Guardless (dfa decision : PredictM η Dfa) :=
  fun _ guardless => .get_bind (.pure ⟨guardless, guardless decision⟩)

theorem modifyDfa (decision : Nat) {f : Dfa → Dfa} (kept : ∀ d : Dfa, d.Guardless → (f d).Guardless) :
    Agrees (fun _ => True) (modifyDfa decision f : PredictM η Unit) :=
  modify (fun _ => rfl) fun _ guardless => guardless.modifyDfa decision kept

theorem register (decision : Nat) {t : DfaState} (new : t.Guardless) :
    Agrees (fun _ => True) (register decision t : PredictM η Nat) :=
  fun _ guardless => .of_modifyGet rfl ⟨guardless.addState decision new, trivial⟩

end Agrees

/-! ## The learned automaton -/

theorem recordEdge_agrees (n : Nat) (symbol : Int) (e : DfaEdge) :
    Agrees (fun _ => True) (recordEdge env n symbol e) := by
  unfold recordEdge
  split
  · exact .modifyDfa _ fun d guardless => guardless.setEdge n _ e
  · exact .pure trivial

/-- Without predicates, nothing gets a guard. -/
theorem upholds_always (unguarded : env.net.Unguarded) :
    Upholds env false (fun c => c.guard = .always) (fun c => c.guard = .always) fun s (_ : Scratch η) => s.Guardless :=
  upholds_within (unguarded.inherits fun _ guard => guard = .always)

theorem startState_agrees (unguarded : env.net.Unguarded) (precedence : Int) :
    Agrees (fun _ => True) (startState env precedence) := by
  have upholds := upholds_always unguarded
  refine (Agrees.dfa _).bind fun d _ => ?_
  split
  · exact .pure trivial
  · refine (Agrees.onConfigs fun w => startSet_upholds upholds (ConfigSet.within_ofParser false)
      fun _ _ _ => rfl).bind fun configs guardless => ?_
    have registered {configs : ConfigSet} (guardless : configs.Guardless) {f : Dfa → Nat → Nat × Dfa}
        (kept : ∀ (d : Dfa) n, d.Guardless → (f d n).2.Guardless) : Agrees (fun _ => True) (do
          let n ← register env.decision (.ofConfigs configs d.width)
          let started := f (← dfa env.decision) n
          modifyDfa env.decision fun _ => started.2
          return started.1 : PredictM η Nat) :=
      (Agrees.register _ ⟨guardless, rfl⟩).bind fun n _ => (Agrees.dfa _).bind fun d guardless =>
        (Agrees.modifyDfa _ fun _ _ => kept d n guardless).bind fun _ _ => .pure trivial
    split
    · refine (Agrees.onConfigs fun w => precedenceFilter_upholds upholds (resolves_always env)
        guardless).bind fun configs guardless => ?_
      exact registered guardless fun d n guardless => guardless.setPrecedenceStart precedence n
    · exact registered guardless fun d n guardless => guardless.setStart n

theorem computeTarget_agrees (unguarded : env.net.Unguarded) (n : Nat) (symbol : Int) :
    Agrees (fun _ => True) (computeTarget env n symbol) := by
  have upholds := upholds_always unguarded
  refine (Agrees.dfa _).bind fun d guardless => ?_
  refine (Agrees.onConfigs fun w => (reachSet_upholds upholds (guardless.state n).configs).imp
    fun _ _ known => known.2).bind fun result found => ?_
  cases result with
  | none => exact (recordEdge_agrees n symbol _).bind fun _ _ => .pure trivial
  | some reach =>
    have guardless' : reach.Guardless := (found reach rfl).1
    refine Agrees.get_bind (fun s => ?_) fun s => ?_
    · refine (Agrees.register _ (stateOf_guardless guardless' _ s.mode s.mode _ _).2).bind fun target _ => ?_
      exact (recordEdge_agrees n symbol _).bind fun _ _ => .pure trivial
    · rw [(stateOf_guardless guardless' _ _ s.mode _ _).1]

theorem target_agrees (unguarded : env.net.Unguarded) (n : Nat) (symbol : Int) :
    Agrees (fun _ => True) (target env n symbol) := by
  refine (Agrees.dfa _).bind fun d _ => ?_
  split
  · exact (Agrees.count _).bind fun _ _ => .pure trivial
  · exact (Agrees.count _).bind fun _ _ => computeTarget_agrees unguarded n symbol

/-! ## Outcomes -/

theorem fail_agrees (offending : Nat) : Agrees (fun _ => True) (fail env start offending) :=
  (Agrees.report _).bind fun _ _ => .pure trivial

theorem failOrFallback_agrees (configs : ConfigSet) : Agrees (fun _ => True) (failOrFallback env start configs) := by
  refine Agrees.index.bind fun offending _ => (Agrees.asking _).bind fun alt _ => ?_
  split
  · exact .pure trivial
  · exact fail_agrees offending

theorem accept_agrees {t : DfaState} (guardless : t.Guardless) : Agrees (fun _ => True) (accept env start t) := by
  unfold accept
  rw [guardless.predicates]
  exact .pure trivial

/-- A conflict is not settled without a report of full context. -/
theorem settleConflict_loud {t : DfaState} (guardless : t.Guardless) {s : Simulator η} (retried : s.mode ≠ .sll)
    (outer : Context) : Reports (settleConflict env start outer t) s fun _ s' es =>
      es.any Event.isFullContext = true ∧ s'.cache = s.cache := by
  unfold settleConflict
  rw [guardless.predicates]
  refine ((predictFull_retried retried outer _ s rfl).and_leads
    (predictFull_reading start outer _ s)).imp fun _ s' es known => ?_
  obtain ⟨⟨-, -, stop, es', rfl, -⟩, cache⟩ := known
  exact ⟨rfl, cache⟩

/-! ## Predictions -/

theorem runLocal_agrees (unguarded : env.net.Unguarded) (outer : Context) (rounds n : Nat) (symbol : Int) :
    Agrees (fun _ => True) (runLocal env start outer rounds n symbol) := by
  induction rounds generalizing n symbol with
  | zero => exact .failure
  | succ rounds ih =>
    refine (target_agrees unguarded n symbol).bind fun edge _ => ?_
    split
    · exact (Agrees.dfa _).bind fun d _ => failOrFallback_agrees _
    · rename_i next
      refine (Agrees.dfa _).bind fun d guardless => fun s guardless' => .get_bind ?_
      have here := guardless.state next
      by_cases conflict : ((d.state next).needsFullContext && s.mode != .sll) = true
      · rw [if_pos conflict]
        have retried : s.mode ≠ .sll := by simpa using (Bool.and_eq_true_iff.1 conflict).2
        exact .of_loud ((settleConflict_loud here retried outer).imp fun _ s' _ ⟨told, cache⟩ =>
          ⟨told, cache ▸ guardless', trivial⟩)
      · have local' : ¬ ((d.state next).needsFullContext && (s.inMode .sll).mode != .sll) = true := by
          simp [inMode]
        rw [if_neg conflict, if_neg local']
        have goesOn : Agrees (fun _ => True) (if (d.state next).accepts then accept env start (d.state next)
            else if symbol ≠ endOfInput then do
              onStream (TokenStream.consume env.fuel)
              let symbol ← onStream (TokenStream.la env.fuel 1)
              runLocal env start outer rounds next symbol
            else runLocal env start outer rounds next symbol) := by
          split
          · exact accept_agrees here
          · split
            · exact (Agrees.onStream consume_quiet).bind fun _ _ =>
                (Agrees.onStream (la_quiet 1)).bind fun _ _ => ih _ _
            · exact ih _ _
        exact goesOn s guardless'

/-- Without predicates, a prediction that reports no full context goes alike with local context only. -/
theorem predict_agrees {net : Network} (unguarded : net.Unguarded) (fuel : Nat) (evaluator : Guard.Evaluator η)
    (decision : Nat) (callStack : List Nat) (precedence : Int) :
    Agrees (fun _ => True) (predict net fuel evaluator decision callStack precedence) := by
  refine (Agrees.count _).bind fun _ _ => (Agrees.dfa _).bind fun d _ => Agrees.index.bind fun start _ => ?_
  have forgets : Agrees (fun _ => True) (modify ({ · with merges := {} }) : PredictM η PUnit) :=
    .modify (fun _ => rfl) fun _ => id
  refine forgets.bind fun _ _ => ?_
  refine (startState_agrees unguarded precedence).bind fun n _ => (Agrees.onStream (la_quiet 1)).bind fun symbol _ => ?_
  exact (runLocal_agrees unguarded _ fuel n symbol).bind fun result _ =>
    (Agrees.onStream (returnTo_quiet start)).bind fun _ _ => .pure trivial

end Simulator

/-! ## Grammars without predicates -/

namespace Grammar

open Layout Network

variable {g : Grammar} {compiled : CompiledGrammar} {net : Network} {verify : Bool}

/-- Where no rule asks for a predicate, no transition does. -/
theorem compile_unguarded (assembled : g.Assembled) (representable : g.Representable)
    (run : g.compile = .ok compiled) (decoded : decode compiled.words verify = .ok net)
    (unguarded : g.Unguarded) : net.Unguarded := by
  obtain ⟨base, derived, actions, -, laid, outfitted, -, isDerived, isMarked, restored⟩ :=
    compile_derived assembled representable run decoded
  intro n t member
  cases isStop : (base.state n).kind.isRuleStop with
  | true =>
    rw [isMarked, out_mark] at member
    obtain ⟨outermost, label⟩ := isDerived.returns n isStop t member
    simp [label]
  | false =>
    rw [(restored.out n isStop).1] at member
    have fits := outfitted.equipped.labels n t member
    refine ⟨fun rule pred ctx label => ?_, fun q label => ?_⟩
    · rw [label] at fits
      exact fits.2.2 unguarded
    · rw [label] at fits
      exact fits.2 unguarded

end Grammar

end AdaptiveLL
