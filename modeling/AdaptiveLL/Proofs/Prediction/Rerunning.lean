import AdaptiveLL.Proofs.Prediction.Inheritance

/-!
# Predictions run again

A step of a prediction that asks no predicates depends on nothing but its configurations: run again with more
fuel, other user code and other remembered merges, as long as these are right, it ends with the same result
(`reachSet_mirrors`). Two computations are compared step by step (`Mirrors`), with a relation of their states
that every step keeps.
-/

set_option autoImplicit false

namespace AdaptiveLL

/-! ## Two computations side by side -/

/-- From related states, whenever the first computation ends, the second one ends with the same result, which
satisfies `P`, and the states are related again. -/
def Mirrors {σ τ α : Type} (R : σ → τ → Prop) (P : α → Prop) (x : StateT σ Option α) (y : StateT τ Option α) :
    Prop :=
  ∀ s t, R s t → ∀ a s', x.run s = some (a, s') → P a ∧ ∃ t', y.run t = some (a, t') ∧ R s' t'

namespace Mirrors

variable {σ τ α β : Type} {R : σ → τ → Prop} {P : α → Prop} {Q : β → Prop} {x x' : StateT σ Option α}
  {y y' : StateT τ Option α}

theorem pure {a : α} (holds : P a) : Mirrors R P (pure a) (pure a) := by
  intro s t related b s' ran
  cases ran
  exact ⟨holds, t, rfl, related⟩

theorem failure : Mirrors R P failure y := fun _ _ _ _ _ ran => nomatch ran

theorem bind {f : α → StateT σ Option β} {g : α → StateT τ Option β} (first : Mirrors R P x y)
    (second : ∀ a, P a → Mirrors R Q (f a) (g a)) : Mirrors R Q (x >>= f) (y >>= g) := by
  intro s t related b s'' ran
  rw [StateT.run_bind] at ran
  obtain ⟨⟨a, s'⟩, ran, rest⟩ := Option.bind_eq_some_iff.1 ran
  obtain ⟨holds, t', ran', related'⟩ := first s t related a s' ran
  obtain ⟨holds', t'', rest', related''⟩ := second a holds s' t' related' b s'' rest
  refine ⟨holds', t'', ?_, related''⟩
  rw [StateT.run_bind]
  exact Option.bind_eq_some_iff.2 ⟨(a, t'), ran', rest'⟩

theorem ite {q : Prop} [Decidable q] (yes : q → Mirrors R P x y) (no : ¬ q → Mirrors R P x' y') :
    Mirrors R P (if q then x else x') (if q then y else y') := by
  split
  · exact yes ‹q›
  · exact no ‹¬ q›

theorem modifyGet {f : σ → α × σ} {g : τ → α × τ}
    (both : ∀ s t, R s t → P (f s).1 ∧ (g t).1 = (f s).1 ∧ R (f s).2 (g t).2) :
    Mirrors R P (modifyGet f) (modifyGet g) := by
  intro s t related a s' ran
  obtain ⟨holds, same, related'⟩ := both s t related
  have ran : f s = (a, s') := Option.some.inj ran
  rw [ran] at holds same related'
  exact ⟨holds, (g t).2, congrArg some (Prod.ext same rfl), related'⟩

theorem modify {f : σ → σ} {g : τ → τ} (both : ∀ s t, R s t → R (f s) (g t)) :
    Mirrors R (fun _ => True) (modify f) (modify g) :=
  modifyGet (f := fun s => (PUnit.unit, f s)) (g := fun t => (PUnit.unit, g t))
    fun s t related => ⟨trivial, rfl, both s t related⟩

theorem forM {ι : Type} {f : ι → StateT σ Option PUnit} {g : ι → StateT τ Option PUnit} {l : List ι}
    (each : ∀ i ∈ l, Mirrors R (fun _ => True) (f i) (g i)) :
    Mirrors R (fun _ => True) (l.forM f) (l.forM g) := by
  induction l with
  | nil => exact pure trivial
  | cons i rest ih =>
    exact (each i List.mem_cons_self).bind fun _ _ => ih fun k member => each k (List.mem_cons_of_mem _ member)

theorem foldlM {ι : Type} {f : α → ι → StateT σ Option α} {g : α → ι → StateT τ Option α} {l : List ι} {a : α}
    (before : P a) (each : ∀ i ∈ l, ∀ a, P a → Mirrors R P (f a i) (g a i)) :
    Mirrors R P (l.foldlM f a) (l.foldlM g a) := by
  induction l generalizing a with
  | nil => exact pure before
  | cons i rest ih =>
    rw [List.foldlM_cons, List.foldlM_cons]
    exact (each i List.mem_cons_self a before).bind fun b holds =>
      ih holds fun k member => each k (List.mem_cons_of_mem _ member)

end Mirrors

namespace Prediction

open Reference

variable {η θ : Type} {env : Env η} {evaluator : Guard.Evaluator θ} {p : Purpose} {full : Bool} {s : ConfigSet}
  {c : Config} {x : Int} {enough : Nat}

/-- The same simulation with other user code and other fuel. -/
def Env.again (env : Env η) (evaluator : Guard.Evaluator θ) (fuel : Nat) : Env θ where
  net := env.net
  decision := env.decision
  startState := env.startState
  precedenceLoop := env.precedenceLoop
  evaluator
  fuel

/-! ## Closures -/

/-- Two closures have found and passed the same, and their remembered merges are right. -/
structure Matched (full : Bool) (w : Work η) (w' : Work θ) : Prop where
  configs : w'.configs = w.configs
  busy : w'.busy = w.busy
  formed : w.configs.Formed full
  faithful : w.scratch.merges.Faithful (!full)
  faithful' : w'.scratch.merges.Faithful (!full)

theorem addConfig_mirrors (fine : Fine c) :
    Mirrors (Matched (η := η) (θ := θ) full) (fun _ => True) (addConfig c) (addConfig c) := by
  refine .modify fun w w' matched => ?_
  have formed' : w'.configs.Formed full := matched.configs ▸ matched.formed
  obtain ⟨inserted, faithful, formed⟩ := insertMemo_eq matched.formed fine matched.faithful
  obtain ⟨inserted', faithful', -⟩ := insertMemo_eq formed' fine matched.faithful'
  refine ⟨(inserted'.trans (by rw [matched.configs])).trans inserted.symm, matched.busy, ?_, faithful, faithful'⟩
  change (w.configs.insertMemo c w.scratch.merges).1.Formed full
  rw [inserted]
  exact formed

theorem isNew_mirrors : Mirrors (Matched (η := η) (θ := θ) full) (fun _ => True) (isNew c) (isNew c) := by
  refine .modifyGet fun w w' matched => ⟨trivial, by rw [matched.busy], ?_⟩
  exact ⟨matched.configs, by rw [matched.busy], matched.formed, matched.faithful, matched.faithful'⟩

theorem epsilonTarget_mirrors (fine : Fine c) (t : Transition) (inRule : Bool) :
    Mirrors (Matched (η := η) (θ := θ) full) (fun result => ∀ next, result = some next → Fine next)
      (epsilonTarget env p c t false inRule) (epsilonTarget (env.again evaluator enough) p c t false inRule) := by
  have moved (next : Config) (same : some (c.withState t.target) = some next) : Fine next :=
    Option.some.inj same ▸ fine
  obtain ⟨target, label⟩ := t
  cases label with
  | rule r q ret =>
    refine Mirrors.bind (P := fun next => next = c.withContext target (c.context.push ret)) ?_ fun next same => ?_
    · refine .modifyGet fun w w' matched => ⟨?_, ?_, matched.configs, matched.busy, matched.formed,
        matched.faithful.share _, matched.faithful'.share _⟩
      · exact congrArg (c.withContext target) (Context.Memo.share_fst _ _)
      · exact congrArg (c.withContext target)
          ((Context.Memo.share_fst _ _).trans (Context.Memo.share_fst _ _).symm)
    · subst same
      refine .pure fun next same => ?_
      cases same
      exact ⟨fine.1.push fine.2 _, nofun⟩
  | precedence | predicate | action | epsilon => exact .pure moved
  | atom | range | set =>
    refine .pure fun next same => ?_
    split at same
    · exact moved next same
    · cases same
  | notSet | wildcard => exact .pure fun next same => nomatch same

/-- The closure of a configuration can be run again, with this much fuel and any more. -/
def ClosureMirrors (env : Env η) (evaluator : Guard.Evaluator θ) (enough : Nat) (p : Purpose) (full : Bool)
    (fuel : Nat) : Prop :=
  ∀ (fuel' : Nat) (c : Config) (depth : Int), fuel ≤ fuel' → Fine c →
    Mirrors (Matched full) (fun _ => True) (closure env p fuel c false depth)
      (closure (env.again evaluator enough) p fuel' c false depth)

theorem passEdge_mirrors {fuel fuel' : Nat} (below : ClosureMirrors env evaluator enough p full fuel)
    (more : fuel ≤ fuel') (fine : Fine c) (depth : Int) (t : Transition) :
    Mirrors (Matched full) (fun _ => True) (passEdge env p fuel c false depth t)
      (passEdge (env.again evaluator enough) p fuel' c false depth t) := by
  unfold passEdge
  dsimp only
  rw [Bool.and_false]
  refine (epsilonTarget_mirrors fine t (depth == 0)).bind fun result fine' => ?_
  cases result with
  | none => exact .pure trivial
  | some next =>
    have fine' : Fine next := fine' next rfl
    refine .ite (fun _ => ?_) fun _ => .ite (fun _ => below _ _ _ more fine') fun _ => ?_
    · refine isNew_mirrors.bind fun new _ => .ite (fun _ => ?_) fun _ => .pure trivial
      refine Mirrors.bind (P := fun _ => True) (.modify fun w w' matched => ?_) fun _ _ => below _ _ _ more fine'
      exact ⟨by rw [matched.configs], matched.busy,
        ⟨matched.formed.ordered, matched.formed.fullContext, matched.formed.contexts⟩, matched.faithful,
        matched.faithful'⟩
    · exact isNew_mirrors.bind fun new _ => .ite (fun _ => below _ _ _ more fine') fun _ => .pure trivial

theorem closureStep_mirrors {fuel fuel' : Nat}
    (below : ∀ k, k + 1 = fuel → ClosureMirrors env evaluator enough p full k) (more : fuel ≤ fuel')
    (fine : Fine c) (depth : Int) :
    Mirrors (Matched full) (fun _ => True) (closureStep env p fuel c false depth)
      (closureStep (env.again evaluator enough) p fuel' c false depth) := by
  cases fuel with
  | zero => exact .failure
  | succ fuel =>
    obtain ⟨fuel', rfl⟩ : ∃ k, fuel' = k + 1 := ⟨fuel' - 1, by omega⟩
    have edges : Mirrors (Matched full) (fun _ => True)
        ((env.net.out c.state).forM (passEdge env p fuel c false depth))
        ((env.net.out c.state).forM (passEdge (env.again evaluator enough) p fuel' c false depth)) :=
      .forM fun t _ => passEdge_mirrors (below fuel rfl) (by omega) fine depth t
    rw [closureStep_succ, closureStep_succ]
    exact .ite (fun _ => (addConfig_mirrors fine).bind fun _ _ => edges) fun _ => edges

theorem closure_mirrors (fuel : Nat) : ClosureMirrors env evaluator enough p full fuel := by
  induction fuel using Nat.strongRecOn with
  | ind fuel below =>
  intro fuel' c depth more fine
  cases fuel with
  | zero => exact .failure
  | succ fuel =>
    obtain ⟨fuel', rfl⟩ : ∃ k, fuel' = k + 1 := ⟨fuel' - 1, by omega⟩
    have steps : Mirrors (Matched full) (fun _ => True) (closureStep env p fuel c false depth)
        (closureStep (env.again evaluator enough) p fuel' c false depth) :=
      closureStep_mirrors (fun k less => below k (by omega)) (by omega) fine depth
    rw [closure, closure]
    refine .ite (fun _ => .ite (fun _ => .forM fun entry member => ?_) fun _ => ?_) fun _ => steps
    · obtain ⟨_ | n, parent⟩ := entry
      · exact .ite (fun _ => addConfig_mirrors ⟨Context.wellFormed_empty, Context.empty_ne_nil⟩) fun _ => steps
      · obtain ⟨formed, absent⟩ := fine.1.of_mem member
        have present := mt absent.2 (Option.some_ne_none n)
        dsimp only
        rw [if_neg present]
        exact below fuel (by omega) _ _ _ (by omega) ⟨formed, present⟩
    · exact .ite (fun _ => addConfig_mirrors fine) fun _ => steps

/-! ## One token -/

/-- The remembered merges of both computations are right. -/
def Remembered (full : Bool) (w : Scratch η) (w' : Scratch θ) : Prop :=
  w.merges.Faithful (!full) ∧ w'.merges.Faithful (!full)

theorem closureOf_run (collect : Bool) (cs : List Config) (w : Scratch η) :
    (closureOf env p collect s cs).run w =
      ((cs.forM fun c => closure env p env.fuel c collect 0).run { configs := s, scratch := w }).map
        fun found => (found.2.configs, found.2.scratch) := by
  unfold closureOf
  simp only [StateT.run_bind, StateT.run_get, StateT.run_set, StateT.run_pure, StateT.run_monadLift, pure_bind]
  cases (cs.forM fun c => closure env p env.fuel c collect 0).run { configs := s, scratch := w } with
  | none => rfl
  | some found => rfl

theorem closureOf_mirrors (more : env.fuel ≤ enough) {cs : List Config} (formed : s.Formed full)
    (fine : ∀ c ∈ cs, Fine c) :
    Mirrors (Remembered full) (ConfigSet.Formed full) (closureOf env p false s cs)
      (closureOf (env.again evaluator enough) p false s cs) := by
  have turns : Mirrors (Matched full) (fun _ => True) (cs.forM fun c => closure env p env.fuel c false 0)
      (cs.forM fun c => closure (env.again evaluator enough) p enough c false 0) :=
    .forM fun c member => closure_mirrors env.fuel enough c 0 more (fine c member)
  intro w w' remembered s' w₁ ran
  rw [closureOf_run] at ran ⊢
  obtain ⟨⟨⟨⟩, work⟩, closed, same⟩ := Option.map_eq_some_iff.1 ran
  cases same
  obtain ⟨-, work', closed', matched⟩ := turns _ { configs := s, scratch := w' }
    ⟨rfl, rfl, formed, remembered.1, remembered.2⟩ _ _ closed
  refine ⟨matched.formed, work'.scratch, ?_, matched.faithful, matched.faithful'⟩
  exact Option.map_eq_some_iff.2 ⟨_, closed', Prod.ext matched.configs rfl⟩

theorem insert_mirrors (formed : s.Formed full) (fine : Fine c) :
    Mirrors (Remembered (η := η) (θ := θ) full) (ConfigSet.Formed full) (Prediction.insert s c)
      (Prediction.insert s c) := by
  refine .modifyGet fun w w' remembered => ?_
  obtain ⟨inserted, faithful, formed₁⟩ := insertMemo_eq formed fine remembered.1
  obtain ⟨inserted', faithful', -⟩ := insertMemo_eq formed fine remembered.2
  exact ⟨by rw [inserted]; exact formed₁, inserted'.trans inserted.symm, faithful, faithful'⟩

theorem insertAll_mirrors {cs : List Config} (formed : s.Formed full) (fine : ∀ c ∈ cs, Fine c) :
    Mirrors (Remembered (η := η) (θ := θ) full) (ConfigSet.Formed full) (cs.foldlM Prediction.insert s)
      (cs.foldlM Prediction.insert s) :=
  .foldlM formed fun c member _ formed => insert_mirrors formed (fine c member)

theorem move_mirrors (formed : s.Formed full) :
    Mirrors (Remembered full) (ConfigSet.Formed full) (Prediction.move env s x full)
      (Prediction.move (env.again evaluator enough) s x full) := by
  refine .foldlM (ConfigSet.formed_ofParser full) fun c among moved formedMoved => ?_
  have fine := formed.contexts c (Array.mem_toList_iff.1 (List.mem_filter.1 among).1)
  refine .foldlM formedMoved fun t _ moved formedMoved => .ite (fun _ => ?_) fun _ => .pure formedMoved
  exact insert_mirrors formedMoved fine

theorem keepStopped_mirrors (formed : s.Formed full) :
    Mirrors (Remembered full) (ConfigSet.Formed full) (keepStopped env s)
      (keepStopped (env.again evaluator enough) s) := by
  refine .ite (fun _ => .pure formed) fun _ => insertAll_mirrors ?_ fun c among => ?_
  · exact formed.fullContext ▸ ConfigSet.formed_ofParser _
  · exact formed.contexts c (Array.mem_toList_iff.1 (List.mem_filter.1 among).1)

/-- The set behind a token is found again with any other user code, with more fuel and with other remembered
merges that are right. -/
theorem reachSet_mirrors (more : env.fuel ≤ enough) (formed : s.Formed full) :
    Mirrors (Remembered full) (fun result => ∀ reach, result = some reach → reach.Formed full)
      (Prediction.reachSet env s x full) (Prediction.reachSet (env.again evaluator enough) s x full) := by
  have fine (c : Config) (member : c ∈ stoppedIn env.net s x full) : Fine c := by
    unfold stoppedIn at member
    split at member
    · exact formed.contexts c (Array.mem_toList_iff.1 (List.mem_filter.1 member).1)
    · cases member
  rw [reachSet_eq, reachSet_eq]
  refine (move_mirrors formed).bind fun moved formedMoved => ?_
  refine Mirrors.bind (P := ConfigSet.Formed full) ?_ fun reach formedReach => ?_
  · refine .ite (fun _ => .pure formedMoved) fun _ => ?_
    exact closureOf_mirrors more (ConfigSet.formed_ofParser full) fun c member =>
      formedMoved.contexts c (Array.mem_toList_iff.1 member)
  refine Mirrors.bind (P := ConfigSet.Formed full) ?_ fun kept formedKept => ?_
  · exact .ite (fun _ => keepStopped_mirrors formedReach) fun _ => .pure formedReach
  refine Mirrors.bind (P := ConfigSet.Formed full) ?_ fun last formedLast => ?_
  · exact .ite (fun _ => insertAll_mirrors formedKept fine) fun _ => .pure formedKept
  refine .pure fun reach same => ?_
  split at same
  · cases same
  · cases same
    exact formedLast

end Prediction

end AdaptiveLL
