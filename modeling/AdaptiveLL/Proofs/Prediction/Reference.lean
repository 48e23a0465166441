import AdaptiveLL.Proofs.Prediction.Closure

/-!
# A prediction without its tables

Without predicates, a step of a prediction depends on nothing but its configurations: the remembered merges
are those that would be computed afresh, and of the configurations that a closure has passed only matters
which they are. `Reference` computes the same sets with merges that are never remembered and the passed
configurations in a list, so that they can be computed in a proof (`Reference.startSet_yields`,
`Reference.reachSet_yields`).
-/

set_option autoImplicit false

namespace AdaptiveLL

open Network

/-- The configurations of a parser's set have contexts that can be merged. -/
structure ConfigSet.Formed (full : Bool) (s : ConfigSet) : Prop where
  ordered : s.ordered = false
  fullContext : s.fullContext = full
  contexts : ∀ c ∈ s.configs, c.context.WellFormed ∧ c.context ≠ .nil

theorem ConfigSet.formed_ofParser (full : Bool) : (ofParser full).Formed full :=
  ⟨rfl, rfl, fun c member => by simp [ofParser] at member⟩

namespace Prediction

variable {η : Type} {env : Env η} {full : Bool} {p : Purpose} {c : Config} {s : ConfigSet}

namespace Reference

/-- The merge of two contexts, which are often the same. -/
def join (wild : Bool) (a b : Context) : Context := if a = b then a else Context.merge wild a b

theorem join_eq (wild : Bool) (a b : Context) : join wild a b = Context.merge wild a b := by
  unfold join
  split
  · rename_i same
    rw [same, Context.merge_self]
  · rfl

/-- Adds a configuration to a set of a parser. -/
def insert (s : ConfigSet) (c : Config) : ConfigSet :=
  let s := s.note c
  match s.place? c with
  | some i => s.absorbAt i c (join (!s.fullContext) (s.contextAt i) c.context)
  | none => s.push c

/-- What a closure has found and passed. -/
structure Found where
  configs : ConfigSet
  passed : List Config := []

/-- Adds a configuration to what was found. -/
def Found.add (f : Found) (c : Config) : Found := { f with configs := insert f.configs c }

/-- Where a transition that consumes nothing leads, if there are no predicates. -/
def behind (p : Purpose) (c : Config) (t : Transition) : Option Config :=
  match t.label with
  | .rule _ _ follow => some (c.withContext t.target (c.context.push follow))
  | .atom _ | .range _ _ | .set _ =>
    if p.atEof && t.label.accepts endOfInput 0 1 then some (c.withState t.target) else none
  | .notSet _ | .wildcard => none
  | _ => some (c.withState t.target)

/-- Goes on behind a transition, if what is there was not passed. -/
def pass (env : Env η) (p : Purpose) (c : Config) (go : Config → Found → Option Found) (f : Found)
    (t : Transition) : Option Found :=
  match behind p c t with
  | none => some f
  | some next =>
    if env.net.isStop c.state then
      let next := { next with
        filterSuppressed := next.filterSuppressed || returnsOutermost env t
        outerDepth := next.outerDepth + 1 }
      if f.passed.contains next.identity then some f
      else go next { configs := { f.configs with dipsIntoOuter := true }, passed := next.identity :: f.passed }
    else if t.label.isEpsilon then go next f
    else if f.passed.contains next.identity then some f
    else go next { f with passed := next.identity :: f.passed }

mutual

/-- The closure of a configuration. -/
def closure (env : Env η) (p : Purpose) : Nat → Config → Found → Option Found
  | 0, _, _ => none
  | fuel + 1, c, f =>
    if env.net.isStop c.state then
      c.context.entries.foldlM (fun f entry =>
        match entry with
        | (some n, parent) => closure env p fuel (c.returningTo n parent) f
        | (none, _) =>
          if p.fullContext then some (f.add (c.withContext c.state .empty)) else step env p fuel c f) f
    else step env p fuel c f

/-- The configuration, if its state consumes symbols, and what lies behind its transitions. -/
def step (env : Env η) (p : Purpose) : Nat → Config → Found → Option Found
  | 0, _, _ => none
  | fuel + 1, c, f =>
    (env.net.out c.state).foldlM (pass env p c (closure env p fuel))
      (if (env.net.state c.state).epsilonOnly then f else f.add c)

end

/-! ## Closures -/

/-- The work is what was found, and its remembered merges are right. -/
structure Matches (full : Bool) (w : Work η) (f : Found) : Prop where
  configs : w.configs = f.configs
  passed : ∀ d, d ∈ w.busy ↔ d ∈ f.passed
  formed : f.configs.Formed full
  faithful : w.scratch.merges.Faithful (!full)

/-- The configuration has a context that can be merged. -/
def Fine (c : Config) : Prop := c.context.WellFormed ∧ c.context ≠ .nil

theorem insertMemo_eq {memo : Context.Memo} (formed : s.Formed full) (fine : Fine c)
    (faithful : memo.Faithful (!full)) : (s.insertMemo c memo).1 = insert s c ∧
      (s.insertMemo c memo).2.Faithful (!full) ∧ (insert s c).Formed full := by
  have flag : (!(s.note c).fullContext) = !full := congrArg (!·) formed.fullContext
  unfold ConfigSet.insertMemo insert
  dsimp only
  rw [if_neg (by simp [ConfigSet.note, formed.ordered])]
  cases found : (s.note c).place? c with
  | some i =>
    obtain ⟨inside, -, -⟩ := Array.findIdx?_eq_some_iff_getElem.1 found
    have inside : i < s.configs.size := inside
    obtain ⟨formedOld, presentOld⟩ := formed.contexts s.configs[i] (Array.getElem_mem inside)
    have context : (s.note c).contextAt i = s.configs[i].context := by
      simp [ConfigSet.contextAt, ConfigSet.note, inside]
    obtain ⟨merged, faithful'⟩ := faithful.mergeMemo formedOld fine.1
    dsimp only
    rw [flag, context, join_eq, merged]
    refine ⟨rfl, faithful', formed.ordered, formed.fullContext, fun d member => ?_⟩
    rcases (ConfigSet.mem_absorbAt inside).1 member with rfl | ⟨j, bound, -, rfl⟩
    · exact ⟨formedOld.merge _ fine.1, Context.merge_ne_nil formedOld fine.1 presentOld⟩
    · exact formed.contexts _ (Array.getElem_mem bound)
  | none =>
    refine ⟨rfl, faithful, formed.ordered, formed.fullContext, fun d member => ?_⟩
    rcases Array.mem_push.1 member with old | rfl
    · exact formed.contexts d old
    · exact fine

variable {w : Work η} {f f' : Found}

theorem addConfig_yields (same : Matches full w f) (fine : Fine c) :
    Yields (addConfig c) w fun _ w' => Matches full w' (f.add c) := by
  obtain ⟨inserted, faithful, formed⟩ := insertMemo_eq same.formed fine same.faithful
  refine ⟨(), _, rfl, ?_, same.passed, formed, ?_⟩
  · change (w.configs.insertMemo c w.scratch.merges).1 = insert f.configs c
    rw [same.configs]
    exact inserted
  · change (w.configs.insertMemo c w.scratch.merges).2.Faithful (!full)
    rw [same.configs]
    exact faithful

theorem isNew_yields (same : Matches full w f) : Yields (isNew c) w fun new w' =>
    new = !f.passed.contains c.identity ∧ Matches full w' { f with passed := c.identity :: f.passed } := by
  refine ⟨_, _, rfl, ?_, same.configs, fun d => ?_, same.formed, same.faithful⟩
  · have known := same.passed c.identity
    rw [Bool.eq_iff_iff, Bool.not_eq_true', Bool.not_eq_true', ← Bool.not_eq_true, ← Bool.not_eq_true,
      Std.HashSet.contains_iff_mem, List.contains_iff_mem, known]
  · rw [Std.HashSet.mem_insert, List.mem_cons, same.passed, beq_iff_eq, eq_comm]

theorem epsilonTarget_yields (unguarded : env.net.Unguarded) (same : Matches full w f) {n : Nat} {t : Transition}
    (member : t ∈ env.net.out n) (collect inRule : Bool) :
    Yields (epsilonTarget env p c t collect inRule) w fun next w' =>
      next = behind p c t ∧ Matches full w' f := by
  obtain ⟨noPredicate, noPrecedence⟩ := unguarded n t member
  obtain ⟨target, label⟩ := t
  cases label with
  | rule r q ret =>
    refine ⟨_, _, rfl, ?_, same.configs, same.passed, same.formed, same.faithful.share _⟩
    exact congrArg (fun context => some (c.withContext target context)) (Context.Memo.share_fst _ _)
  | predicate rule pred ctx => exact absurd rfl (noPredicate rule pred ctx)
  | precedence q => exact absurd rfl (noPrecedence q)
  | _ => exact .pure ⟨rfl, same⟩

theorem behind_fine {t : Transition} {next : Config} (fine : Fine c) (leads : behind p c t = some next) :
    Fine next := by
  unfold behind at leads
  split at leads
  · cases leads
    exact ⟨fine.1.push fine.2 _, nofun⟩
  · split at leads <;> cases leads
    exact fine
  · split at leads <;> cases leads
    exact fine
  · split at leads <;> cases leads
    exact fine
  · cases leads
  · cases leads
  · cases leads
    exact fine

/-- The loop over a list yields what folding the list finds. -/
theorem forM_yields {α : Type} {step : α → WorkM η PUnit} {fold : Found → α → Option Found} {l : List α}
    (each : ∀ x ∈ l, ∀ (w : Work η) (f f' : Found), fold f x = some f' → Matches full w f →
      Yields (step x) w fun _ w' => Matches full w' f') (found : l.foldlM fold f = some f')
    (same : Matches full w f) : Yields (l.forM step) w fun _ w' => Matches full w' f' := by
  induction l generalizing w f with
  | nil =>
    cases found
    exact .pure same
  | cons x rest ih =>
    obtain ⟨f₁, first, later⟩ := Option.bind_eq_some_iff.1 found
    change Yields (step x >>= fun _ => rest.forM step) w _
    exact (each x List.mem_cons_self w f f₁ first same).bind fun _ w₁ same₁ =>
      ih (fun y member => each y (List.mem_cons_of_mem _ member)) later same₁

theorem entries_fine {entry : Option Nat × Context} (fine : Fine c) (member : entry ∈ c.context.entries) :
    entry.2.WellFormed ∧ (entry.1.isSome = true → entry.2 ≠ .nil) := by
  obtain ⟨ret, parent⟩ := entry
  obtain ⟨formed, absent⟩ := fine.1.of_mem member
  refine ⟨formed, fun some' isNil => ?_⟩
  have isNone := absent.2 isNil
  rw [isNone] at some'
  cases some'

/-- The bottom of the stack is the only entry of an empty context. -/
theorem eq_empty_of_isEmpty (fine : Fine c) (bottom : c.context.isEmpty = true) : c.context = .empty := by
  obtain ⟨formed, -⟩ := fine
  unfold Context.isEmpty at bottom
  split at bottom
  · rename_i parent same
    rw [same] at formed ⊢
    rw [formed.1.1 rfl]
    rfl
  · cases bottom

/-- A transition leads where the reference goes. -/
theorem pass_yields (unguarded : env.net.Unguarded) {fuel : Nat} {go : Config → Found → Option Found}
    (goes : ∀ (c : Config) (f f' : Found) (w : Work η) (collect : Bool) (depth : Int), Fine c →
      Matches p.fullContext w f → go c f = some f' →
        Yields (Prediction.closure env p fuel c collect depth) w fun _ w' => Matches p.fullContext w' f')
    (fine : Fine c) (same : Matches p.fullContext w f) {t : Transition} (member : t ∈ env.net.out c.state)
    (collect : Bool) (depth : Int) (found : pass env p c go f t = some f') :
    Yields (passEdge env p fuel c collect depth t) w fun _ w' => Matches p.fullContext w' f' := by
  unfold passEdge
  refine (epsilonTarget_yields unguarded same member _ _).bind fun next w₁ leads => ?_
  obtain ⟨rfl, same₁⟩ := leads
  unfold pass at found
  cases leads : behind p c t with
  | none =>
    rw [leads] at found
    cases found
    exact .pure same₁
  | some next =>
    rw [leads] at found
    have fineNext := behind_fine fine leads
    dsimp only at found ⊢
    change Yields (if env.net.isStop c.state = true then _ else _) w₁ _
    -- What is new is passed on, and what was passed before is let alone.
    have fresh (next : Config) (fineNext : Fine next) (enter : WorkM η Unit) {f₁ : Found}
        (found : (if f.passed.contains next.identity = true then some f else go next f₁) = some f')
        (goesOn : go next f₁ = some f' → ∀ w₂, Matches p.fullContext w₂
          { f with passed := next.identity :: f.passed } → Yields enter w₂ fun _ w' => Matches p.fullContext w' f') :
        Yields (do if ← isNew next then enter) w₁ fun _ w' => Matches p.fullContext w' f' := by
      refine (isNew_yields same₁).bind fun new w₂ noted => ?_
      obtain ⟨rfl, same₂⟩ := noted
      cases known : f.passed.contains next.identity with
      | true =>
        rw [known, if_pos rfl] at found
        cases found
        refine .pure ⟨same₂.configs, fun d => (same₂.passed d).trans ?_, same₂.formed, same₂.faithful⟩
        rw [List.mem_cons]
        exact ⟨fun among => among.elim (fun isNext => isNext ▸ List.contains_iff_mem.1 known) id, .inr⟩
      | false =>
        rw [known, if_neg Bool.false_ne_true] at found
        exact goesOn found w₂ same₂
    split at found
    · rename_i isStop
      rw [if_pos isStop]
      let marked : Config := { next with
        filterSuppressed := next.filterSuppressed || returnsOutermost env t
        outerDepth := next.outerDepth + 1 }
      refine fresh marked ⟨fineNext.1, fineNext.2⟩ (do
        modify fun w => { w with configs := { w.configs with dipsIntoOuter := true } }
        Prediction.closure env p fuel _ _ _) found fun found' w₂ same₂ => ?_
      refine .modify_bind (goes _ _ f' _ _ _ ⟨fineNext.1, fineNext.2⟩ ?_ found')
      exact ⟨congrArg (fun s : ConfigSet => { s with dipsIntoOuter := true }) same₂.configs, same₂.passed,
        ⟨same₂.formed.ordered, same₂.formed.fullContext, same₂.formed.contexts⟩, same₂.faithful⟩
    · rename_i inner
      rw [if_neg inner]
      split at found
      · rename_i free
        rw [if_pos free]
        exact goes next f f' w₁ _ _ fineNext same₁ found
      · rename_i consumes
        rw [if_neg consumes]
        exact fresh next fineNext (Prediction.closure env p fuel next _ depth) found
          fun found' w₂ same₂ => goes next _ f' w₂ _ _ fineNext same₂ found'

/-- A closure finds what the reference finds. -/
theorem closure_yields (unguarded : env.net.Unguarded) (fuel : Nat) : ∀ (c : Config) (f f' : Found)
    (w : Work η) (collect : Bool) (depth : Int), Fine c → Matches p.fullContext w f →
    (closure env p fuel c f = some f' →
      Yields (Prediction.closure env p fuel c collect depth) w fun _ w' => Matches p.fullContext w' f') ∧
    (step env p fuel c f = some f' →
      Yields (closureStep env p fuel c collect depth) w fun _ w' => Matches p.fullContext w' f') := by
  induction fuel with
  | zero => exact fun c f f' w collect depth _ _ => ⟨nofun, nofun⟩
  | succ fuel ih =>
    intro c f f' w collect depth fine same
    refine ⟨fun found => ?_, fun found => ?_⟩
    · rw [closure] at found
      rw [Prediction.closure]
      change Yields (if env.net.isStop c.state = true then _ else _) w _
      cases isStop : env.net.isStop c.state with
      | false =>
        rw [isStop, if_neg Bool.false_ne_true] at found
        rw [if_neg Bool.false_ne_true]
        exact (ih c f f' w collect depth fine same).2 found
      | true =>
        rw [isStop, if_pos rfl] at found
        rw [if_pos rfl]
        cases bottom : c.context.isEmpty with
        | false =>
          rw [Bool.not_false, if_pos rfl]
          refine forM_yields (fun entry member w f f' found same => ?_) found same
          obtain ⟨_ | n, parent⟩ := entry
          · dsimp only at found ⊢
            split at found
            · rename_i isFull
              cases found
              rw [if_pos isFull]
              exact addConfig_yields same ⟨Context.wellFormed_empty, Context.empty_ne_nil⟩
            · rename_i isLocal
              rw [if_neg isLocal]
              exact (ih c f f' w collect depth fine same).2 found
          · dsimp only at found ⊢
            obtain ⟨formed, present⟩ := entries_fine fine member
            rw [if_neg (present rfl)]
            exact (ih _ f f' w collect (depth - 1) ⟨formed, present rfl⟩ same).1 found
        | true =>
          rw [Bool.not_true, if_neg Bool.false_ne_true]
          have isBottom := eq_empty_of_isEmpty fine bottom
          have one : (if p.fullContext = true then some (f.add (c.withContext c.state .empty))
              else step env p fuel c f) = some f' := by
            rw [isBottom] at found
            simpa [Context.empty, Context.entries] using found
          split
          · rename_i isFull
            rw [if_pos isFull] at one
            cases one
            have unchanged : c.withContext c.state .empty = c := by
              rw [← isBottom]
              rfl
            rw [unchanged]
            exact addConfig_yields same fine
          · rename_i isLocal
            rw [if_neg isLocal] at one
            exact (ih c f f' w collect depth fine same).2 one
    · rw [step] at found
      rw [closureStep_succ]
      have goes (c : Config) (f f' : Found) (w : Work η) (collect : Bool) (depth : Int) (fine : Fine c)
          (same : Matches p.fullContext w f) := (ih c f f' w collect depth fine same).1
      have edges {w : Work η} {f₀ : Found} (same : Matches p.fullContext w f₀)
          (found : (env.net.out c.state).foldlM (pass env p c (closure env p fuel)) f₀ = some f') :
          Yields ((env.net.out c.state).forM (passEdge env p fuel c collect depth)) w fun _ w' =>
            Matches p.fullContext w' f' :=
        forM_yields (fun t member w f f' found same =>
          pass_yields unguarded goes fine same member collect depth found) found same
      cases rests : (env.net.state c.state).epsilonOnly with
      | true =>
        rw [rests, if_pos rfl] at found
        exact edges same found
      | false =>
        rw [rests, if_neg Bool.false_ne_true] at found
        exact (addConfig_yields same fine).bind fun _ w₁ same₁ => edges same₁ found

/-! ## Start and tokens -/

/-- The closures of several configurations. -/
def closureOf (env : Env η) (p : Purpose) (s : ConfigSet) (cs : List Config) : Option ConfigSet :=
  (cs.foldlM (fun f c => closure env p env.fuel c f) { configs := s }).map (·.configs)

/-- The configurations with which the alternatives of the decision begin. -/
def startSet (env : Env η) (context : Context) (full : Bool) : Option ConfigSet :=
  (env.net.out env.startState).zipIdx.foldlM (fun s y =>
    closureOf env ⟨full, false⟩ s [{ state := y.1.target, alt := y.2 + 1, context }]) (.ofParser full)

/-- The configurations moved over a token. -/
def move (env : Env η) (s : ConfigSet) (x : Int) (full : Bool) : ConfigSet :=
  (s.configs.toList.filter fun c => !(env.net.state c.state).kind.isRuleStop).foldl (fun moved c =>
    (env.net.out c.state).foldl (fun moved t =>
      if t.label.accepts x 0 env.net.maxTokenType then insert moved (c.withState t.target) else moved) moved)
    (.ofParser full)

/-- The configurations behind a token other than the end of the input. -/
def reachSet (env : Env η) (s : ConfigSet) (x : Int) (full : Bool) : Option (Option ConfigSet) :=
  let moved := move env s x full
  let stopped := if full then s.configs.toList.filter fun c => (env.net.state c.state).kind.isRuleStop else []
  (if stopped.isEmpty && (moved.size == 1 || moved.sharedAlt != invalidAlt) then some moved
    else closureOf env ⟨full, false⟩ (.ofParser full) moved.configs.toList).map fun reach =>
      let last := if !full || !someAtStop env.net reach then stopped.foldl insert reach else reach
      if last.isEmpty then none else some last

variable {scratch : Scratch η} {s' : ConfigSet} {x : Int}

theorem closureOf_yields (unguarded : env.net.Unguarded) (formed : s.Formed full)
    (faithful : scratch.merges.Faithful (!full)) {cs : List Config} (fine : ∀ c ∈ cs, Fine c) (collect : Bool)
    (found : closureOf env ⟨full, false⟩ s cs = some s') :
    Yields (Prediction.closureOf env ⟨full, false⟩ collect s cs) scratch fun s'' scratch' =>
      s'' = s' ∧ s'.Formed full ∧ scratch'.merges.Faithful (!full) := by
  obtain ⟨f, folds, rfl⟩ := Option.map_eq_some_iff.1 found
  have same : Matches full ({ configs := s, scratch } : Work η) { configs := s } :=
    ⟨rfl, by simp, formed, faithful⟩
  have all : Yields (cs.forM fun c => Prediction.closure env ⟨full, false⟩ env.fuel c collect 0)
      { configs := s, scratch } fun _ w' => Matches full w' f :=
    forM_yields (fun c member w f f' found same =>
      (closure_yields unguarded env.fuel c f f' w collect 0 (fine c member) same).1 found) folds same
  obtain ⟨⟨⟩, w, ran, same'⟩ := all
  refine .get_bind (.lift_bind ran ?_)
  exact ⟨_, _, rfl, same'.configs, same'.formed, same'.faithful⟩

/-- The fold over a list yields what folding with the reference finds. -/
theorem foldlM_yields {α : Type} {step : ConfigSet → α → ScratchM η ConfigSet}
    {fold : ConfigSet → α → Option ConfigSet} {l : List α}
    (each : ∀ y ∈ l, ∀ (s s' : ConfigSet) (scratch : Scratch η), fold s y = some s' → s.Formed full →
      scratch.merges.Faithful (!full) → Yields (step s y) scratch fun s'' scratch' =>
        s'' = s' ∧ s'.Formed full ∧ scratch'.merges.Faithful (!full))
    (found : l.foldlM fold s = some s') (formed : s.Formed full) (faithful : scratch.merges.Faithful (!full)) :
    Yields (l.foldlM step s) scratch fun s'' scratch' =>
      s'' = s' ∧ s'.Formed full ∧ scratch'.merges.Faithful (!full) := by
  induction l generalizing s scratch with
  | nil =>
    cases found
    exact .pure ⟨rfl, formed, faithful⟩
  | cons y rest ih =>
    obtain ⟨s₁, first, later⟩ := Option.bind_eq_some_iff.1 found
    rw [List.foldlM_cons]
    refine (each y List.mem_cons_self s s₁ scratch first formed faithful).bind fun s'' scratch₁ same => ?_
    obtain ⟨rfl, formed₁, faithful₁⟩ := same
    exact ih (fun z member => each z (List.mem_cons_of_mem _ member)) later formed₁ faithful₁

theorem startSet_yields (unguarded : env.net.Unguarded) {context : Context} (formed : context.WellFormed)
    (present : context ≠ .nil) (faithful : scratch.merges.Faithful (!full))
    (found : startSet env context full = some s) :
    Yields (Prediction.startSet env context full) scratch fun s' scratch' =>
      s' = s ∧ s.Formed full ∧ scratch'.merges.Faithful (!full) := by
  refine foldlM_yields (fun y member s s' scratch found formed' faithful => ?_) found
    (ConfigSet.formed_ofParser full) faithful
  exact closureOf_yields unguarded formed' faithful (by simpa [Fine] using ⟨formed, present⟩) true found

theorem insert_yields (formed : s.Formed full) (faithful : scratch.merges.Faithful (!full)) (fine : Fine c) :
    Yields (Prediction.insert s c) scratch fun s' scratch' =>
      s' = insert s c ∧ (insert s c).Formed full ∧ scratch'.merges.Faithful (!full) := by
  obtain ⟨inserted, faithful', formed'⟩ := insertMemo_eq formed fine faithful
  exact ⟨_, _, rfl, inserted, formed', faithful'⟩

/-- The same for a fold that cannot fail. -/
theorem foldl_yields {α : Type} {step : ConfigSet → α → ScratchM η ConfigSet} {fold : ConfigSet → α → ConfigSet}
    {l : List α} (each : ∀ y ∈ l, ∀ (s : ConfigSet) (scratch : Scratch η), s.Formed full →
      scratch.merges.Faithful (!full) → Yields (step s y) scratch fun s' scratch' =>
        s' = fold s y ∧ (fold s y).Formed full ∧ scratch'.merges.Faithful (!full))
    (formed : s.Formed full) (faithful : scratch.merges.Faithful (!full)) :
    Yields (l.foldlM step s) scratch fun s' scratch' =>
      s' = l.foldl fold s ∧ (l.foldl fold s).Formed full ∧ scratch'.merges.Faithful (!full) := by
  have found : (l.foldlM (fun s y => some (fold s y)) s) = some (l.foldl fold s) := List.foldlM_pure
  refine foldlM_yields (fun y member s s' scratch found formed faithful => ?_) found formed faithful
  cases found
  exact each y member s scratch formed faithful

theorem move_yields (formed : s.Formed full) (faithful : scratch.merges.Faithful (!full)) :
    Yields (Prediction.move env s x full) scratch fun s' scratch' =>
      s' = move env s x full ∧ (move env s x full).Formed full ∧ scratch'.merges.Faithful (!full) := by
  refine foldl_yields (fun c among s₁ scratch formed₁ faithful => ?_) (ConfigSet.formed_ofParser full) faithful
  have fine := formed.contexts c (Array.mem_toList_iff.1 (List.mem_filter.1 among).1)
  refine foldl_yields (fun t _ s scratch formed faithful => ?_) formed₁ faithful
  split
  · exact insert_yields formed faithful fine
  · exact .pure ⟨rfl, formed, faithful⟩

theorem reachSet_yields (unguarded : env.net.Unguarded) (formed : s.Formed full)
    (faithful : scratch.merges.Faithful (!full)) (noEof : x ≠ endOfInput) {result : Option ConfigSet}
    (found : reachSet env s x full = some result) :
    Yields (Prediction.reachSet env s x full) scratch fun result' scratch' =>
      result' = result ∧ (∀ s', result = some s' → s'.Formed full) ∧ scratch'.merges.Faithful (!full) := by
  have atEof : (x == endOfInput) = false := beq_false_of_ne noEof
  obtain ⟨reach, closes, rfl⟩ := Option.map_eq_some_iff.1 found
  clear found
  unfold Prediction.reachSet
  rw [atEof]
  refine (move_yields formed faithful).bind fun moved scratch₁ same => ?_
  obtain ⟨rfl, formedMoved, faithful₁⟩ := same
  dsimp only
  rw [Bool.or_false, Bool.not_false, Bool.and_true]
  generalize eqStopped : (if full = true then
    s.configs.toList.filter fun c => (env.net.state c.state).kind.isRuleStop else []) = stopped at closes ⊢
  have fine (c : Config) (member : c ∈ stopped) : Fine c := by
    subst eqStopped
    split at member
    · exact formed.contexts c (Array.mem_toList_iff.1 (List.mem_filter.1 member).1)
    · cases member
  have lasts {scratch : Scratch η} (formed : reach.Formed full) (faithful : scratch.merges.Faithful (!full)) :
      Yields (if (!full || !someAtStop env.net reach) = true then do
          let reach ← stopped.foldlM Prediction.insert reach
          pure (if reach.isEmpty then none else some reach)
        else do
          let reach ← pure reach
          pure (if reach.isEmpty then none else some reach)) scratch fun result scratch' =>
        result = (let last := if (!full || !someAtStop env.net reach) = true then stopped.foldl insert reach
          else reach
          if last.isEmpty then none else some last) ∧
        (∀ s', result = some s' → s'.Formed full) ∧ scratch'.merges.Faithful (!full) := by
    have conclude {last : ConfigSet} {scratch : Scratch η} (formed : last.Formed full)
        (faithful : scratch.merges.Faithful (!full)) :
        Yields (pure (if last.isEmpty then none else some last)) scratch fun result scratch' =>
          result = (if last.isEmpty then none else some last) ∧
          (∀ s', result = some s' → s'.Formed full) ∧ scratch'.merges.Faithful (!full) := by
      refine .pure ⟨rfl, fun s' same => ?_, faithful⟩
      split at same
      · cases same
      · cases same
        exact formed
    split
    · refine (foldl_yields (fun c member s scratch formed faithful => insert_yields formed faithful (fine c member))
        formed faithful).bind fun last scratch₂ same => ?_
      obtain ⟨rfl, formedLast, faithful₂⟩ := same
      exact conclude formedLast faithful₂
    · exact conclude formed faithful
  split
  · rename_i decided
    rw [if_pos decided] at closes
    cases closes
    rw [pure_bind, if_neg Bool.false_ne_true, pure_bind]
    exact (lasts formedMoved faithful₁).imp fun result scratch' holds => ⟨holds.1, holds.1 ▸ holds.2.1, holds.2.2⟩
  · rename_i several
    rw [if_neg several] at closes
    refine (closureOf_yields unguarded (ConfigSet.formed_ofParser full) faithful₁ (fun c member =>
      formedMoved.contexts c (Array.mem_toList_iff.1 member)) false closes).bind fun reach' scratch₂ same => ?_
    obtain ⟨rfl, formedReach, faithful₂⟩ := same
    rw [if_neg Bool.false_ne_true, pure_bind]
    exact (lasts formedReach faithful₂).imp fun result scratch' holds => ⟨holds.1, holds.1 ▸ holds.2.1, holds.2.2⟩

end Reference

end Prediction

end AdaptiveLL
