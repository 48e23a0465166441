import AdaptiveLL.Proofs.Lexer.Recalling
import AdaptiveLL.Proofs.Prediction.Sets

/-!
# The closure of a prediction

The closure of a configuration passes on along the transitions that consume nothing. What it has done when
it is over is said backwards, from the end (`Handled`): the threads that rest at the configuration are in
the set, and what follows the configuration is handled in turn, or noted as passed where the closure leaves
the rule of the decision into an unknown caller. Whatever is noted as passed is handled in the end as well,
though perhaps not yet when it is noted (`Spans.expanded`), so the notes cut circles short without losing a
thread. With full context the closure adds only threads that follow silently (`Spans.sound`).
-/

set_option autoImplicit false

namespace AdaptiveLL

open Network

/-- A computation runs over a list: what each turn achieves lasts until the end. -/
theorem Leaves.forM {σ α : Type} {f : α → StateT σ Option PUnit} {R : σ → σ → Prop} {P : α → σ → Prop}
    (stays : ∀ {s s'}, R s s' → R s' s') (trans : ∀ {s s' s''}, R s s' → R s' s'' → R s s'')
    (lasts : ∀ {x s s'}, R s s' → P x s → P x s') {l : List α} {s : σ} (here : R s s)
    (each : ∀ x ∈ l, ∀ s', R s s' → Leaves (f x) s' fun _ s'' => R s' s'' ∧ P x s'') :
    Leaves (l.forM f) s fun _ s' => R s s' ∧ ∀ x ∈ l, P x s' := by
  induction l generalizing s with
  | nil => exact .pure ⟨here, nofun⟩
  | cons x rest ih =>
    change Leaves (f x >>= fun _ => rest.forM f) s _
    refine (each x List.mem_cons_self s here).bind fun _ s₁ first => ?_
    have later := ih (stays first.1) fun y member s' earlier =>
      each y (List.mem_cons_of_mem _ member) s' (trans first.1 earlier)
    intro u s₂ ran
    obtain ⟨grown, done⟩ := later u s₂ ran
    refine ⟨trans first.1 grown, fun y member => ?_⟩
    rcases List.mem_cons.1 member with rfl | member
    · exact lasts grown first.2
    · exact done y member

namespace Context

variable {wild : Bool} {c parent : Context} {σ : List Nat}

theorem stands_of_bottom (member : (none, parent) ∈ c.entries) (free : wild = true ∨ σ = []) :
    c.Stands wild σ := by
  induction c with
  | nil => simp [entries] at member
  | cons ret p rest _ ih =>
    rcases List.mem_cons.1 member with same | later
    · cases same
      exact .bottom free
    · exact .later (ih later)

theorem stands_of_return {n : Nat} (member : (some n, parent) ∈ c.entries)
    (further : parent.Stands wild σ) : c.Stands wild (n :: σ) := by
  induction c with
  | nil => simp [entries] at member
  | cons ret p rest _ ih =>
    rcases List.mem_cons.1 member with same | later
    · cases same
      exact .ret further
    · exact .later (ih later)

/-- A stack of a context begins with one of its entries. -/
theorem Stands.entry (stands : c.Stands wild σ) :
    (∃ parent, (none, parent) ∈ c.entries ∧ (wild = true ∨ σ = [])) ∨
      ∃ n parent τ, (some n, parent) ∈ c.entries ∧ σ = n :: τ ∧ parent.Stands wild τ := by
  induction stands with
  | bottom free => exact .inl ⟨_, List.mem_cons_self, free⟩
  | ret further => exact .inr ⟨_, _, _, List.mem_cons_self, rfl, further⟩
  | later stands ih =>
    rcases ih with ⟨p, member, free⟩ | ⟨n, p, τ, member, same, further⟩
    · exact .inl ⟨p, List.mem_cons_of_mem _ member, free⟩
    · exact .inr ⟨n, p, τ, List.mem_cons_of_mem _ member, same, further⟩

end Context

namespace Network

/-- No transition asks for a predicate. -/
def Unguarded (net : Network) : Prop := ∀ n, ∀ t ∈ net.out n,
  (∀ rule pred ctx, t.label ≠ .predicate rule pred ctx) ∧ ∀ q, t.label ≠ .precedence q

/-- A thread rests where it can consume, or at the end of its rule. -/
def Rests (net : Network) (n : Nat) : Prop :=
  net.isStop n = true ∨ (net.state n).epsilonOnly = false

end Network

namespace Prediction

variable {η : Type} {env : Env η} {net : Network} {full : Bool} {Q : Nat → Thread → Prop} {w w' w'' : Work η}
  {c : Config} {t : Transition}

/-- Where a transition that consumes nothing takes a configuration. -/
def follow (c : Config) (t : Transition) : Config :=
  match t.label with
  | .rule _ _ follow => c.withContext t.target (c.context.push follow)
  | _ => c.withState t.target

theorem plain_follow (plain : c.Plain) (t : Transition) : (follow c t).Plain := by
  unfold follow
  split
  · exact ⟨plain.guard, plain.formed.push plain.present _, nofun, plain.valid⟩
  · exact ⟨plain.guard, plain.formed, plain.present, plain.valid⟩

theorem follow_of_free (free : t.move = .free t.target) : follow c t = c.withState t.target := by
  obtain ⟨target, label⟩ := t
  cases label with
  | rule => cases free
  | _ => rfl

/-- The threads behind a transition are those before it, moved. -/
theorem stands_follow (free : t.label.isEpsilon = true) {a : Nat} {θ : Thread} {wild : Bool} :
    (follow c t).Stands wild a θ ↔
      ∃ stack, c.Stands wild a ⟨c.state, stack⟩ ∧ silentMove stack t.move = some θ := by
  obtain ⟨target, label⟩ := t
  obtain ⟨n, stack⟩ := θ
  cases label with
  | rule r q ret =>
    constructor
    · rintro ⟨alt, rfl, context⟩
      obtain ⟨τ, rfl, further⟩ := Context.stands_push.1 context
      exact ⟨τ, ⟨alt, rfl, further⟩, rfl⟩
    · rintro ⟨τ, ⟨alt, -, further⟩, moved⟩
      cases moved
      exact ⟨alt, rfl, Context.stands_push.2 ⟨τ, rfl, further⟩⟩
  | epsilon | predicate | action | precedence =>
    constructor
    · rintro ⟨alt, rfl, context⟩
      exact ⟨stack, ⟨alt, rfl, context⟩, rfl⟩
    · rintro ⟨τ, ⟨alt, -, context⟩, moved⟩
      cases moved
      exact ⟨alt, rfl, context⟩
  | _ => cases free

/-- What the closure has done with a configuration when it is over. -/
inductive Handled (net : Network) (full : Bool) (w : Work η) : Config → Prop
  | intro {c : Config}
    (rests : net.isStop c.state = false → (net.state c.state).epsilonOnly = false →
      ∀ a θ, c.Stands (!full) a θ → w.configs.Has full a θ)
    (moves : net.isStop c.state = false → ∀ t ∈ net.out c.state, t.label.isEpsilon = true →
      Handled net full w (follow c t))
    (returns : net.isStop c.state = true → ∀ n parent, (some n, parent) ∈ c.context.entries →
      Handled net full w (c.returningTo n parent))
    (leaves : net.isStop c.state = true → full = false → ∀ parent, (none, parent) ∈ c.context.entries →
      ∀ t ∈ net.out c.state, t.move = .free t.target → ∃ next : Config, next.state = t.target ∧
        next.alt = c.alt ∧ next.context = c.context ∧ next.identity ∈ w.busy) :
    Handled net full w c

/-- The threads that the closure may add are closed under silent moves. -/
def Closed (net : Network) (Q : Nat → Thread → Prop) : Prop :=
  ∀ a θ θ', Q a θ → θ' ∈ net.silentNext θ → Q a θ'

/-- The work has plain configurations, and its remembered merges are right. -/
structure Fit (full : Bool) (w : Work η) : Prop where
  plain : w.configs.Plain full
  faithful : w.scratch.merges.Faithful (!full)

/-- Work goes on: nothing is lost, and with full context only resting threads with `Q` are added. -/
structure Grows (net : Network) (full : Bool) (Q : Nat → Thread → Prop) (w w' : Work η) : Prop
    extends Fit full w' where
  kept : ∀ a θ, w.configs.Has full a θ → w'.configs.Has full a θ
  busy : ∀ d, d ∈ w.busy → d ∈ w'.busy
  sound : full = true → ∀ a θ, w'.configs.Has full a θ → w.configs.Has full a θ ∨ (Q a θ ∧ net.Rests θ.state)

theorem Handled.mono (grows : Grows net full Q w w') (handled : Handled net full w c) :
    Handled net full w' c := by
  induction handled with
  | intro rests _ _ leaves moved returned =>
    refine .intro (fun inner open' a θ stands => grows.kept a θ (rests inner open' a θ stands)) moved returned
      fun isStop isLocal parent member t edge free => ?_
    obtain ⟨next, state, alt, context, noted⟩ := leaves isStop isLocal parent member t edge free
    exact ⟨next, state, alt, context, grows.busy _ noted⟩

/-- A note of the closure is handled. -/
def Expanded (net : Network) (full : Bool) (w : Work η) (d : Config) : Prop :=
  ∃ b : Config, b.identity = d ∧ Handled net full w b

/-- Work goes on, and what is noted on the way is handled. -/
structure Spans (net : Network) (full : Bool) (Q : Nat → Thread → Prop) (w w' : Work η) : Prop
    extends Grows net full Q w w' where
  expanded : ∀ d ∈ w'.busy, d ∈ w.busy ∨ Expanded net full w' d

theorem Grows.refl (fit : Fit full w) : Grows net full Q w w :=
  ⟨fit, fun _ _ => id, fun _ => id, fun _ _ _ => .inl⟩

theorem Grows.trans (first : Grows net full Q w w') (second : Grows net full Q w' w'') :
    Grows net full Q w w'' :=
  ⟨second.toFit, fun a θ has => second.kept a θ (first.kept a θ has),
    fun d noted => second.busy d (first.busy d noted), fun isFull a θ has =>
      (second.sound isFull a θ has).elim (first.sound isFull a θ) .inr⟩

theorem Spans.refl (fit : Fit full w) : Spans net full Q w w := ⟨.refl fit, fun _ => .inl⟩

theorem Spans.trans (first : Spans net full Q w w') (second : Spans net full Q w' w'') :
    Spans net full Q w w'' := by
  refine ⟨first.toGrows.trans second.toGrows, fun d noted => ?_⟩
  rcases second.expanded d noted with earlier | new
  · rcases first.expanded d earlier with old | ⟨b, same, handled⟩
    · exact .inl old
    · exact .inr ⟨b, same, handled.mono second.toGrows⟩
  · exact .inr new

/-! ## The steps of the closure -/

/-- A configuration is added. -/
theorem addConfig_spans (fit : Fit full w) (plain : c.Plain) (rests : env.net.Rests c.state)
    (sound : full = true → ∀ a θ, c.Stands false a θ → Q a θ) :
    Leaves (addConfig c) w fun _ w' => Spans env.net full Q w w' ∧
      ∀ a θ, c.Stands (!full) a θ → w'.configs.Has full a θ := by
  obtain ⟨plain', faithful', has, only⟩ := fit.plain.insertMemo plain fit.faithful
  intro u w' ran
  cases ran
  refine ⟨⟨⟨⟨plain', faithful'⟩, fun a θ old => has a θ (.inl old), fun _ => id, fun isFull a θ new => ?_⟩,
    fun _ => .inl⟩, fun a θ stands => has a θ (.inr stands)⟩
  rcases only isFull a θ new with old | stands
  · exact .inl old
  · refine .inr ⟨sound isFull a θ stands, ?_⟩
    rw [← stands.2.1]
    exact rests

/-- Where a transition leads, unless it consumes. -/
theorem epsilonTarget_spans (unguarded : env.net.Unguarded) (fit : Fit full w) {n : Nat}
    (member : t ∈ env.net.out n) (collect inRule : Bool) :
    Leaves (epsilonTarget env ⟨full, false⟩ c t collect inRule) w fun next w' =>
      Spans env.net full Q w w' ∧
        next = if t.label.isEpsilon then some (follow c t) else none := by
  obtain ⟨noPredicate, noPrecedence⟩ := unguarded n t member
  obtain ⟨target, label⟩ := t
  cases label with
  | rule r q ret =>
    intro next w' ran
    cases ran
    refine ⟨⟨⟨⟨fit.plain, fit.faithful.share _⟩, fun _ _ => id, fun _ => id, fun _ _ _ => .inl⟩, fun _ => .inl⟩, ?_⟩
    exact congrArg (fun context => some (c.withContext target context)) (Context.Memo.share_fst _ _)
  | predicate rule pred ctx => exact absurd rfl (noPredicate rule pred ctx)
  | precedence q => exact absurd rfl (noPrecedence q)
  | _ => exact .pure ⟨.refl fit, rfl⟩

/-- A configuration is noted, and a new one is the only thing that is noted. -/
theorem isNew_notes (fit : Fit full w) : Leaves (isNew c) w fun new w' =>
    Grows net full Q w w' ∧ c.identity ∈ w'.busy ∧
      ∀ d ∈ w'.busy, d ∈ w.busy ∨ new = true ∧ d = c.identity := by
  intro new w' ran
  cases ran
  refine ⟨⟨⟨fit.plain, fit.faithful⟩, fun _ _ => id, fun d noted => ?_, fun _ _ _ => .inl⟩, ?_, fun d noted => ?_⟩
  · exact Std.HashSet.mem_insert.2 (.inr noted)
  · exact Std.HashSet.mem_insert.2 (.inl (beq_self_eq_true _))
  · rcases Std.HashSet.mem_insert.1 noted with same | old
    · have same : c.identity = d := beq_iff_eq.1 same
      by_cases known : c.identity ∈ w.busy
      · exact .inl (same ▸ known)
      · exact .inr ⟨by simpa using known, same.symm⟩
    · exact .inl old

/-- What the closure does behind one transition. -/
def Passed (net : Network) (full : Bool) (c : Config) (t : Transition) (w : Work η) : Prop :=
  (net.isStop c.state = false → t.label.isEpsilon = true → Handled net full w (follow c t)) ∧
    (net.isStop c.state = true → t.move = .free t.target → ∃ next : Config, next.state = t.target ∧
      next.alt = c.alt ∧ next.context = c.context ∧ next.identity ∈ w.busy)

theorem Passed.mono (grows : Grows net full Q w w') (passed : Passed net full c t w) :
    Passed net full c t w' := by
  refine ⟨fun inner free => (passed.1 inner free).mono grows, fun isStop free => ?_⟩
  obtain ⟨next, state, alt, context, noted⟩ := passed.2 isStop free
  exact ⟨next, state, alt, context, grows.busy _ noted⟩

/-- What the closure is known to do with less fuel. -/
def ClosureSpans (env : Env η) (full : Bool) (Q : Nat → Thread → Prop) (fuel : Nat) : Prop :=
  ∀ (w : Work η) (c : Config) (collect : Bool) (depth : Int), Fit full w → c.Plain →
    (full = true → ∀ a θ, c.Stands false a θ → Q a θ) →
    Leaves (closure env ⟨full, false⟩ fuel c collect depth) w fun _ w' =>
      Spans env.net full Q w w' ∧ Handled env.net full w' c

/-- What the closure does with one transition. -/
def passEdge (env : Env η) (p : Purpose) (fuel : Nat) (c : Config) (collect : Bool) (depth : Int)
    (t : Transition) : WorkM η Unit := do
  let collect := !isAction t.label && collect
  match ← epsilonTarget env p c t collect (depth == 0) with
  | none => return ()
  | some next =>
    if (env.net.state c.state).kind.isRuleStop then
      let next := { next with
        filterSuppressed := next.filterSuppressed || returnsOutermost env t
        outerDepth := next.outerDepth + 1 }
      if ← isNew next then
        modify fun w => { w with configs := { w.configs with dipsIntoOuter := true } }
        closure env p fuel next collect (depth - 1)
    else if t.label.isEpsilon then
      closure env p fuel next collect (if isCall t.label && depth ≥ 0 then depth + 1 else depth)
    else if ← isNew next then closure env p fuel next collect depth

theorem closureStep_succ (p : Purpose) (fuel : Nat) (c : Config) (collect : Bool) (depth : Int) :
    closureStep env p (fuel + 1) c collect depth = (do
      if !(env.net.state c.state).epsilonOnly then addConfig c
      (env.net.out c.state).forM (passEdge env p fuel c collect depth)) := rfl

theorem passEdge_spans (unguarded : env.net.Unguarded) (closed : Closed env.net Q) {fuel : Nat}
    (below : ClosureSpans env full Q fuel) (fit : Fit full w) (plain : c.Plain)
    (sound : full = true → ∀ a θ, c.Stands false a θ → Q a θ)
    (outer : env.net.isStop c.state = true → full = false) (collect : Bool) (depth : Int)
    (member : t ∈ env.net.out c.state) :
    Leaves (passEdge env ⟨full, false⟩ fuel c collect depth t) w fun _ w' =>
      Spans env.net full Q w w' ∧ Passed env.net full c t w' := by
  unfold passEdge
  refine (epsilonTarget_spans (Q := Q) unguarded fit member _ _).bind fun next w₁ found => ?_
  obtain ⟨spans₁, rfl⟩ := found
  have plain' := plain_follow plain t
  cases free : t.label.isEpsilon with
  | false =>
    refine .pure ⟨spans₁, fun _ free' => ?_, fun _ free' => ?_⟩
    · rw [free] at free'
      cases free'
    · unfold Transition.move at free'
      split at free'
      · cases free'
      · simp [free] at free'
  | true =>
    rw [if_pos rfl]
    dsimp only
    change Leaves (if env.net.isStop c.state = true then _ else _) w₁ _
    cases isStop : env.net.isStop c.state with
    | true =>
      rw [if_pos rfl]
      have isLocal := outer isStop
      have behind (next : Config) (plainNext : next.Plain) (leads : t.move = .free t.target →
          next.state = t.target ∧ next.alt = c.alt ∧ next.context = c.context) :
          Leaves (do
            if ← isNew next then
              modify fun w => { w with configs := { w.configs with dipsIntoOuter := true } }
              closure env ⟨full, false⟩ fuel next (!isAction t.label && collect) (depth - 1)) w₁ fun _ w' =>
            Spans env.net full Q w w' ∧ Passed env.net full c t w' := by
        have notes : Leaves (isNew next) w₁ fun new w' => Grows env.net full Q w₁ w' ∧
            next.identity ∈ w'.busy ∧ ∀ d ∈ w'.busy, d ∈ w₁.busy ∨ new = true ∧ d = next.identity :=
          isNew_notes spans₁.toFit
        refine notes.bind fun new w₂ noted => ?_
        obtain ⟨grows₂, isNoted, only⟩ := noted
        have passed {w' : Work η} (noted : next.identity ∈ w'.busy) : Passed env.net full c t w' :=
          ⟨fun inner => (nomatch isStop.symm.trans inner), fun _ free' =>
            ⟨next, (leads free').1, (leads free').2.1, (leads free').2.2, noted⟩⟩
        cases new with
        | false =>
          refine .pure ⟨spans₁.trans ⟨grows₂, fun d known => ?_⟩, passed isNoted⟩
          exact .inl ((only d known).resolve_right nofun)
        | true =>
          rw [if_pos rfl]
          refine .modify_bind fun u w₃ ran => ?_
          have fit₂ : Fit full { w₂ with configs := { w₂.configs with dipsIntoOuter := true } } :=
            ⟨⟨grows₂.plain.ordered, grows₂.plain.fullContext, grows₂.plain.configs⟩, grows₂.faithful⟩
          obtain ⟨spans₃, handled⟩ := below _ _ _ _ fit₂ plainNext (fun isFull => nomatch isLocal.symm.trans isFull)
            u w₃ ran
          have grows₃ : Grows env.net full Q w₂ w₃ :=
            ⟨spans₃.toFit, spans₃.kept, spans₃.busy, spans₃.sound⟩
          refine ⟨spans₁.trans ⟨grows₂.trans grows₃, fun d known => ?_⟩, passed (spans₃.busy _ isNoted)⟩
          rcases spans₃.expanded d known with earlier | new
          · rcases only d earlier with old | ⟨-, rfl⟩
            · exact .inl old
            · exact .inr ⟨next, rfl, handled⟩
          · exact .inr new
      refine behind _ ⟨plain'.guard, plain'.formed, plain'.present, plain'.valid⟩ fun free' => ?_
      rw [follow_of_free free']
      exact ⟨rfl, rfl, rfl⟩
    | false =>
      rw [if_neg Bool.false_ne_true, if_pos rfl]
      have sound' : full = true → ∀ a θ, (follow c t).Stands false a θ → Q a θ := by
        intro isFull a θ stands
        obtain ⟨stack, before, moved⟩ := (stands_follow free).1 stands
        exact closed a _ θ (sound isFull a _ before)
          (mem_silentNext_of_move isStop (List.mem_map_of_mem member) moved)
      refine fun u w₂ ran => ?_
      obtain ⟨spans₂, handled⟩ := below w₁ _ _ _ spans₁.toFit plain' sound' u w₂ ran
      exact ⟨spans₁.trans spans₂, fun _ _ => handled, fun isEnd => nomatch isStop.symm.trans isEnd⟩

/-- What the closure does with a configuration from which it follows the transitions. -/
theorem closureStep_spans (unguarded : env.net.Unguarded) (closed : Closed env.net Q) {fuel : Nat}
    (below : ClosureSpans env full Q fuel) (fit : Fit full w) (plain : c.Plain)
    (sound : full = true → ∀ a θ, c.Stands false a θ → Q a θ)
    (outer : env.net.isStop c.state = true → full = false) (collect : Bool) (depth : Int) :
    Leaves (closureStep env ⟨full, false⟩ (fuel + 1) c collect depth) w fun _ w' =>
      Spans env.net full Q w w' ∧ (∀ t ∈ env.net.out c.state, Passed env.net full c t w') ∧
        ((env.net.state c.state).epsilonOnly = false →
          ∀ a θ, c.Stands (!full) a θ → w'.configs.Has full a θ) := by
  have edges {w : Work η} (fit : Fit full w) :
      Leaves ((env.net.out c.state).forM (passEdge env ⟨full, false⟩ fuel c collect depth)) w fun _ w' =>
        Spans env.net full Q w w' ∧ ∀ t ∈ env.net.out c.state, Passed env.net full c t w' :=
    Leaves.forM (P := Passed env.net full c) (R := Spans env.net full Q) (fun spans => .refl spans.toFit)
      Spans.trans (fun spans passed => passed.mono spans.toGrows) (.refl fit) fun t member w' spans =>
        passEdge_spans unguarded closed below spans.toFit plain sound outer collect depth member
  rw [closureStep_succ]
  cases rests : (env.net.state c.state).epsilonOnly with
  | true =>
    intro u w' ran
    obtain ⟨spans, passed⟩ := edges fit u w' ran
    exact ⟨spans, passed, nofun⟩
  | false =>
    refine (addConfig_spans fit plain (.inr rests) sound).bind fun _ w₁ added => fun u w' ran => ?_
    obtain ⟨spans₁, has⟩ := added
    obtain ⟨spans, passed⟩ := edges spans₁.toFit u w' ran
    exact ⟨spans₁.trans spans, passed, fun _ a θ stands => spans.kept a θ (has a θ stands)⟩

theorem entries_of_isEmpty {k : Context} (bottom : k.isEmpty = true) :
    ∃ parent, k.entries = [(none, parent)] := by
  unfold Context.isEmpty at bottom
  split at bottom
  · exact ⟨_, rfl⟩
  · cases bottom

/-- What the closure does at the end of a rule with one entry of the context. -/
def Returned (net : Network) (full : Bool) (c : Config) (entry : Option Nat × Context) (w : Work η) : Prop :=
  match entry with
  | (some n, parent) => Handled net full w (c.returningTo n parent)
  | (none, _) => full = false → ∀ t ∈ net.out c.state, Passed net full c t w

theorem Returned.mono {entry : Option Nat × Context} (grows : Grows net full Q w w')
    (returned : Returned net full c entry w) : Returned net full c entry w' := by
  obtain ⟨_ | n, parent⟩ := entry
  · exact fun isLocal t member => (returned isLocal t member).mono grows
  · exact Handled.mono grows returned

/-- At the end of a rule everything is handled when every entry is. -/
theorem handled_of_returned (isStop : net.isStop c.state = true)
    (returned : ∀ entry ∈ c.context.entries, Returned net full c entry w) : Handled net full w c :=
  .intro (fun inner => nomatch isStop.symm.trans inner) (fun inner => nomatch isStop.symm.trans inner)
    (fun _ n parent member => returned (some n, parent) member)
    fun _ isLocal parent member t edge free => ((returned (none, parent) member) isLocal t edge).2 isStop free

/-- Whatever a closure is computed for, it handles its configuration, and with full context it adds only what
follows silently. -/
theorem closure_spans (unguarded : env.net.Unguarded) (closed : Closed env.net Q) (fuel : Nat) :
    ClosureSpans env full Q fuel := by
  induction fuel using Nat.strongRecOn with
  | ind fuel below =>
  intro w c collect depth fit plain sound
  cases fuel with
  | zero => exact fun u w' ran => nomatch ran
  | succ fuel =>
    have steps {w : Work η} (fit : Fit full w) (outer : env.net.isStop c.state = true → full = false) :
        Leaves (closureStep env ⟨full, false⟩ fuel c collect depth) w fun _ w' =>
          Spans env.net full Q w w' ∧ (∀ t ∈ env.net.out c.state, Passed env.net full c t w') ∧
            ((env.net.state c.state).epsilonOnly = false →
              ∀ a θ, c.Stands (!full) a θ → w'.configs.Has full a θ) := by
      cases fuel with
      | zero => exact fun u w' ran => nomatch ran
      | succ fuel =>
        exact closureStep_spans unguarded closed (below fuel (by omega)) fit plain sound outer collect depth
    rw [closure]
    change Leaves (if env.net.isStop c.state = true then _ else _) w _
    cases isStop : env.net.isStop c.state with
    | false =>
      rw [if_neg Bool.false_ne_true]
      intro u w' ran
      obtain ⟨spans, passed, rests⟩ := steps fit (fun isEnd => nomatch isStop.symm.trans isEnd) u w' ran
      exact ⟨spans, .intro (fun _ => rests) (fun inner t member free => (passed t member).1 inner free)
        (fun isEnd => nomatch isStop.symm.trans isEnd) (fun isEnd => nomatch isStop.symm.trans isEnd)⟩
    | true =>
      rw [if_pos rfl]
      -- With full context the bottom of the stack is the end; otherwise any caller may follow.
      have atBottom {w : Work η} (fit : Fit full w) {d : Config} (plainD : d.Plain) (same : d.state = c.state)
          (sound' : full = true → ∀ a θ, d.Stands false a θ → Q a θ) :
          Leaves (if full then addConfig d else closureStep env ⟨full, false⟩ fuel c collect depth) w
            fun _ w' => Spans env.net full Q w w' ∧
              (full = false → ∀ t ∈ env.net.out c.state, Passed env.net full c t w') := by
        cases isFull : full with
        | true =>
          subst isFull
          intro u w' ran
          exact ⟨(addConfig_spans fit plainD (.inl (same ▸ isStop)) sound' u w' ran).1, nofun⟩
        | false =>
          subst isFull
          intro u w' ran
          obtain ⟨spans, passed, -⟩ := steps fit (fun _ => rfl) u w' ran
          exact ⟨spans, fun _ => passed⟩
      have returning (n : Nat) (parent : Context) (member : (some n, parent) ∈ c.context.entries)
          {w : Work η} (fit : Fit full w) :
          Leaves (closure env ⟨full, false⟩ fuel
            (c.returningTo n (if parent = .nil then .empty else parent)) collect (depth - 1)) w fun _ w' =>
            Spans env.net full Q w w' ∧ Handled env.net full w' (c.returningTo n parent) := by
        obtain ⟨formed, absent⟩ := plain.formed.of_mem member
        have present := mt absent.2 (Option.some_ne_none n)
        rw [if_neg present]
        refine below fuel (by omega) w _ _ _ fit ⟨plain.guard, formed, present, plain.valid⟩ ?_
        rintro isFull a ⟨m, τ⟩ ⟨alt, rfl, stands⟩
        have before := sound isFull a ⟨c.state, n :: τ⟩ ⟨alt, rfl, Context.stands_of_return member stands⟩
        exact closed a _ _ before (by simp [silentNext, isStop, Config.returningTo])
      split
      · refine Leaves.imp (Leaves.forM (P := Returned env.net full c) (R := Spans env.net full Q)
          (fun spans => .refl spans.toFit) Spans.trans (fun spans returned => returned.mono spans.toGrows)
          (.refl fit) fun entry member w' spans => ?_) fun _ w' known => ?_
        · obtain ⟨_ | n, parent⟩ := entry
          · refine atBottom spans.toFit ⟨plain.guard, Context.wellFormed_empty, Context.empty_ne_nil, plain.valid⟩ rfl ?_
            rintro isFull a θ ⟨alt, state, stands⟩
            have isEnd : θ.stack = [] := (Context.stands_empty.1 stands).resolve_left Bool.false_ne_true
            exact sound isFull a θ ⟨alt, state, Context.stands_of_bottom member (.inr isEnd)⟩
          · exact returning n parent member spans.toFit
        · exact ⟨known.1, handled_of_returned isStop known.2⟩
      · rename_i bottom
        obtain ⟨parent, entries⟩ := entries_of_isEmpty (by simpa using bottom)
        intro u w' ran
        obtain ⟨spans, passed⟩ := atBottom fit plain rfl sound u w' ran
        refine ⟨spans, handled_of_returned isStop fun entry member => ?_⟩
        rw [entries] at member
        obtain rfl := List.mem_singleton.1 member
        exact passed

end Prediction

end AdaptiveLL
