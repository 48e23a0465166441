import AdaptiveLL.Proofs.Prediction.Reference
import AdaptiveLL.Proofs.Prediction.Steps

/-!
# What the sets of a prediction keep

A simulation makes its configurations from those with which the alternatives begin, by a few kinds of moves,
and puts them into its sets one by one. So what the moves and the insertions keep holds of every set
(`Upholds`): of the set of the start (`startSet_upholds`), behind the filter on precedences
(`precedenceFilter_upholds`) and behind every token (`reachSet_upholds`).

Two things are kept. Alternatives with their guards have whatever property lasts when predicates are met
(`Network.Inherits`), and the contexts are well formed, with remembered merges that are right.
-/

set_option autoImplicit false

namespace AdaptiveLL

/-- The guard that a transition asks for. -/
def Label.guard? : Label → Option Guard
  | .predicate r q ctx => some (.predicate r q ctx)
  | .precedence n => some (.precedence n)
  | _ => none

theorem Label.isEpsilon_of_accepts {label : Label} {x lo hi : Int} (accepts : label.accepts x lo hi = true) :
    label.isEpsilon = false := by
  cases label <;> first | rfl | cases accepts

namespace Prediction

variable {η : Type} {env : Env η} {p : Purpose} {full : Bool} {I J : Config → Prop}
  {K : ConfigSet → Scratch η → Prop} {s : ConfigSet} {c : Config} {w : Work η} {scratch : Scratch η} {x : Int}

/-- Every move keeps `I` of a configuration on its way, one that comes to rest has `J`, and with configurations
of this kind every insertion keeps `K` of a set and of what predictions share. With full context the end of a
rule is only left for a caller. -/
structure Upholds (env : Env η) (full : Bool) (I J : Config → Prop) (K : ConfigSet → Scratch η → Prop) : Prop where
  empty : ∀ {s w}, K s w → K (.ofParser full) w
  emptied : ∀ {s w}, K s w → K (.ofParser s.fullContext) w
  insert : ∀ {s w c}, K s w → J c →
    K (s.insertMemo c w.merges).1 { w with merges := (s.insertMemo c w.merges).2 }
  share : ∀ {s w} context, K s w → K s { w with merges := (w.merges.share context).2 }
  asked : ∀ {s w} g, K s w → K s { w with hooks := ((Guard.eval env.evaluator g).run w.hooks).2 }
  resolved : ∀ {s w} g, K s w → K s { w with hooks := ((Guard.resolve env.evaluator g).run w.hooks).2 }
  dips : ∀ {s w}, K s w → K { s with dipsIntoOuter := true } w
  mem : ∀ {s w c}, K s w → c ∈ s.configs → J c
  opened : ∀ {c}, J c → I c
  rested : ∀ {c}, I c → (full = true → env.net.isStop c.state = true → c.context.isEmpty = true) → J c
  carried : ∀ {c t}, J c → t ∈ env.net.out c.state → env.net.isStop c.state = false → t.label.isEpsilon = false →
    J (c.withState t.target)
  moved : ∀ {c t}, I c → t ∈ env.net.out c.state → (full = true → env.net.isStop c.state = false) →
    (∀ r q ret, t.label ≠ .rule r q ret) → I (c.withState t.target)
  called : ∀ {c t r q ret}, I c → t ∈ env.net.out c.state → (full = true → env.net.isStop c.state = false) →
    t.label = .rule r q ret → I (c.withContext t.target (c.context.push ret))
  guarded : ∀ {c t q}, full = false → I c → t ∈ env.net.out c.state → t.label.guard? = some q →
    I (c.withGuard t.target (c.guard.and q))
  left : ∀ {c} suppressed depth, I c → I { c with filterSuppressed := suppressed, outerDepth := depth }
  returned : ∀ {c n parent}, I c → env.net.isStop c.state = true → (some n, parent) ∈ c.context.entries →
    I (c.returningTo n (if parent = .nil then .empty else parent))
  ended : ∀ {c parent}, I c → env.net.isStop c.state = true → (none, parent) ∈ c.context.entries →
    I (c.withContext c.state .empty)

/-! ## Closures -/

theorem passPredicate_upholds (upholds : Upholds env full I J K) (isFull : p.fullContext = full) {t : Transition}
    {g : Guard} (asks : t.label.guard? = some g) (member : t ∈ env.net.out c.state)
    (inner : full = true → env.net.isStop c.state = false) (collect : Bool) (kept : K w.configs w.scratch) (holds : I c) :
    Leaves (passPredicate env p c t.target g collect) w fun result w' =>
      K w'.configs w'.scratch ∧ ∀ next, result = some next → I next := by
  have moved : I (c.withState t.target) := upholds.moved holds member inner fun r q ret label => by
    rw [label] at asks
    cases asks
  unfold passPredicate
  split
  · exact .pure ⟨kept, fun next same => Option.some.inj same ▸ moved⟩
  · split
    · refine .get_bind (.lift_bind fun answer asked => fun result w' ran => ?_)
      cases asked
      cases ran
      refine ⟨upholds.asked g kept, fun next same => ?_⟩
      split at same
      · cases same
        exact moved
      · cases same
    · rename_i isLocal
      rw [isFull] at isLocal
      exact .pure ⟨kept, fun next same => Option.some.inj same ▸
        upholds.guarded (Bool.eq_false_iff.2 isLocal) holds member asks⟩

theorem epsilonTarget_upholds (upholds : Upholds env full I J K) (isFull : p.fullContext = full) {t : Transition}
    (member : t ∈ env.net.out c.state) (inner : full = true → env.net.isStop c.state = false) (collect inRule : Bool)
    (kept : K w.configs w.scratch) (holds : I c) :
    Leaves (epsilonTarget env p c t collect inRule) w fun result w' =>
      K w'.configs w'.scratch ∧ ∀ next, result = some next → I next := by
  have asking {g : Guard} (asks : t.label.guard? = some g) (collect : Bool) :=
    passPredicate_upholds upholds isFull asks member inner collect kept holds
  have moved (plain : ∀ r q ret, t.label ≠ .rule r q ret) (next : Config) (same : some (c.withState t.target) = some next) :
      I next := Option.some.inj same ▸ upholds.moved holds member inner plain
  have called {r : Nat} {q : Int} {ret : Nat} (label : t.label = .rule r q ret) :=
    upholds.called holds member inner label
  obtain ⟨target, label⟩ := t
  cases label with
  | rule r q ret =>
    intro result w' ran
    cases ran
    refine ⟨upholds.share _ kept, fun next same => ?_⟩
    cases same
    change I (c.withContext target (w.scratch.merges.share (c.context.push ret)).1)
    rw [Context.Memo.share_fst]
    exact called rfl
  | precedence n => exact asking (g := .precedence n) rfl _
  | predicate r q ctx => exact asking (g := .predicate r q ctx) rfl _
  | action | epsilon => exact .pure ⟨kept, moved nofun⟩
  | atom | range | set =>
    refine .pure ⟨kept, fun next same => ?_⟩
    split at same
    · exact moved nofun next same
    · cases same
  | notSet | wildcard => exact .pure ⟨kept, fun next same => nomatch same⟩

theorem addConfig_upholds (upholds : Upholds env full I J K) (kept : K w.configs w.scratch) (holds : J c) :
    Leaves (addConfig c) w fun _ w' => K w'.configs w'.scratch := by
  intro u w' ran
  cases ran
  exact upholds.insert kept holds

/-- The closure of a configuration keeps to what is upheld, with this much fuel. -/
def ClosureUpholds (env : Env η) (p : Purpose) (I : Config → Prop) (K : ConfigSet → Scratch η → Prop)
    (fuel : Nat) : Prop :=
  ∀ (w : Work η) (c : Config) (collect : Bool) (depth : Int), K w.configs w.scratch → I c →
    Leaves (closure env p fuel c collect depth) w fun _ w' => K w'.configs w'.scratch

theorem passEdge_upholds (upholds : Upholds env full I J K) (isFull : p.fullContext = full) {fuel : Nat}
    (below : ClosureUpholds env p I K fuel) {t : Transition} (member : t ∈ env.net.out c.state)
    (inner : full = true → env.net.isStop c.state = false) (collect : Bool) (depth : Int)
    (kept : K w.configs w.scratch) (holds : I c) :
    Leaves (passEdge env p fuel c collect depth t) w fun _ w' => K w'.configs w'.scratch := by
  refine (epsilonTarget_upholds upholds isFull member inner _ _ kept holds).bind fun result w₁ found => ?_
  obtain ⟨kept₁, inherited⟩ := found
  have isNew_keeps (next : Config) : Leaves (isNew next) w₁ fun _ w' => K w'.configs w'.scratch := by
    intro new w' ran
    cases ran
    exact kept₁
  split
  · exact .pure kept₁
  · rename_i next
    have holds' := inherited next rfl
    split
    · refine (isNew_keeps _).bind fun new w₂ kept₂ => ?_
      split
      · exact .modify_bind (below _ _ _ _ (upholds.dips kept₂) (upholds.left _ _ holds'))
      · exact .pure kept₂
    · split
      · exact below _ _ _ _ kept₁ holds'
      · refine (isNew_keeps _).bind fun new w₂ kept₂ => ?_
        split
        · exact below _ _ _ _ kept₂ holds'
        · exact .pure kept₂

/-- What every turn of a loop keeps is kept in the end. -/
theorem forM_upholds {α : Type} {f : α → WorkM η PUnit} {l : List α} (kept : K w.configs w.scratch)
    (each : ∀ y ∈ l, ∀ w : Work η, K w.configs w.scratch →
      Leaves (f y) w fun _ w' => K w'.configs w'.scratch) :
    Leaves (l.forM f) w fun _ w' => K w'.configs w'.scratch := by
  intro u w' ran
  refine (Leaves.forM (P := fun _ _ => True) (R := fun _ (w : Work η) => K w.configs w.scratch) id (fun _ => id)
    (fun _ _ => trivial) kept (fun y member w' kept => ?_) u w' ran).1
  exact fun u w'' ran => ⟨each y member w' kept u w'' ran, trivial⟩

theorem closureStep_upholds (upholds : Upholds env full I J K) (isFull : p.fullContext = full) {fuel : Nat}
    (below : ∀ k, k + 1 = fuel → ClosureUpholds env p I K k) (inner : full = true → env.net.isStop c.state = false)
    (collect : Bool) (depth : Int) (kept : K w.configs w.scratch) (holds : I c) :
    Leaves (closureStep env p fuel c collect depth) w fun _ w' => K w'.configs w'.scratch := by
  cases fuel with
  | zero => exact fun u w' ran => nomatch ran
  | succ fuel =>
    have edges {w : Work η} (kept : K w.configs w.scratch) :
        Leaves ((env.net.out c.state).forM (passEdge env p fuel c collect depth)) w fun _ w' =>
          K w'.configs w'.scratch :=
      forM_upholds kept fun t member w kept =>
        passEdge_upholds upholds isFull (below fuel rfl) member inner collect depth kept holds
    have rests : J c := upholds.rested holds fun full stop => nomatch (inner full).symm.trans stop
    rw [closureStep_succ]
    split
    · exact (addConfig_upholds upholds kept rests).bind fun _ w₁ kept₁ => edges kept₁
    · exact edges kept

theorem closure_upholds (upholds : Upholds env full I J K) (isFull : p.fullContext = full) (fuel : Nat) :
    ClosureUpholds env p I K fuel := by
  induction fuel using Nat.strongRecOn with
  | ind fuel below =>
  intro w c collect depth kept holds
  cases fuel with
  | zero => exact fun u w' ran => nomatch ran
  | succ fuel =>
    have steps (inner : full = true → env.net.isStop c.state = false) {w : Work η} (kept : K w.configs w.scratch) :
        Leaves (closureStep env p fuel c collect depth) w fun _ w' => K w'.configs w'.scratch :=
      closureStep_upholds upholds isFull (fun k less => below k (by omega)) inner collect depth kept holds
    -- With local context the end of a rule is left for any caller.
    have wild (isLocal : ¬ p.fullContext = true) : full = true → env.net.isStop c.state = false :=
      fun isFull' => absurd (isFull.trans isFull') isLocal
    rw [closure]
    split
    · rename_i stop
      split
      · refine forM_upholds kept fun entry member w' kept => ?_
        obtain ⟨_ | n, parent⟩ := entry
        · dsimp only
          split
          · exact addConfig_upholds upholds kept (upholds.rested (upholds.ended holds stop member) fun _ _ => rfl)
          · exact steps (wild ‹_›) kept
        · exact below fuel (by omega) _ _ _ _ kept (upholds.returned holds stop member)
      · rename_i isEmpty
        split
        · exact addConfig_upholds upholds kept (upholds.rested holds fun _ _ => by simpa using isEmpty)
        · exact steps (wild ‹_›) kept
    · rename_i inner
      exact steps (fun _ => Bool.eq_false_iff.2 inner) kept

theorem closureOf_upholds (upholds : Upholds env full I J K) (isFull : p.fullContext = full) (collect : Bool)
    {cs : List Config} (kept : K s scratch) (holds : ∀ c ∈ cs, I c) :
    Leaves (closureOf env p collect s cs) scratch K := by
  refine .get_bind (.lift_bind fun ⟨⟨⟩, work⟩ ran => ?_)
  have leaves : Leaves (cs.forM fun c => closure env p env.fuel c collect 0)
      ({ configs := s, scratch } : Work η) fun _ w' => K w'.configs w'.scratch :=
    forM_upholds kept fun c member w kept => closure_upholds upholds isFull env.fuel w c collect 0 kept (holds c member)
  intro s' scratch' ran'
  cases ran'
  exact leaves _ _ ran

/-! ## The sets of a prediction -/

theorem insert_upholds (upholds : Upholds env full I J K) (kept : K s scratch) (holds : J c) :
    Leaves (insert s c : ScratchM η ConfigSet) scratch K := by
  intro s' scratch' ran
  cases ran
  exact upholds.insert kept holds

/-- What every turn of a fold keeps is kept in the end. -/
theorem foldlM_upholds {α : Type} {f : ConfigSet → α → ScratchM η ConfigSet} {l : List α} (kept : K s scratch)
    (each : ∀ y ∈ l, ∀ (s : ConfigSet) (scratch : Scratch η), K s scratch → Leaves (f s y) scratch K) :
    Leaves (l.foldlM f s) scratch K :=
  Leaves.foldlM (P := fun _ => K) kept fun _ y s' scratch' member kept' => each y member s' scratch' kept'

theorem startSet_upholds (upholds : Upholds env full I J K) (kept : K (.ofParser full) scratch) {context : Context}
    (starts : ∀ i t, (env.net.out env.startState)[i]? = some t → I (first i t context)) :
    Leaves (startSet env context full) scratch K := by
  refine foldlM_upholds kept fun y member s scratch kept => ?_
  refine closureOf_upholds upholds rfl true kept fun c among => ?_
  obtain rfl := List.mem_singleton.1 among
  exact starts y.2 y.1 (List.mem_zipIdx_iff_getElem?.1 member)

/-- Every guard that is left when precedences are answered is upheld. -/
def Resolves (env : Env η) (I : Config → Prop) : Prop :=
  ∀ c, I c → ∀ h g, ((c.guard.resolve env.evaluator).run h).1 = some g → I (c.withGuard c.state g)

theorem filterFirst_upholds (upholds : Upholds env full I J K) (resolves : Resolves env J) {cs : List Config}
    {seen : List (Nat × Context)} (kept : K s scratch) (holds : ∀ c ∈ cs, J c) :
    Leaves (filterFirst env s seen cs) scratch fun result => K result.1 := by
  induction cs generalizing s seen scratch with
  | nil => exact .pure kept
  | cons c rest ih =>
    have later : ∀ d ∈ rest, J d := fun d member => holds d (List.mem_cons_of_mem _ member)
    refine .get_bind ?_
    cases resolved : (c.guard.resolve env.evaluator).run scratch.hooks with
    | mk answer hooks =>
      dsimp only
      refine Leaves.set_bind ?_
      have kept' := upholds.resolved c.guard kept
      rw [resolved] at kept'
      cases answer with
      | none => exact ih kept' later
      | some g =>
        have known := resolves c (holds c List.mem_cons_self) scratch.hooks g (congrArg Prod.fst resolved)
        exact (insert_upholds upholds kept' known).bind fun s' w' kept'' => ih kept'' later

theorem precedenceFilter_upholds (upholds : Upholds env full I J K) (resolves : Resolves env J)
    (kept : K s scratch) : Leaves (precedenceFilter env s) scratch K := by
  have member (c : Config) (among : c ∈ s.configs.toList) : J c := upholds.mem kept (Array.mem_toList_iff.1 among)
  refine (filterFirst_upholds upholds resolves (upholds.emptied kept) fun c among =>
    member c (List.mem_filter.1 among).1).bind fun result scratch₁ kept₁ => ?_
  refine foldlM_upholds kept₁ fun c among s' scratch' kept' => ?_
  dsimp only
  split
  · exact .pure kept'
  · exact insert_upholds upholds kept' (member c (List.mem_filter.1 among).1)

theorem move_upholds (upholds : Upholds env full I J K) (kept : K s scratch) :
    Leaves (move env s x full) scratch K := by
  refine foldlM_upholds (upholds.empty kept) fun c among s₁ scratch₁ kept₁ => ?_
  obtain ⟨inSet, inner⟩ := List.mem_filter.1 among
  have holds := upholds.mem kept (Array.mem_toList_iff.1 inSet)
  refine foldlM_upholds kept₁ fun t member s₂ scratch₂ kept₂ => ?_
  split
  · rename_i accepts
    exact insert_upholds upholds kept₂ (upholds.carried holds member (by simpa [Network.isStop] using inner)
      (Label.isEpsilon_of_accepts accepts))
  · exact .pure kept₂

theorem insertAll_upholds (upholds : Upholds env full I J K) {cs : List Config} (kept : K s scratch)
    (holds : ∀ c ∈ cs, J c) : Leaves (cs.foldlM insert s : ScratchM η ConfigSet) scratch K :=
  foldlM_upholds kept fun c among _ _ kept' => insert_upholds upholds kept' (holds c among)

theorem keepStopped_upholds (upholds : Upholds env full I J K) (kept : K s scratch) :
    Leaves (keepStopped env s) scratch K := by
  unfold keepStopped
  split
  · exact .pure kept
  · exact insertAll_upholds upholds (upholds.emptied kept) fun c among =>
      upholds.mem kept (Array.mem_toList_iff.1 (List.mem_filter.1 among).1)

/-! ## One token -/

theorem ite_bind {m : Type → Type} [Monad m] {α β : Type} {q : Prop} [Decidable q] (x y : m α) (f : α → m β) :
    (if q then x else y) >>= f = if q then x >>= f else y >>= f := by
  split <;> rfl

/-- The configurations at the end of a rule, which may be kept. -/
def stoppedIn (net : Network) (s : ConfigSet) (x : Int) (full : Bool) : List Config :=
  if full || x == endOfInput then s.configs.toList.filter fun c => (net.state c.state).kind.isRuleStop else []

/-- Is there no need for the closure of what was moved? -/
def leftAlone (moved : ConfigSet) (stopped : List Config) (x : Int) : Bool :=
  stopped.isEmpty && !(x == endOfInput) && (moved.size == 1 || moved.sharedAlt != invalidAlt)

/-- The set behind a token, step by step. -/
theorem reachSet_eq (s : ConfigSet) (x : Int) (full : Bool) :
    (reachSet env s x full : ScratchM η (Option ConfigSet)) =
      move env s x full >>= fun moved =>
      (if leftAlone moved (stoppedIn env.net s x full) x then pure moved
        else closureOf env ⟨full, x == endOfInput⟩ false (.ofParser full) moved.configs.toList) >>= fun reach =>
      (if x == endOfInput then keepStopped env reach else pure reach) >>= fun reach =>
      (if !full || !someAtStop env.net reach then (stoppedIn env.net s x full).foldlM insert reach
        else pure reach) >>= fun reach =>
      pure (if reach.isEmpty then none else some reach) := by
  simp only [ite_bind]
  rfl

/-- The set behind a token is upheld, and it has configurations. -/
theorem reachSet_upholds (upholds : Upholds env full I J K) (kept : K s scratch) :
    Leaves (reachSet env s x full) scratch fun result scratch' =>
      (∃ s, K s scratch') ∧ ∀ reach, result = some reach → K reach scratch' ∧ reach.isEmpty = false := by
  have stopped (c : Config) (member : c ∈ stoppedIn env.net s x full) : J c := by
    unfold stoppedIn at member
    split at member
    · exact upholds.mem kept (Array.mem_toList_iff.1 (List.mem_filter.1 member).1)
    · cases member
  rw [reachSet_eq]
  refine (move_upholds upholds kept).bind fun moved scratch₁ kept₁ => ?_
  refine Leaves.bind (P := K) ?_ fun reach scratch₂ kept₂ => ?_
  · split
    · exact .pure kept₁
    · exact closureOf_upholds upholds rfl false (upholds.empty kept₁) fun c member =>
        upholds.opened (upholds.mem kept₁ (Array.mem_toList_iff.1 member))
  refine Leaves.bind (P := K) ?_ fun reach scratch₃ kept₃ => ?_
  · split
    · exact keepStopped_upholds upholds kept₂
    · exact .pure kept₂
  refine Leaves.bind (P := K) ?_ fun reach scratch₄ kept₄ => ?_
  · split
    · exact insertAll_upholds upholds kept₃ stopped
    · exact .pure kept₃
  refine .pure ⟨⟨reach, kept₄⟩, fun last same => ?_⟩
  split at same
  · cases same
  · rename_i nonempty
    cases same
    exact ⟨kept₄, by simpa using nonempty⟩

end Prediction

/-! ## Alternatives with their guards -/

/-- The property lasts when transitions ask for more. -/
def Network.Inherits (net : Network) (I : Nat → Guard → Prop) : Prop :=
  ∀ n, ∀ t ∈ net.out n, ∀ q, t.label.guard? = some q → ∀ a g, I a g → I a (g.and q)

/-- Without predicates every property lasts. -/
theorem Network.Unguarded.inherits {net : Network} (unguarded : net.Unguarded) (I : Nat → Guard → Prop) :
    net.Inherits I := by
  intro n t member q asks
  obtain ⟨noPredicate, noPrecedence⟩ := unguarded n t member
  unfold Label.guard? at asks
  split at asks
  · rename_i same
    exact absurd same (noPredicate _ _ _)
  · rename_i same
    exact absurd same (noPrecedence _)
  · cases asks

namespace ConfigSet

variable {I : Nat → Guard → Prop} {s : ConfigSet} {c : Config} {memo : Context.Memo} {full : Bool}

/-- Every configuration has the property, and so has a guard for which the set is marked. -/
structure Within (I : Nat → Guard → Prop) (s : ConfigSet) : Prop where
  configs : ∀ c ∈ s.configs, I c.alt c.guard
  marked : s.hasGuards = true → ∃ a g, I a g ∧ g.isAlways = false

theorem within_ofParser (full : Bool) : (ofParser full).Within I :=
  ⟨fun c member => by simp [ofParser] at member, nofun⟩

/-- What is known of each configuration alone does not depend on the marks of the set. -/
theorem Within.reflag {s' : ConfigSet} (within : s.Within I) (configs : s'.configs = s.configs)
    (marks : s'.hasGuards = s.hasGuards) : s'.Within I :=
  ⟨fun c member => within.configs c (configs ▸ member), fun marked => within.marked (marks ▸ marked)⟩

theorem Within.note (within : s.Within I) (holds : I c.alt c.guard) : (s.note c).Within I := by
  refine ⟨within.configs, fun marked => ?_⟩
  rcases Bool.or_eq_true_iff.1 marked with old | new
  · exact within.marked old
  · exact ⟨c.alt, c.guard, holds, by simpa using new⟩

theorem Within.insertMemo (within : s.Within I) (holds : I c.alt c.guard) :
    (s.insertMemo c memo).1.Within I := by
  have noted := within.note holds
  have pushed {s' : ConfigSet} (within : s'.Within I) (arrivals : Array Config) :
      ({ s' with configs := s'.configs.push c, arrivals } : ConfigSet).Within I :=
    ⟨fun d member => (Array.mem_push.1 member).elim (within.configs d) (· ▸ holds), within.marked⟩
  unfold ConfigSet.insertMemo
  dsimp only
  split
  · unfold insertOrdered
    split
    · exact noted
    · exact pushed noted _
  · split
    · rename_i i found
      obtain ⟨inside, -, -⟩ := Array.findIdx?_eq_some_iff_getElem.1 found
      refine ⟨fun d member => ?_, noted.marked⟩
      rcases (mem_absorbAt inside).1 member with rfl | ⟨j, bound, -, rfl⟩
      · exact noted.configs (s.note c).configs[i] (Array.getElem_mem inside)
      · exact noted.configs _ (Array.getElem_mem bound)
    · exact pushed noted _

end ConfigSet

namespace Prediction

variable {η : Type} {env : Env η} {full : Bool}

/-- Inherited properties are upheld. -/
theorem upholds_within {I : Nat → Guard → Prop} (inherits : env.net.Inherits I) :
    Upholds env full (fun c => I c.alt c.guard) (fun c => I c.alt c.guard) fun s _ => s.Within I where
  empty _ := ConfigSet.within_ofParser full
  emptied _ := ConfigSet.within_ofParser _
  insert within holds := within.insertMemo holds
  share _ within := within
  asked _ within := within
  resolved _ within := within
  dips within := within.reflag rfl rfl
  mem within member := within.configs _ member
  opened holds := holds
  rested holds _ := holds
  carried holds _ _ _ := holds
  moved holds _ _ _ := holds
  called holds _ _ _ := holds
  guarded _ holds member asks := inherits _ _ member _ asks _ _ holds
  left _ _ holds := holds
  returned holds _ _ := holds
  ended holds _ _ := holds

/-! ## Contexts and remembered merges -/

/-- Well-formed contexts are upheld, and so are remembered merges that are right. -/
theorem upholds_formed : Upholds env full Reference.Fine Reference.Fine fun s (scratch : Scratch η) =>
    s.Formed full ∧ scratch.merges.Faithful (!full) where
  empty kept := ⟨ConfigSet.formed_ofParser full, kept.2⟩
  emptied kept := ⟨kept.1.fullContext ▸ ConfigSet.formed_ofParser _, kept.2⟩
  insert kept fine := by
    obtain ⟨inserted, faithful, formed⟩ := Reference.insertMemo_eq kept.1 fine kept.2
    exact ⟨inserted ▸ formed, faithful⟩
  share context kept := ⟨kept.1, kept.2.share context⟩
  asked _ kept := kept
  resolved _ kept := kept
  dips kept := ⟨⟨kept.1.ordered, kept.1.fullContext, kept.1.contexts⟩, kept.2⟩
  mem kept member := kept.1.contexts _ member
  opened fine := fine
  rested fine _ := fine
  carried fine _ _ _ := fine
  moved fine _ _ _ := fine
  called fine _ _ _ := ⟨fine.1.push fine.2 _, nofun⟩
  guarded _ fine _ _ := fine
  left _ _ fine := fine
  returned fine _ member := by
    obtain ⟨formed, absent⟩ := fine.1.of_mem member
    have present := mt absent.2 (Option.some_ne_none _)
    rw [if_neg present]
    exact ⟨formed, present⟩
  ended _ _ _ := ⟨Context.wellFormed_empty, Context.empty_ne_nil⟩

end Prediction

end AdaptiveLL
