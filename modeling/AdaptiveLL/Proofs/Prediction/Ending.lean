import AdaptiveLL.Proofs.Network.AtEnd
import AdaptiveLL.Proofs.Prediction.Inheritance
import Mathlib.Order.Filter.AtTopBot.Basic
import Mathlib.Data.Set.Card

/-!
# Closures end

A closure runs on fuel. That it ends says that some amount of fuel is enough and that more changes nothing
(`Settles`), so what comes behind it starts from one and the same state.

A closure follows two kinds of edges. Along transitions that consume nothing, into rules and back to their
callers it takes turns without noting anything (`Turn`); these end by themselves where no rule comes back to its
start and nothing runs in circles within a rule (`wellFounded_turn`). Where it leaves the rule of the decision or
passes the end of the input it notes the configuration that it comes to and stops at one that it knows. So it ends
if there are only finitely many to note (`Grounds`, `closure_settles`).
-/

set_option autoImplicit false

namespace AdaptiveLL

open Network Filter

/-! ## Enough fuel -/

/-- With enough fuel the computation ends, always in the same way, and its result and its state satisfy `Q`. -/
def Settles {σ α : Type} (x : Nat → StateT σ Option α) (s : σ) (Q : α → σ → Prop) : Prop :=
  ∃ a s', (∀ᶠ fuel in atTop, (x fuel).run s = some (a, s')) ∧ Q a s'

namespace Settles

variable {σ α β : Type} {s : σ} {x y : Nat → StateT σ Option α} {P Q : α → σ → Prop}

theorem of_yields {x : StateT σ Option α} (yields : Yields x s Q) : Settles (fun _ => x) s Q := by
  obtain ⟨a, s', ran, holds⟩ := yields
  exact ⟨a, s', .of_forall fun _ => ran, holds⟩

theorem get_bind {f : Nat → σ → StateT σ Option α} (rest : Settles (fun fuel => f fuel s) s Q) :
    Settles (fun fuel => get >>= f fuel) s Q := rest

theorem set_bind {s' : σ} {f : Nat → PUnit → StateT σ Option α} (rest : Settles (fun fuel => f fuel ⟨⟩) s' Q) :
    Settles (fun fuel => set s' >>= f fuel) s Q := rest

theorem modify_bind {next : σ → σ} {f : Nat → PUnit → StateT σ Option α}
    (rest : Settles (fun fuel => f fuel ⟨⟩) (next s) Q) : Settles (fun fuel => modify next >>= f fuel) s Q := rest

theorem pure {a : α} (holds : Q a s) : Settles (fun _ => Pure.pure a) s Q := .of_yields (.pure holds)

theorem bind {f : Nat → α → StateT σ Option β} {Q : β → σ → Prop} (first : Settles x s P)
    (second : ∀ a s', P a s' → Settles (fun fuel => f fuel a) s' Q) : Settles (fun fuel => x fuel >>= f fuel) s Q := by
  obtain ⟨a, s', ran, holds⟩ := first
  obtain ⟨b, s'', ran', holds'⟩ := second a s' holds
  refine ⟨b, s'', ?_, holds'⟩
  filter_upwards [ran, ran'] with fuel here there
  rw [StateT.run_bind, here]
  exact there

theorem imp (settles : Settles x s P) (imp : ∀ a s', P a s' → Q a s') : Settles x s Q := by
  obtain ⟨a, s', ran, holds⟩ := settles
  exact ⟨a, s', ran, imp a s' holds⟩

theorem ite {q : Prop} {dec : Nat → Decidable q} (yes : q → Settles x s Q) (no : ¬ q → Settles y s Q) :
    Settles (fun fuel => @ite _ q (dec fuel) (x fuel) (y fuel)) s Q := by
  by_cases holds : q
  · simpa only [if_pos holds] using yes holds
  · simpa only [if_neg holds] using no holds

/-- Only large amounts of fuel count. -/
theorem congr (settles : Settles y s Q) (same : ∀ᶠ fuel in atTop, x fuel = y fuel) : Settles x s Q := by
  obtain ⟨a, s', ran, holds⟩ := settles
  refine ⟨a, s', ?_, holds⟩
  filter_upwards [ran, same] with fuel ran same
  rw [same, ran]

/-- What ends satisfies whatever holds whenever it ends. -/
theorem and (settles : Settles x s P) (leaves : ∀ fuel, Leaves (x fuel) s Q) :
    Settles x s fun a s' => P a s' ∧ Q a s' := by
  obtain ⟨a, s', ran, holds⟩ := settles
  obtain ⟨fuel, here⟩ := ran.exists
  exact ⟨a, s', ran, holds, leaves fuel a s' here⟩

theorem forM {ι : Type} {f : Nat → ι → StateT σ Option PUnit} {R : σ → σ → Prop} (refl : ∀ s, R s s)
    (trans : ∀ {s s' s''}, R s s' → R s' s'' → R s s'') {l : List ι} {s : σ}
    (each : ∀ i ∈ l, ∀ s', R s s' → Settles (fun fuel => f fuel i) s' fun _ s'' => R s' s'') :
    Settles (fun fuel => l.forM (f fuel)) s fun _ s' => R s s' := by
  induction l generalizing s with
  | nil => exact .pure (refl s)
  | cons i rest ih =>
    refine (each i List.mem_cons_self s (refl s)).bind fun _ s₁ first => ?_
    refine (ih fun k member s' later => ?_).imp fun _ s₂ second => trans first second
    exact each k (List.mem_cons_of_mem _ member) s' (trans first later)

theorem foldlM {ι : Type} {f : Nat → α → ι → StateT σ Option α} {l : List ι}
    (each : ∀ i ∈ l, ∀ a s, Settles (fun fuel => f fuel a i) s fun _ _ => True) (a : α) (s : σ) :
    Settles (fun fuel => l.foldlM (f fuel) a) s fun _ _ => True := by
  induction l generalizing a s with
  | nil => exact .pure trivial
  | cons i rest ih =>
    simp only [List.foldlM_cons]
    exact (each i List.mem_cons_self a s).bind fun b s' _ =>
      ih (fun k member => each k (List.mem_cons_of_mem _ member)) b s'

end Settles

/-! ## Turns -/

/-- What a return leaves of a context: nothing is the bottom of the stack. -/
def Context.ground (c : Context) : Context := if c = .nil then .empty else c

namespace Network

variable {net : Network} {n m : Nat} {k parent : Context}

/-- Where a closure goes on from a state with a context, without noting what it comes to. -/
inductive Turn (net : Network) : Nat × Context → Nat × Context → Prop
  | free {n m : Nat} {k : Context} (inner : net.isStop n = false) (move : .free m ∈ net.moves n) :
    Turn net (n, k) (m, k)
  | call {n r start follow : Nat} {k : Context} (inner : net.isStop n = false)
    (move : .call r start follow ∈ net.moves n) : Turn net (n, k) (start, k.push follow)
  | back {n m : Nat} {k parent : Context} (stop : net.isStop n = true) (member : (some m, parent) ∈ k.entries) :
    Turn net (n, k) (m, parent.ground)

/-- Turns end if, whenever the rule can be left, they end behind all its callers. -/
theorem acc_turn_of_returns (wf : WellFounded fun m n => net.Silent n m) (n : Nat) : ∀ k : Context,
    (net.Passes n → ∀ m parent, (some m, parent) ∈ k.entries → Acc (fun b a => net.Turn a b) (m, parent.ground)) →
    Acc (fun b a => net.Turn a b) (n, k) := by
  induction n using wf.induction with
  | h n ih =>
    intro k returns
    refine Acc.intro _ fun θ turn => ?_
    cases turn with
    | free inner move =>
      exact ih _ (.glide (.free inner move)) k fun passes => returns (.free inner move passes)
    | @call _ r start follow _ inner move =>
      refine ih start (.enter inner move) _ fun through m parent member => ?_
      obtain ⟨rfl, rfl⟩ : m = follow ∧ parent = k := by simpa [Context.push, Context.entries] using member
      -- The called rule can be passed over, so what follows it is reached silently as well.
      refine ih m (.glide (.skip inner move through)) _ fun passes m' parent' member' => ?_
      unfold Context.ground at member'
      split at member'
      · simp [Context.empty, Context.entries] at member'
      · exact returns (.call inner move through passes) m' parent' member'
    | back stop member => exact returns (.stop stop) _ _ member

theorem wellFounded_turn (wf : WellFounded fun m n => net.Silent n m) : WellFounded fun b a => net.Turn a b := by
  have bottom (n : Nat) : Acc (fun b a => net.Turn a b) (n, .empty) :=
    acc_turn_of_returns wf n _ fun _ m parent member => by simp [Context.empty, Context.entries] at member
  have under {k : Context} (acc : ∀ n, Acc (fun b a => net.Turn a b) (n, k)) (n : Nat) :
      Acc (fun b a => net.Turn a b) (n, k.ground) := by
    unfold Context.ground
    split
    · exact bottom n
    · exact acc n
  have all (k : Context) : (∀ n, Acc (fun b a => net.Turn a b) (n, k)) ∧
      ∀ ret parent, (ret, parent) ∈ k.entries → ∀ n, Acc (fun b a => net.Turn a b) (n, parent.ground) := by
    induction k with
    | nil =>
      have bare ret parent : (ret, parent) ∉ Context.nil.entries := List.not_mem_nil
      exact ⟨fun n => acc_turn_of_returns wf n _ fun _ _ _ member => absurd member (bare _ _),
        fun ret parent member => absurd member (bare ret parent)⟩
    | cons ret p rest ihParent ihRest =>
      have behind : ∀ ret' parent, (ret', parent) ∈ (Context.cons ret p rest).entries →
          ∀ n, Acc (fun b a => net.Turn a b) (n, parent.ground) := by
        intro ret' parent member
        rcases List.mem_cons.1 member with same | later
        · cases same
          exact under ihParent.1
        · exact ihRest.2 ret' parent later
      exact ⟨fun n => acc_turn_of_returns wf n _ fun _ m parent member => behind _ parent member m, behind⟩
  exact ⟨fun place => (all place.2).1 place.1⟩

end Network

namespace Prediction

variable {η : Type} {env : Env η} {net : Network} {p : Purpose} {V : Config → Prop} {may collect : Bool}
  {w w' : Work η} {c : Config} {t : Transition} {depth : Int} {delay most : Nat}

/-- The same simulation with other fuel. -/
def Env.fueled (env : Env η) (fuel : Nat) : Env η := { env with fuel }

@[simp]
theorem net_fueled (env : Env η) (fuel : Nat) : (env.fueled fuel).net = env.net := rfl

@[simp]
theorem decision_fueled (env : Env η) (fuel : Nat) : (env.fueled fuel).decision = env.decision := rfl

@[simp]
theorem evaluator_fueled (env : Env η) (fuel : Nat) : (env.fueled fuel).evaluator = env.evaluator := rfl

@[simp]
theorem returnsOutermost_fueled (env : Env η) (fuel : Nat) (t : Transition) :
    returnsOutermost (env.fueled fuel) t = returnsOutermost env t := rfl

/-- At the end of a rule the closure follows the transitions only if the bottom of the stack is among the
entries. -/
def Bottomed (net : Network) (c : Config) : Prop :=
  net.isStop c.state = true → ∃ parent, (none, parent) ∈ c.context.entries

/-- The configurations that a closure may come to. Finitely many of them differ in more than the depth outside the
rule, and predicates are collected only if they may be. -/
structure Grounds (net : Network) (may : Bool) (V : Config → Prop) : Prop where
  finite : (Config.identity '' {c | V c}).Finite
  followed : ∀ {c t}, V c → t ∈ net.out c.state → Bottomed net c → t.label.isEpsilon = true ∨ t.takesEnd = true →
    V (follow c t)
  guarded : ∀ {c t q}, may = true → V c → t ∈ net.out c.state → Bottomed net c → t.label.guard? = some q →
    V (c.withGuard t.target (c.guard.and q))
  left : ∀ {c} suppressed depth, V c → V { c with filterSuppressed := suppressed, outerDepth := depth }
  returned : ∀ {c n parent}, V c → net.isStop c.state = true → (some n, parent) ∈ c.context.entries →
    V (c.returningTo n parent.ground)

/-- What a closure could still note. -/
def unnoted (V : Config → Prop) (w : Work η) : Set Config := (Config.identity '' {c | V c}) \ {d | d ∈ w.busy}

/-- Everything that was noted still is. -/
def Keeps (w w' : Work η) : Prop := ∀ d ∈ w.busy, d ∈ w'.busy

theorem Keeps.refl (w : Work η) : Keeps w w := fun _ => id

theorem Keeps.trans {w'' : Work η} (first : Keeps w w') (second : Keeps w' w'') : Keeps w w'' :=
  fun d noted => second d (first d noted)

theorem Keeps.unnoted_le (keeps : Keeps w w') (grounds : Grounds net may V) :
    (unnoted V w').ncard ≤ (unnoted V w).ncard :=
  Set.ncard_le_ncard (fun _ known => ⟨known.1, fun noted => known.2 (keeps _ noted)⟩) grounds.finite.sdiff

/-- A configuration is noted. If it is new there is less left to note. -/
theorem isNew_yields (grounds : Grounds net may V) (inside : V c) : Yields (isNew c) w fun new w' =>
    Keeps w w' ∧ (new = true → (unnoted V w').ncard < (unnoted V w).ncard) := by
  refine ⟨_, _, rfl, fun d noted => Std.HashSet.mem_insert.2 (.inr noted), fun new => ?_⟩
  have absent : c.identity ∉ w.busy := by simpa using new
  refine Set.ncard_lt_ncard ⟨fun d known => ⟨known.1, fun noted => known.2 ?_⟩, fun back => ?_⟩ grounds.finite.sdiff
  · exact Std.HashSet.mem_insert.2 (.inr noted)
  · have still : c.identity ∈ unnoted V w := ⟨⟨c, inside, rfl⟩, absent⟩
    exact (back still).2 (Std.HashSet.mem_insert.2 (.inl (beq_self_eq_true _)))

theorem passPredicate_yields (target : Nat) (g : Guard) : Yields (passPredicate env p c target g collect) w
    fun result w' => w'.busy = w.busy ∧ ∀ next, result = some next →
      next = c.withState target ∨ (collect = true ∧ next = c.withGuard target (c.guard.and g)) := by
  unfold passPredicate
  cases collect with
  | false => exact .pure ⟨rfl, fun next same => .inl (Option.some.inj same).symm⟩
  | true =>
    rw [if_neg (by simp)]
    split
    · refine .get_bind ⟨_, _, rfl, rfl, fun next same => ?_⟩
      split at same
      · exact .inl (Option.some.inj same).symm
      · cases same
    · exact .pure ⟨rfl, fun next same => .inr ⟨rfl, (Option.some.inj same).symm⟩⟩

/-- Where a transition leads, if it leads anywhere, a closure may go. -/
theorem epsilonTarget_yields (grounds : Grounds net may V) (inside : V c) (member : t ∈ net.out c.state)
    (bottomed : Bottomed net c) (collects : collect = true → may = true) (inRule : Bool) :
    Yields (epsilonTarget env p c t collect inRule) w fun result w' => w'.busy = w.busy ∧
      ∀ next, result = some next → V next ∧ next.state = (follow c t).state ∧ next.context = (follow c t).context := by
  have moved (free : t.label.isEpsilon = true ∨ t.takesEnd = true) :
      ∀ next, some (follow c t) = some next →
        V next ∧ next.state = (follow c t).state ∧ next.context = (follow c t).context := by
    intro next same
    cases same
    exact ⟨grounds.followed inside member bottomed free, rfl, rfl⟩
  have asked {q : Guard} {b : Bool} (asks : t.label.guard? = some q) (same : follow c t = c.withState t.target)
      (free : t.label.isEpsilon = true) (collects : b = true → may = true) :
      Yields (passPredicate env p c t.target q b) w fun result w' => w'.busy = w.busy ∧ ∀ next, result = some next →
        V next ∧ next.state = (follow c t).state ∧ next.context = (follow c t).context := by
    refine (passPredicate_yields t.target q).imp fun result w' known => ⟨known.1, fun next found => ?_⟩
    rw [same]
    rcases known.2 next found with rfl | ⟨yes, rfl⟩
    · exact ⟨same ▸ grounds.followed inside member bottomed (.inl free), rfl, rfl⟩
    · exact ⟨grounds.guarded (collects yes) inside member bottomed asks, rfl, rfl⟩
  have silent (label : t.label.isEpsilon = true) (same : follow c t = c.withState t.target) :
      Yields (pure (some (c.withState t.target)) : WorkM η (Option Config)) w fun result w' => w'.busy = w.busy ∧
        ∀ next, result = some next → V next ∧ next.state = (follow c t).state ∧ next.context = (follow c t).context :=
    .pure ⟨rfl, same ▸ moved (.inl label)⟩
  have atEnd (label : t.takesEnd = true → follow c t = c.withState t.target) :
      Yields (pure (if p.atEof && t.label.accepts endOfInput 0 1 then some (c.withState t.target) else none) :
        WorkM η (Option Config)) w fun result w' => w'.busy = w.busy ∧ ∀ next, result = some next →
          V next ∧ next.state = (follow c t).state ∧ next.context = (follow c t).context := by
    refine .pure ⟨rfl, fun next same => ?_⟩
    split at same
    · rename_i takes
      have takes : t.takesEnd = true := (Bool.and_eq_true_iff.1 takes).2
      rw [← label takes] at same
      exact moved (.inr takes) next same
    · cases same
  obtain ⟨target, label⟩ := t
  cases label with
  | rule r q ret =>
    refine ⟨_, _, rfl, rfl, fun next same => ?_⟩
    cases same
    have shared : c.withContext target (w.scratch.merges.share (c.context.push ret)).1 =
        follow c ⟨target, .rule r q ret⟩ := congrArg (c.withContext target) (Context.Memo.share_fst _ _)
    exact ⟨(congrArg V shared).mpr (moved (.inl rfl) _ rfl).1, congrArg Config.state shared,
      congrArg Config.context shared⟩
  | precedence n => exact asked rfl rfl rfl fun yes => collects (Bool.and_eq_true_iff.1 yes).1
  | predicate r q ctx => exact asked rfl rfl rfl fun yes => collects (Bool.and_eq_true_iff.1 yes).1
  | action | epsilon => exact silent rfl rfl
  | atom | range | set => exact atEnd fun _ => rfl
  | notSet | wildcard =>
    refine .pure ⟨rfl, fun next same => ?_⟩
    cases same

/-- The closure of every such configuration at a state with a context ends, if not more than so much is left to
note. -/
def ClosureEnds (env : Env η) (p : Purpose) (may : Bool) (V : Config → Prop) (most : Nat) (θ : Nat × Context) : Prop :=
  ∀ (c : Config) (collect : Bool) (depth : Int) (w : Work η) (delay : Nat), (c.state, c.context) = θ → V c →
    (collect = true → may = true) → (unnoted V w).ncard ≤ most →
    Settles (fun fuel => closure (env.fueled fuel) p (fuel - delay) c collect depth) w fun _ w' => Keeps w w'

theorem turn_follow (inner : net.isStop c.state = false) (member : t ∈ net.out c.state)
    (free : t.label.isEpsilon = true) : net.Turn (c.state, c.context) ((follow c t).state, (follow c t).context) := by
  have move : t.move ∈ net.moves c.state := List.mem_map_of_mem member
  obtain ⟨target, label⟩ := t
  cases label with
  | rule r q ret => exact .call inner move
  | epsilon | predicate | action | precedence => exact .free inner move
  | _ => cases free

theorem passEdge_settles (grounds : Grounds env.net may V) (inside : V c) (member : t ∈ env.net.out c.state)
    (bottomed : Bottomed env.net c) (collects : collect = true → may = true) (few : (unnoted V w).ncard ≤ most)
    (turns : ∀ θ, env.net.Turn (c.state, c.context) θ → ClosureEnds env p may V most θ)
    (less : ∀ k < most, ∀ θ, ClosureEnds env p may V k θ) :
    Settles (fun fuel => passEdge (env.fueled fuel) p (fuel - delay) c collect depth t) w fun _ w' => Keeps w w' := by
  have collects' : (!isAction t.label && collect) = true → may = true :=
    fun yes => collects (Bool.and_eq_true_iff.1 yes).2
  refine (Settles.of_yields (epsilonTarget_yields (p := p) (w := w) grounds inside member bottomed
    collects' (depth == 0))).bind fun result w₁ found => ?_
  obtain ⟨busy, leads⟩ := found
  have kept₁ : Keeps w w₁ := fun d noted => busy ▸ noted
  have few₁ : (unnoted V w₁).ncard ≤ most := Nat.le_trans (kept₁.unnoted_le grounds) few
  -- Behind a note there is less left to note.
  have behind (next : Config) (further : V next) (depth' : Int) (w₂ : Work η) (fewer : (unnoted V w₂).ncard < most) :
      Settles (fun fuel => closure (env.fueled fuel) p (fuel - delay) next (!isAction t.label && collect) depth') w₂
        fun _ w₃ => Keeps w₂ w₃ :=
    less _ fewer _ next _ depth' w₂ delay rfl further collects' (Nat.le_refl _)
  have noting (next : Config) (further : V next) (rest : Nat → WorkM η PUnit)
      (ends : ∀ w₂, (unnoted V w₂).ncard < most → Settles rest w₂ fun _ w₃ => Keeps w₂ w₃) :
      Settles (fun fuel => (do if ← isNew next then rest fuel : WorkM η PUnit)) w₁ fun _ w' => Keeps w w' := by
    refine (Settles.of_yields (isNew_yields grounds further)).bind fun new w₂ noted => ?_
    cases new with
    | false => exact .pure (kept₁.trans noted.1)
    | true =>
      exact (ends w₂ (Nat.lt_of_lt_of_le (noted.2 rfl) few₁)).imp fun _ w₃ kept₃ =>
        (kept₁.trans noted.1).trans kept₃
  cases result with
  | none => exact .pure kept₁
  | some next =>
    obtain ⟨further, state, context⟩ := leads next rfl
    cases isStop : env.net.isStop c.state with
    | true =>
      simp only [net_fueled, returnsOutermost_fueled, show (env.net.state c.state).kind.isRuleStop = true from isStop,
        if_true]
      refine noting _ (grounds.left _ _ further) _ fun w₂ fewer => ?_
      exact .modify_bind (behind _ (grounds.left _ _ further) (depth - 1)
        { w₂ with configs := { w₂.configs with dipsIntoOuter := true } } fewer)
    | false =>
      simp only [net_fueled, show (env.net.state c.state).kind.isRuleStop = false from isStop, Bool.false_eq_true,
        if_false]
      cases free : t.label.isEpsilon with
      | true =>
        simp only [if_true]
        refine (turns (next.state, next.context) ?_ next _ _ w₁ delay rfl further collects' few₁).imp
          fun _ w₂ kept₂ => kept₁.trans kept₂
        rw [state, context]
        exact turn_follow isStop member free
      | false =>
        simp only [Bool.false_eq_true, if_false]
        exact noting next further _ (behind next further depth)

theorem addConfig_yields : Yields (addConfig c) w fun _ w' => Keeps w w' := ⟨_, _, rfl, .refl w⟩

theorem sub_eq_succ (delay : Nat) : ∀ᶠ fuel in atTop, fuel - delay = fuel - (delay + 1) + 1 := by
  filter_upwards [eventually_gt_atTop delay] with fuel more
  omega

/-- What a closure does with a configuration from which it follows the transitions ends if it ends behind each of
them. -/
theorem closureStep_settles (grounds : Grounds env.net may V) (inside : V c) (bottomed : Bottomed env.net c)
    (collects : collect = true → may = true) (few : (unnoted V w).ncard ≤ most)
    (turns : ∀ θ, env.net.Turn (c.state, c.context) θ → ClosureEnds env p may V most θ)
    (less : ∀ k < most, ∀ θ, ClosureEnds env p may V k θ) :
    Settles (fun fuel => closureStep (env.fueled fuel) p (fuel - delay) c collect depth) w fun _ w' => Keeps w w' := by
  have edges {w : Work η} (few : (unnoted V w).ncard ≤ most) :
      Settles (fun fuel => (env.net.out c.state).forM
        (passEdge (env.fueled fuel) p (fuel - (delay + 1)) c collect depth)) w fun _ w' => Keeps w w' :=
    .forM .refl .trans fun t member w' kept => passEdge_settles grounds inside member bottomed collects
      (Nat.le_trans (kept.unnoted_le grounds) few) turns less
  refine Settles.congr (y := fun fuel => closureStep (env.fueled fuel) p (fuel - (delay + 1) + 1) c collect depth) ?_ ?_
  · simp only [closureStep_succ, net_fueled]
    rcases Bool.eq_false_or_eq_true (env.net.state c.state).epsilonOnly with rests | rests
    · simp only [rests, Bool.not_true, Bool.false_eq_true, if_false]
      exact edges few
    · simp only [rests, Bool.not_false, if_true]
      refine (Settles.of_yields addConfig_yields).bind fun _ w₁ kept => ?_
      exact (edges (Nat.le_trans (kept.unnoted_le grounds) few)).imp fun _ _ => kept.trans
  · exact (sub_eq_succ delay).mono fun fuel same => by rw [same]

/-- A closure ends: it takes turns that end by themselves, and there is not more to note than so much. -/
theorem closure_ends (wf : WellFounded fun b a => env.net.Turn a b) (grounds : Grounds env.net may V) (most : Nat)
    (θ : Nat × Context) : ClosureEnds env p may V most θ := by
  induction most using Nat.strongRecOn generalizing θ with
  | ind most less =>
  induction θ using wf.induction with
  | h θ turns =>
  intro c collect depth w delay here inside collects few
  subst here
  have steps (bottomed : Bottomed env.net c) {w : Work η} (few : (unnoted V w).ncard ≤ most) :
      Settles (fun fuel => closureStep (env.fueled fuel) p (fuel - (delay + 1)) c collect depth) w fun _ w' =>
        Keeps w w' :=
    closureStep_settles grounds inside bottomed collects few turns less
  refine Settles.congr (y := fun fuel => closure (env.fueled fuel) p (fuel - (delay + 1) + 1) c collect depth) ?_ ?_
  · simp only [closure, net_fueled]
    cases isStop : env.net.isStop c.state with
    | false =>
      simp only [show (env.net.state c.state).kind.isRuleStop = false from isStop, Bool.false_eq_true, if_false]
      exact steps (fun isEnd => absurd (isStop.symm.trans isEnd) Bool.false_ne_true) few
    | true =>
      simp only [show (env.net.state c.state).kind.isRuleStop = true from isStop, if_true]
      -- At the bottom of the stack the closure ends with full context, and leaves the rule with local context.
      have atBottom {parent : Context} (member : (none, parent) ∈ c.context.entries) (d : Config) {w : Work η}
          (few : (unnoted V w).ncard ≤ most) :
          Settles (fun fuel => if p.fullContext then addConfig d
            else closureStep (env.fueled fuel) p (fuel - (delay + 1)) c collect depth) w fun _ w' => Keeps w w' := by
        cases p.fullContext with
        | true => exact .of_yields addConfig_yields
        | false => exact steps (fun _ => ⟨parent, member⟩) few
      cases bottom : c.context.isEmpty with
      | false =>
        refine .forM .refl .trans fun entry member w' kept => ?_
        have few' := Nat.le_trans (kept.unnoted_le grounds) few
        obtain ⟨_ | n, parent⟩ := entry
        · exact atBottom member _ few'
        · exact turns (n, parent.ground) (.back isStop member) _ _ _ w' (delay + 1) rfl
            (grounds.returned inside isStop member) collects few'
      | true =>
        obtain ⟨parent, entries⟩ := entries_of_isEmpty bottom
        exact atBottom (entries ▸ List.mem_singleton_self _) c few
  · exact (sub_eq_succ delay).mono fun fuel same => by rw [same]

/-- With finitely many configurations to note, the closures of configurations among them end. -/
theorem closureOf_settles (wf : WellFounded fun b a => env.net.Turn a b) (grounds : Grounds env.net may V)
    (collects : collect = true → may = true) {cs : List Config} (inside : ∀ c ∈ cs, V c) (s : ConfigSet)
    (scratch : Scratch η) :
    Settles (fun fuel => closureOf (env.fueled fuel) p collect s cs) scratch fun _ _ => True := by
  have all : Settles (fun fuel => cs.forM fun c => closure (env.fueled fuel) p fuel c collect 0)
      ({ configs := s, scratch } : Work η) fun _ w' => Keeps { configs := s, scratch } w' :=
    .forM .refl .trans fun c member w kept =>
      closure_ends wf grounds (unnoted V w).ncard _ c collect 0 w 0 rfl (inside c member) collects (Nat.le_refl _)
  obtain ⟨⟨⟩, w', ran, -⟩ := all
  refine ⟨w'.configs, w'.scratch, ?_, trivial⟩
  filter_upwards [ran] with fuel ran
  exact Option.bind_eq_some_iff.2 ⟨_, Option.bind_eq_some_iff.2 ⟨_, ran, rfl⟩, rfl⟩

end Prediction

end AdaptiveLL
