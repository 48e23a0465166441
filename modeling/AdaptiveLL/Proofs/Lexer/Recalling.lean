import AdaptiveLL.Proofs.Lexer.Keeping
import AdaptiveLL.Proofs.Lexer.Learning

/-!
# Matches that recall

A match that looks into its cache finds there what the network would give, as long as every recorded
edge that it follows can be trusted at its place; then it ends as the match without a memory does
(`matchToken_leaves`). An edge by which no custom action is pinned can always be trusted
(`trusts_of_settled`).
-/

set_option autoImplicit false

namespace AdaptiveLL

open Network

/-! ## Computations that may fail -/

/-- If the computation succeeds, its result and its state satisfy `Q`. -/
def Leaves {σ α : Type} (x : StateT σ Option α) (s : σ) (Q : α → σ → Prop) : Prop :=
  ∀ a s', x.run s = some (a, s') → Q a s'

namespace Leaves

variable {σ α β : Type} {s : σ}

theorem pure {a : α} {Q : α → σ → Prop} (holds : Q a s) : Leaves (pure a) s Q := by
  intro b s' run
  cases run
  exact holds

theorem bind {x : StateT σ Option α} {f : α → StateT σ Option β} {P : α → σ → Prop}
    {Q : β → σ → Prop} (first : Leaves x s P) (second : ∀ a s', P a s' → Leaves (f a) s' Q) :
    Leaves (x >>= f) s Q := by
  intro b s'' run
  rw [StateT.run_bind] at run
  obtain ⟨⟨a, s'⟩, ran, run'⟩ := Option.bind_eq_some_iff.1 run
  exact second a s' (first a s' ran) b s'' run'

theorem imp {x : StateT σ Option α} {P Q : α → σ → Prop} (leaves : Leaves x s P)
    (imp : ∀ a s', P a s' → Q a s') : Leaves x s Q := fun a s' run => imp a s' (leaves a s' run)

theorem get_bind {f : σ → StateT σ Option α} {Q : α → σ → Prop} (rest : Leaves (f s) s Q) :
    Leaves (get >>= f) s Q := rest

theorem modify_bind {next : σ → σ} {f : PUnit → StateT σ Option α} {Q : α → σ → Prop}
    (rest : Leaves (f ⟨⟩) (next s) Q) : Leaves (modify next >>= f) s Q := rest

theorem set_bind {next : σ} {f : PUnit → StateT σ Option α} {Q : α → σ → Prop}
    (rest : Leaves (f ⟨⟩) next Q) : Leaves (set next >>= f) s Q := rest

theorem lift_bind {x : Option α} {f : α → StateT σ Option β} {Q : β → σ → Prop}
    (rest : ∀ a, x = some a → Leaves (f a) s Q) : Leaves (liftM x >>= f) s Q := by
  cases x with
  | none => exact fun b s' run => nomatch run
  | some a => exact rest a rfl

/-- What a computation that always succeeds yields is what it leaves. -/
theorem of_yields {x : StateT σ Option α} {Q : α → σ → Prop} (yields : Yields x s Q) :
    Leaves x s Q := by
  obtain ⟨a, s', run, holds⟩ := yields
  intro b t run'
  rw [run] at run'
  cases run'
  exact holds

end Leaves

namespace Lexer

variable {η : Type} {env : MatchEnv η} {m : Matcher η}

/-- The cache is still kept, and the automaton of the mode has only grown. -/
structure Keeps (env : MatchEnv η) (m m' : Matcher η) : Prop where
  kept : CacheKept env.net m'.cache
  extends' : Extends (m.cache.dfa env.mode) (m'.cache.dfa env.mode)

theorem Keeps.trans {m' m'' : Matcher η} (first : Keeps env m m') (second : Keeps env m' m'') :
    Keeps env m m'' :=
  ⟨second.kept, first.extends'.trans second.extends'⟩

/-- A step that leaves the cache alone. -/
theorem Keeps.of_eq {m' : Matcher η} (kept : CacheKept env.net m.cache) (same : m'.cache = m.cache) :
    Keeps env m m' := by
  refine ⟨by rwa [same], ?_⟩
  rw [same]
  exact Extends.refl _

/-! ## Registering and recording -/

theorem modifyDfa_keeps (kept : CacheKept env.net m.cache) (inside : env.mode < env.net.modeStarts.size)
    {f : Dfa → Dfa} (isKept : Kept env.net env.mode (f (m.cache.dfa env.mode)))
    (extends' : Extends (m.cache.dfa env.mode) (f (m.cache.dfa env.mode))) :
    Yields (modifyDfa env f) m fun _ m' => Keeps env m m' ∧ m'.sight = m.sight ∧
      m'.cache.dfa env.mode = f (m.cache.dfa env.mode) := by
  have bound : env.mode < m.cache.dfas.size := by rw [kept.size]; exact inside
  have here : (m.cache.modifyDfa env.mode f).dfa env.mode = f (m.cache.dfa env.mode) := by
    rw [dfa_modifyDfa bound, if_pos rfl]
  refine ⟨_, _, rfl, ⟨kept.change ?_ ?_ (here ▸ isKept), here ▸ extends'⟩, rfl, here⟩
  · simp [DfaCache.modifyDfa]
  · intro k other
    exact (dfa_modifyDfa bound f k).trans (if_neg other)

theorem register_keeps (kept : CacheKept env.net m.cache) (inside : env.mode < env.net.modeStarts.size)
    {configs : ConfigSet} (tracked : configs.Consists (Tracked env.net)) :
    Yields (register env configs) m fun n m' => Keeps env m m' ∧ m'.sight = m.sight ∧
      n < (m'.cache.dfa env.mode).states.size ∧
      ((m'.cache.dfa env.mode).state n).configs.configs = configs.configs := by
  have bound : env.mode < m.cache.dfas.size := by rw [kept.size]; exact inside
  obtain ⟨isKept, extends', registered, same⟩ :=
    (kept.kept env.mode inside).addState tracked m.cache.contexts
  let cache' := (m.cache.addState env.mode (stateOf env.net configs)).2
  have here : cache'.dfa env.mode =
      ((m.cache.dfa env.mode).addState (stateOf env.net configs) m.cache.contexts).2.1 := by
    rw [dfa_addState bound, if_pos rfl]
  rw [← here] at isKept extends' registered same
  refine ⟨_, { m with cache := cache' }, rfl, ⟨kept.change ?_ ?_ isKept, extends'⟩, rfl, registered,
    same⟩
  · exact Array.size_setIfInBounds
  · intro k other
    exact (dfa_addState bound _ k).trans (if_neg other)

theorem recordEdge_keeps (kept : CacheKept env.net m.cache)
    (inside : env.mode < env.net.modeStarts.size) {n : Nat} {symbol : Int} {e : DfaEdge}
    (registered : n < (m.cache.dfa env.mode).states.size)
    (isKept : EdgeKept env.net (m.cache.dfa env.mode) ((m.cache.dfa env.mode).state n).configs symbol e) :
    Yields (recordEdge env n symbol e) m fun _ m' => Keeps env m m' ∧ m'.sight = m.sight := by
  unfold recordEdge
  cases place : edgePlace? symbol with
  | none => exact Yields.pure ⟨Keeps.of_eq kept rfl, rfl⟩
  | some i =>
    rw [← edgePlace?_eq place] at isKept
    obtain ⟨kept', extends'⟩ := (kept.kept env.mode inside).setEdge registered isKept
    exact (modifyDfa_keeps kept inside kept' extends').imp fun _ _ ⟨keeps, sight, _⟩ => ⟨keeps, sight⟩

/-! ## The start -/

theorem certainStart_of_run {input : CharStream} {reached : Reached η}
    (run : startSet env input (env.net.modeStarts.getD env.mode 0) m.hooks = some reached)
    (unmarked : reached.configs.hasGuards = false) :
    reached.hooks = m.hooks ∧ CertainStart env.net env.mode reached.configs := by
  obtain ⟨hooks, again⟩ := startSet_replayed run unmarked
  exact ⟨hooks, env.fuel, again⟩

/-- Once its start set is found, the start of a match succeeds. -/
theorem startState_found (kept : CacheKept env.net m.cache)
    (inside : env.mode < env.net.modeStarts.size) {reached : Reached η}
    (run : startSet env m.input (env.net.modeStarts.getD env.mode 0) m.hooks = some reached) :
    Yields (startState env) m fun n m' => Keeps env m m' ∧
      n < (m'.cache.dfa env.mode).states.size ∧
      ((m'.cache.dfa env.mode).state n).configs.configs = reached.configs.configs ∧
      m'.sight = m.sight.asked reached.hooks := by
  unfold startState
  refine yields_dfa_bind ?_
  cases isStart : (m.cache.dfa env.mode).start with
  | some n =>
    obtain ⟨registered, s, certain, same⟩ := (kept.kept env.mode inside).start n isStart
    have recalled : Starts env m.sight s m.hooks := certain.starts m.sight
    have found : Starts env m.sight reached.configs reached.hooks := ⟨env.fuel, run⟩
    obtain ⟨rfl, hooks⟩ := recalled.unique found
    refine Yields.pure ⟨Keeps.of_eq kept rfl, registered, same, ?_⟩
    rw [← hooks]
    rfl
  | none =>
    refine Yields.get_bind ?_
    refine Yields.lift_bind run ?_
    let asked : Matcher η := { m with hooks := reached.hooks }
    refine Yields.modify_bind (?_ : Yields _ asked _)
    have keeps : Keeps env m asked := Keeps.of_eq kept rfl
    refine (register_keeps keeps.kept inside (startSet_tracked run)).bind
      fun n m' ⟨keeps', sight, registered, same⟩ => ?_
    cases marked : reached.configs.hasGuards with
    | true => exact Yields.pure ⟨keeps.trans keeps', registered, same, sight⟩
    | false =>
      simp only [Bool.false_eq_true, if_false]
      refine yields_dfa_bind ?_
      obtain ⟨-, certain⟩ := certainStart_of_run run marked
      obtain ⟨isKept, extends', isStart'⟩ :=
        (keeps'.kept.kept env.mode inside).setStart registered certain same
      refine (modifyDfa_keeps keeps'.kept inside isKept extends').bind
        fun _ m'' ⟨keeps'', sight', here⟩ => Yields.pure ⟨keeps.trans (keeps'.trans keeps''), ?_⟩
      obtain ⟨registered', s, certain', same'⟩ := isKept.start _ isStart'
      -- Both start sets are certain, so they are the same one.
      have same'' : s = reached.configs :=
        ((certain'.starts m.sight).unique (certain.starts m.sight)).1
      rw [here]
      exact ⟨registered', by rw [same', same''], sight'.trans sight⟩

/-- A start of a match gives the start set of the mode. -/
theorem startState_leaves (kept : CacheKept env.net m.cache)
    (inside : env.mode < env.net.modeStarts.size) :
    Leaves (startState env) m fun n m' => Keeps env m m' ∧
      n < (m'.cache.dfa env.mode).states.size ∧ ∃ s h, Starts env m.sight s h ∧
        ((m'.cache.dfa env.mode).state n).configs.configs = s.configs ∧
        m'.sight = m.sight.asked h := by
  intro n m' run
  cases isStart : (m.cache.dfa env.mode).start with
  | some k =>
    have recalled : (startState env).run m = some (k, m) := by
      unfold startState dfa
      simp [isStart]
    rw [recalled] at run
    cases run
    obtain ⟨registered, s, certain, same⟩ := (kept.kept env.mode inside).start _ isStart
    exact ⟨Keeps.of_eq kept rfl, registered, s, m.hooks, certain.starts m.sight, same, rfl⟩
  | none =>
    cases ran : startSet env m.input (env.net.modeStarts.getD env.mode 0) m.hooks with
    | none =>
      rw [Array.getD_eq_getD_getElem?] at ran
      unfold startState dfa at run
      simp [isStart, ran] at run
    | some reached =>
      obtain ⟨keeps, registered, same, sight⟩ :=
        Leaves.of_yields (startState_found kept inside ran) n m' run
      exact ⟨keeps, registered, reached.configs, reached.hooks, ⟨env.fuel, ran⟩, same, sight⟩

/-! ## The way a symbol leads -/

/-- The recorded edge that a match at this place follows, if there is one, leads where the network
does. -/
def Trusts (env : MatchEnv η) (m : Matcher η) (n : Nat) : Prop :=
  ∀ e, (edgePlace? (m.input.la 1)).bind ((m.cache.dfa env.mode).state n).edge? = some e →
    ∃ s, Reaches env m.sight ((m.cache.dfa env.mode).state n).configs s m.hooks ∧
      Answers (m.cache.dfa env.mode) s e

/-- What is recorded for a symbol by which no custom action is pinned can be trusted everywhere. -/
theorem trusts_of_settled (kept : CacheKept env.net m.cache)
    (inside : env.mode < env.net.modeStarts.size) {n : Nat}
    (registered : n < (m.cache.dfa env.mode).states.size)
    (settled : Settled env.net ((m.cache.dfa env.mode).state n).configs (m.input.la 1)) :
    Trusts env m n := by
  intro e hit
  obtain ⟨i, place, found⟩ := Option.bind_eq_some_iff.1 hit
  have isKept := (kept.kept env.mode inside).edges n registered i e found
  rw [edgePlace?_eq place] at isKept
  obtain ⟨s, certain, answers⟩ := isKept.certain settled
  exact ⟨s, Certain.reaches (v := m.sight) certain, answers⟩

theorem edgeKept_of_run {d : Dfa} {configs : ConfigSet} {symbol : Int} {reached : Reached η}
    {e : DfaEdge} (run : reachSet env m configs symbol = some reached)
    (unmarked : reached.configs.hasGuards = false) (answers : Answers d reached.configs e) :
    EdgeKept env.net d configs symbol e := by
  constructor
  · rintro k rfl
    exact answers.2.1
  · intro settled
    have pinned : ∀ c ∈ configs.configs, c.TakenBy env.net symbol → ∀ offset offset',
        pinActions offset c.actions = pinActions offset' c.actions := by
      intro c member taken offset offset'
      have notWaiting := settled c member taken
      rw [pinActions_of_not_waiting notWaiting, pinActions_of_not_waiting notWaiting]
    obtain ⟨-, again⟩ := reachSet_replayed run unmarked pinned
    exact ⟨reached.configs, ⟨env.fuel, again⟩, answers⟩

/-- Once the set behind the next symbol is found, the way that the symbol leads is found. -/
theorem computeTarget_found (kept : CacheKept env.net m.cache)
    (inside : env.mode < env.net.modeStarts.size) {n : Nat}
    (registered : n < (m.cache.dfa env.mode).states.size) {symbol : Int} {reached : Reached η}
    (run : reachSet env m ((m.cache.dfa env.mode).state n).configs symbol = some reached) :
    Yields (computeTarget env n symbol) m fun e m' => Keeps env m m' ∧
      Answers (m'.cache.dfa env.mode) reached.configs e ∧ m'.sight = m.sight.asked reached.hooks := by
  have tracked := reachSet_tracked ((kept.kept env.mode inside).states n registered).configs run
  unfold computeTarget
  refine Yields.get_bind ?_
  refine yields_dfa_bind ?_
  refine Yields.lift_bind run ?_
  let asked : Matcher η := { m with hooks := reached.hooks }
  refine Yields.modify_bind (?_ : Yields _ asked _)
  have keeps : Keeps env m asked := Keeps.of_eq kept rfl
  cases isEmpty : reached.configs.isEmpty with
  | true =>
    simp only [if_true]
    cases marked : reached.configs.hasGuards with
    | true => exact Yields.pure ⟨keeps, isEmpty, rfl⟩
    | false =>
      have isKept : EdgeKept env.net (asked.cache.dfa env.mode)
          ((m.cache.dfa env.mode).state n).configs symbol .dead := edgeKept_of_run run marked isEmpty
      exact (recordEdge_keeps keeps.kept inside registered isKept).bind fun _ m' ⟨keeps', sight⟩ =>
        Yields.pure ⟨keeps.trans keeps', isEmpty, sight⟩
  | false =>
    simp only [Bool.false_eq_true, if_false]
    have cleared : ({ reached.configs with hasGuards := false } : ConfigSet).Consists
        (Tracked env.net) := ⟨tracked.ordered, tracked.each⟩
    refine (register_keeps keeps.kept inside cleared).bind
      fun target m' ⟨keeps', sight, registered', same⟩ => ?_
    have answers : Answers (m'.cache.dfa env.mode) reached.configs (.target target) :=
      ⟨isEmpty, registered', same⟩
    cases marked : reached.configs.hasGuards with
    | true => exact Yields.pure ⟨keeps.trans keeps', answers, sight⟩
    | false =>
      have isKept : EdgeKept env.net (m'.cache.dfa env.mode)
          ((m'.cache.dfa env.mode).state n).configs symbol (.target target) := by
        rw [keeps'.extends'.configs n registered]
        exact edgeKept_of_run run marked answers
      exact (recordEdge_keeps keeps'.kept inside
        (Nat.lt_of_lt_of_le registered keeps'.extends'.size) isKept).bind
          fun _ m'' ⟨keeps'', sight'⟩ => Yields.pure ⟨keeps.trans (keeps'.trans keeps''),
            answers.extend keeps''.extends', sight'.trans sight⟩

theorem computeTarget_stuck {n : Nat} {symbol : Int}
    (stuck : reachSet env m ((m.cache.dfa env.mode).state n).configs symbol = none) :
    (computeTarget env n symbol).run m = none := by
  unfold computeTarget dfa
  simp [stuck]

theorem target_recalled {n : Nat} {symbol : Int} {e : DfaEdge}
    (hit : (edgePlace? symbol).bind ((m.cache.dfa env.mode).state n).edge? = some e) :
    (target env n symbol).run m =
      some (e, { m with stats := { m.stats with dfaHits := m.stats.dfaHits + 1 } }) := by
  unfold target dfa count
  simp [hit]

theorem target_computed {n : Nat} {symbol : Int}
    (miss : (edgePlace? symbol).bind ((m.cache.dfa env.mode).state n).edge? = none) :
    (target env n symbol).run m = (computeTarget env n symbol).run
      { m with stats := { m.stats with networkSteps := m.stats.networkSteps + 1 } } := by
  unfold target dfa count
  simp [miss]

/-- Once the set behind the next symbol is found, a match that can be trusted goes on. -/
theorem target_found (kept : CacheKept env.net m.cache) (inside : env.mode < env.net.modeStarts.size)
    {n : Nat} (registered : n < (m.cache.dfa env.mode).states.size) {reached : Reached η}
    (run : reachSet env m ((m.cache.dfa env.mode).state n).configs (m.input.la 1) = some reached) :
    ∃ r, (target env n (m.input.la 1)).run m = some r := by
  cases hit : (edgePlace? (m.input.la 1)).bind ((m.cache.dfa env.mode).state n).edge? with
  | some e => exact ⟨_, target_recalled hit⟩
  | none =>
    let counted : Matcher η :=
      { m with stats := { m.stats with networkSteps := m.stats.networkSteps + 1 } }
    obtain ⟨e, m', ran, -⟩ := computeTarget_found (m := counted) kept inside registered run
    exact ⟨_, (target_computed hit).trans ran⟩

/-- A symbol leads to a registered state, and where the network leads if the match can be trusted. -/
theorem target_leaves (kept : CacheKept env.net m.cache) (inside : env.mode < env.net.modeStarts.size)
    {n : Nat} (registered : n < (m.cache.dfa env.mode).states.size) :
    Leaves (target env n (m.input.la 1)) m fun e m' => Keeps env m m' ∧
      (∀ k, e = .target k → k < (m'.cache.dfa env.mode).states.size) ∧
      ∃ h, m'.sight = m.sight.asked h ∧ (Trusts env m n →
        ∃ s, Reaches env m.sight ((m.cache.dfa env.mode).state n).configs s h ∧
          Answers (m'.cache.dfa env.mode) s e) := by
  intro e m' run
  cases hit : (edgePlace? (m.input.la 1)).bind ((m.cache.dfa env.mode).state n).edge? with
  | some recorded =>
    rw [target_recalled hit] at run
    cases run
    refine ⟨Keeps.of_eq kept rfl, ?_, m.hooks, rfl, fun trusts => trusts e hit⟩
    obtain ⟨i, place, found⟩ := Option.bind_eq_some_iff.1 hit
    exact ((kept.kept env.mode inside).edges n registered i e found).inside
  | none =>
    rw [target_computed hit] at run
    let counted : Matcher η :=
      { m with stats := { m.stats with networkSteps := m.stats.networkSteps + 1 } }
    cases ran : reachSet env counted ((m.cache.dfa env.mode).state n).configs (m.input.la 1) with
    | none =>
      have stuck : (computeTarget env n (m.input.la 1)).run counted = none := computeTarget_stuck ran
      exact absurd (stuck.symm.trans run) (by simp)
    | some reached =>
      obtain ⟨keeps, answers, sight⟩ :=
        Leaves.of_yields (computeTarget_found (m := counted) kept inside registered ran) e m' run
      refine ⟨⟨keeps.kept, keeps.extends'⟩, ?_, reached.hooks, sight,
        fun _ => ⟨reached.configs, ⟨env.fuel, ran⟩, answers⟩⟩
      rintro k rfl
      exact answers.2.1

/-! ## The loop -/

/-- Behind the next symbol, unless the input is at its end. -/
def Matcher.moved (m : Matcher η) : Matcher η :=
  if m.input.la 1 ≠ endOfInput then m.consume else m

theorem sight_moved (m : Matcher η) : m.moved.sight = m.sight.moved := by
  rw [Matcher.moved, Sight.moved]
  by_cases atEof : m.input.la 1 ≠ endOfInput
  · rw [if_pos atEof, if_pos (show m.sight.input.la 1 ≠ endOfInput from atEof), sight_consume]
  · rw [if_neg atEof, if_neg (show ¬ m.sight.input.la 1 ≠ endOfInput from atEof)]

theorem cache_moved (m : Matcher η) : m.moved.cache = m.cache := by
  unfold Matcher.moved
  split
  · exact cache_consume m
  · rfl

theorem run_dead {rounds n : Nat} {last : Option Accepted} {m' : Matcher η}
    (ran : (target env n (m.input.la 1)).run m = some (.dead, m')) :
    (run env (rounds + 1) n last).run m = some ((m.input.la 1, last), m') := by
  rw [run]
  simp [ran]

theorem run_target {rounds n next : Nat} {last : Option Accepted} {m' : Matcher η}
    (ran : (target env n (m.input.la 1)).run m = some (.target next, m'))
    (same : m'.input = m.input) :
    (run env (rounds + 1) n last).run m =
      if ((m'.cache.dfa env.mode).state next).accepts && decide (m.input.la 1 = endOfInput) then
        some ((m.input.la 1, note ((m'.cache.dfa env.mode).state next) m'.moved last), m'.moved)
      else (run env rounds next (note ((m'.cache.dfa env.mode).state next) m'.moved last)).run
        m'.moved := by
  rw [run]
  have cache := cache_moved m'
  unfold Matcher.moved at cache ⊢
  rw [same] at cache ⊢
  by_cases atEof : m.input.la 1 = endOfInput
  · simp only [atEof] at ran
    simp [atEof, ran, dfa]
    split <;> rfl
  · rw [if_pos atEof] at cache ⊢
    simp [atEof, ran, dfa, cache]

/-- The loop that is at a state of the automaton comes to another one later. -/
inductive Meets (env : MatchEnv η) : Matcher η → Nat → Matcher η → Nat → Prop
  | here (m : Matcher η) (n : Nat) : Meets env m n m n
  | later {m m' m'' : Matcher η} {n next k : Nat}
      (ran : (target env n (m.input.la 1)).run m = some (.target next, m'))
      (goesOn : ¬ (((m'.cache.dfa env.mode).state next).accepts = true ∧ m.input.la 1 = endOfInput))
      (rest : Meets env m'.moved next m'' k) : Meets env m n m'' k

/-- The loop can be trusted wherever it comes. -/
def Guided (env : MatchEnv η) (m : Matcher η) (n : Nat) : Prop :=
  ∀ m' k, Meets env m n m' k → Trusts env m' k

theorem note_eq {net : Network} {s : DfaState} {configs : ConfigSet} {last : Option Accepted}
    (kept : StateKept net s) (same : s.configs.configs = configs.configs) :
    note s m last = note (stateOf net configs) m.sight.matcher last := by
  obtain ⟨accepts, prediction, actions⟩ := stateOf_congr net same
  unfold note
  rw [kept.accepts, kept.prediction, kept.actions, accepts, prediction, actions]
  rfl

/-- A loop keeps what was kept, and ends as the match without a memory does if it can be trusted. -/
theorem run_leaves (inside : env.mode < env.net.modeStarts.size) {rounds n : Nat}
    {last : Option Accepted} {m : Matcher η} (kept : CacheKept env.net m.cache)
    (registered : n < (m.cache.dfa env.mode).states.size) :
    Leaves (run env rounds n last) m fun r m' => Keeps env m m' ∧
      ∀ configs : ConfigSet, ((m.cache.dfa env.mode).state n).configs.configs = configs.configs →
        Guided env m n → Scans env m.sight configs last m'.sight r.1 r.2 := by
  induction rounds generalizing m n last with
  | zero => exact fun r m' run => nomatch run
  | succ rounds ih =>
    intro r m₂ ran
    cases first : (target env n (m.input.la 1)).run m with
    | none =>
      rw [run] at ran
      simp [first] at ran
    | some found =>
      obtain ⟨e, m'⟩ := found
      obtain ⟨keeps, target, h, sight, leads⟩ := target_leaves kept inside registered e m' first
      have sameInput : m'.input = m.input := congrArg Sight.input sight
      have reaches (configs : ConfigSet)
          (same : ((m.cache.dfa env.mode).state n).configs.configs = configs.configs)
          (guided : Guided env m n) : ∃ s, Reaches env m.sight configs s h ∧
            Answers (m'.cache.dfa env.mode) s e := by
        obtain ⟨s, reaches, answers⟩ := leads (guided m n (.here m n))
        exact ⟨s, reaches.of_same same.symm, answers⟩
      cases e with
      | dead =>
        rw [run_dead first] at ran
        cases ran
        refine ⟨keeps, ?_⟩
        intro configs same guided
        obtain ⟨s, reached, nothing⟩ := reaches configs same guided
        rw [sight]
        exact .stuck reached nothing
      | target next =>
        have isKept := (keeps.kept.kept env.mode inside).states next (target next rfl)
        have sight' : m'.moved.sight = (m.sight.asked h).moved := by rw [sight_moved, sight]
        have keeps' : Keeps env m' m'.moved := Keeps.of_eq keeps.kept (cache_moved m')
        rw [run_target first sameInput] at ran
        cases stops : ((m'.cache.dfa env.mode).state next).accepts &&
            decide (m.input.la 1 = endOfInput) with
        | true =>
          simp only [stops, if_true] at ran
          cases ran
          refine ⟨keeps.trans keeps', ?_⟩
          intro configs same guided
          obtain ⟨s, reached, something, -, same'⟩ := reaches configs same guided
          obtain ⟨accepts, atEof⟩ := Bool.and_eq_true_iff.1 stops
          have atEof := of_decide_eq_true atEof
          have stays : m'.moved.sight = m.sight.asked h := by
            rw [sight', Sight.moved]
            exact if_neg (fun notEof => notEof atEof)
          rw [isKept.accepts, (stateOf_congr env.net same').1] at accepts
          rw [note_eq isKept same', stays]
          exact .ended reached something accepts atEof
        | false =>
          simp only [stops, Bool.false_eq_true, if_false] at ran
          have registered' : next < (m'.moved.cache.dfa env.mode).states.size := by
            rw [cache_moved]
            exact target next rfl
          obtain ⟨keeps'', scans⟩ := ih keeps'.kept registered' r m₂ ran
          have goesOn : ¬ (((m'.cache.dfa env.mode).state next).accepts = true ∧
              m.input.la 1 = endOfInput) := by
            rintro ⟨accepts, atEof⟩
            simp [accepts, atEof] at stops
          refine ⟨keeps.trans (keeps'.trans keeps''), ?_⟩
          intro configs same guided
          obtain ⟨s, reached, something, -, same'⟩ := reaches configs same guided
          have rest := scans s (by rw [cache_moved]; exact same')
            fun m₃ k meets => guided m₃ k (.later first goesOn meets)
          rw [note_eq isKept same', sight'] at rest
          refine .goes reached something ?_ rest
          rw [← (stateOf_congr env.net same').1, ← isKept.accepts]
          exact goesOn

/-! ## Whole matches -/

/-- The matcher at the start of a match. -/
def Matcher.begun (m : Matcher η) : Matcher η :=
  { m with startIndex := m.input.pos, stats := { m.stats with tokens := m.stats.tokens + 1 } }

/-- Wherever the match comes, the recorded edge that it follows leads where the network does. -/
def GuidedMatch (env : MatchEnv η) (m : Matcher η) : Prop :=
  ∀ n m', (startState env).run m.begun = some (n, m') → Guided env m' n

theorem conclude_sight {symbol : Int} {last : Option Accepted}
    {result : Except RecognitionError TokenMatch} {m' : Matcher η}
    (ran : (conclude symbol last).run m = some (result, m')) : m'.cache = m.cache ∧ m'.stats = m.stats ∧
      ∃ final, (conclude symbol last).run m.sight.matcher = some (result, final) ∧
        final.sight = m'.sight := by
  cases last with
  | some a =>
    cases ran
    exact ⟨rfl, rfl, _, rfl, rfl⟩
  | none =>
    simp only [conclude, modifyGet, MonadStateOf.modifyGet, StateT.modifyGet, StateT.run] at ran ⊢
    by_cases atEnd : symbol = endOfInput ∧ m.input.pos = m.startIndex
    · rw [if_pos atEnd] at ran
      cases ran
      refine ⟨rfl, rfl, _, congrArg some (if_pos atEnd), rfl⟩
    · rw [if_neg atEnd] at ran
      cases ran
      refine ⟨rfl, rfl, _, congrArg some (if_neg atEnd), rfl⟩

/-- A match has a start, a loop and a conclusion. -/
theorem matchToken_parts {net : Network} {hooks : LexerHooks η} {fuel mode : Nat} :
    Leaves (matchToken net hooks fuel mode) m fun result m' => ∃ n m₁ found m₂,
      (startState { net, hooks, mode, fuel }).run m.begun = some (n, m₁) ∧
      (run { net, hooks, mode, fuel } fuel n (note ((m₁.cache.dfa mode).state n) m₁ none)).run m₁ =
        some (found, m₂) ∧
      (conclude found.1 found.2).run m₂ = some (result, m') := by
  let env : MatchEnv η := { net, hooks, mode, fuel }
  unfold matchToken
  refine Leaves.modify_bind (Leaves.modify_bind (?_ : Leaves _ m.begun _))
  intro result m' ran
  rw [StateT.run_bind] at ran
  obtain ⟨⟨n, m₁⟩, started, rest⟩ := Option.bind_eq_some_iff.1 ran
  have rest' : (run env fuel n (note ((m₁.cache.dfa mode).state n) m₁ none) >>=
      fun found => conclude found.1 found.2).run m₁ = some (result, m') := rest
  rw [StateT.run_bind] at rest'
  obtain ⟨⟨found, m₂⟩, looped, concluded⟩ := Option.bind_eq_some_iff.1 rest'
  exact ⟨n, m₁, found, m₂, started, looped, concluded⟩

/-- A match keeps what was kept, and ends as the match without a memory does if it can be trusted. -/
theorem matchToken_leaves {net : Network} {hooks : LexerHooks η} {fuel mode : Nat}
    (known : mode < net.modeStarts.size) (kept : CacheKept net m.cache) :
    Leaves (matchToken net hooks fuel mode) m fun result m' => CacheKept net m'.cache ∧
      (GuidedMatch { net, hooks, mode, fuel } m →
        Matches { net, hooks, mode, fuel } m.sight result m'.sight) := by
  let env : MatchEnv η := { net, hooks, mode, fuel }
  intro result m' ran
  obtain ⟨n, m₁, found, m₂, started, looped, concluded⟩ := matchToken_parts result m' ran
  obtain ⟨keeps, registered, s, h, starts, same, sight⟩ :=
    startState_leaves (m := m.begun) kept known n m₁ started
  have isKept := (keeps.kept.kept mode known).states n registered
  obtain ⟨keeps', scans⟩ := run_leaves known keeps.kept registered _ m₂ looped
  obtain ⟨cache, -, final, concluded', sight'⟩ := conclude_sight concluded
  refine ⟨by rw [cache]; exact keeps'.kept, ?_⟩
  intro guided
  have scanned := scans s same (guided n m₁ started)
  have noted : note ((m₁.cache.dfa mode).state n) m₁ none = note (stateOf net s) m₁.sight.matcher none :=
    note_eq isKept same
  rw [noted, sight] at scanned
  rw [← sight']
  exact .intro starts scanned concluded'

end Lexer

end AdaptiveLL
