import AdaptiveLL.Proofs.Lexer.Recalling

/-!
# Matches that can be trusted

Two kinds of matches can be trusted: those that follow no recorded edge, which their statistics show
(`guidedMatch_of_unrecalled`), and those whose sets have a property that is handed on from set to set and
lets no symbol pin a custom action (`Steady`, `guidedMatch_of_steady`). In a lexer in which no rule consumes
behind a custom action all matches are of the latter kind (`steady_of_customLast`). They end on every kept
cache as soon as the match without a memory ends (`Matches.matchToken`).
-/

set_option autoImplicit false

namespace AdaptiveLL

open Network

namespace Lexer

variable {η : Type} {env : MatchEnv η} {m : Matcher η}

/-! ## Matches that recall nothing -/

/-- The matcher stands where it stood and has not counted; it may have learned something and asked the
user code. -/
structure Uncounted (m m' : Matcher η) : Prop where
  stats : m'.stats = m.stats
  sight : m'.sight = m.sight.asked m'.hooks

theorem Uncounted.trans {m' m'' : Matcher η} (first : Uncounted m m') (second : Uncounted m' m'') :
    Uncounted m m'' :=
  ⟨second.stats.trans first.stats, by rw [second.sight, first.sight]; rfl⟩

theorem register_uncounted (configs : ConfigSet) :
    Leaves (register env configs) m fun _ m' => Uncounted m m' := by
  intro n m' run
  cases run
  exact ⟨rfl, rfl⟩

theorem recordEdge_uncounted (n : Nat) (symbol : Int) (e : DfaEdge) :
    Leaves (recordEdge env n symbol e) m fun _ m' => Uncounted m m' := by
  intro u m' run
  unfold recordEdge at run
  split at run
  all_goals
    cases run
    exact ⟨rfl, rfl⟩

theorem startState_uncounted : Leaves (startState env) m fun _ m' => Uncounted m m' := by
  unfold startState dfa
  refine Leaves.get_bind ?_
  cases (m.cache.dfa env.mode).start with
  | some n => exact Leaves.pure ⟨rfl, rfl⟩
  | none =>
    refine Leaves.get_bind (Leaves.lift_bind fun reached _ => Leaves.modify_bind ?_)
    let asked : Matcher η := { m with hooks := reached.hooks }
    have sameAsked : Uncounted m asked := ⟨rfl, rfl⟩
    refine (register_uncounted reached.configs).bind fun n m' same => ?_
    split
    · exact Leaves.pure (sameAsked.trans same)
    · have same' : Uncounted m m' := sameAsked.trans same
      exact Leaves.get_bind (Leaves.modify_bind (Leaves.pure ⟨same'.stats, same'.sight⟩))

theorem computeTarget_uncounted (n : Nat) (symbol : Int) :
    Leaves (computeTarget env n symbol) m fun _ m' => Uncounted m m' := by
  unfold computeTarget dfa
  refine Leaves.get_bind (Leaves.get_bind (Leaves.lift_bind fun reached _ => Leaves.modify_bind ?_))
  let asked : Matcher η := { m with hooks := reached.hooks }
  have sameAsked : Uncounted m asked := ⟨rfl, rfl⟩
  simp only []
  split
  · split
    · exact (recordEdge_uncounted n symbol _).bind fun _ m' same => Leaves.pure (sameAsked.trans same)
    · exact Leaves.pure sameAsked
  · refine (register_uncounted _).bind fun target m' same => ?_
    split
    · exact (recordEdge_uncounted n symbol _).bind fun _ m'' same' =>
        Leaves.pure (sameAsked.trans (same.trans same'))
    · exact Leaves.pure (sameAsked.trans same)

/-- What a symbol leads to is looked up, which counts, or found out. -/
theorem target_hits {n : Nat} {symbol : Int} {e : DfaEdge} {m' : Matcher η}
    (ran : (target env n symbol).run m = some (e, m')) : m'.sight = m.sight.asked m'.hooks ∧
      (m'.stats.dfaHits = m.stats.dfaHits + 1 ∨ m'.stats.dfaHits = m.stats.dfaHits ∧
        (edgePlace? symbol).bind ((m.cache.dfa env.mode).state n).edge? = none) := by
  cases hit : (edgePlace? symbol).bind ((m.cache.dfa env.mode).state n).edge? with
  | some recorded =>
    rw [target_recalled hit] at ran
    cases ran
    exact ⟨rfl, .inl rfl⟩
  | none =>
    rw [target_computed hit] at ran
    obtain ⟨stats, sight⟩ := computeTarget_uncounted n symbol _ _ ran
    rw [stats]
    exact ⟨sight, .inr ⟨rfl, rfl⟩⟩

theorem stats_moved (m : Matcher η) : m.moved.stats = m.stats := by
  unfold Matcher.moved Matcher.consume
  split
  · split <;> rfl
  · rfl

/-- A loop that has looked up nothing came only to places at which nothing was recorded. -/
theorem run_hits {rounds n : Nat} {last : Option Accepted} :
    Leaves (run env rounds n last) m fun _ m' => m.stats.dfaHits ≤ m'.stats.dfaHits ∧
      (m'.stats.dfaHits = m.stats.dfaHits → Guided env m n) := by
  induction rounds generalizing m n last with
  | zero => exact fun r m' run => nomatch run
  | succ rounds ih =>
    intro r m₂ ran
    cases first : (target env n (m.input.la 1)).run m with
    | none =>
      rw [run] at ran
      simp [first] at ran
    | some found =>
      obtain ⟨e, m'⟩ := found
      obtain ⟨sight, hits⟩ := target_hits first
      have sameInput : m'.input = m.input := congrArg Sight.input sight
      have atLeast : m.stats.dfaHits ≤ m'.stats.dfaHits := by omega
      have trusts (same : m'.stats.dfaHits = m.stats.dfaHits) : Trusts env m n := by
        intro e recalled
        rcases hits with more | ⟨-, nothing⟩
        · omega
        · rw [nothing] at recalled
          cases recalled
      cases e with
      | dead =>
        rw [run_dead first] at ran
        cases ran
        refine ⟨atLeast, ?_⟩
        intro same m₃ k meets
        cases meets with
        | here => exact trusts same
        | later ran' goesOn rest =>
          rw [first] at ran'
          cases ran'
      | target next =>
        rw [run_target first sameInput] at ran
        have counts := congrArg Stats.dfaHits (stats_moved m')
        split at ran
        · rename_i stops
          cases ran
          refine ⟨by rw [counts]; exact atLeast, ?_⟩
          intro same m₃ k meets
          cases meets with
          | here => exact trusts (by rw [← counts]; exact same)
          | later ran' goesOn rest =>
            rw [first] at ran'
            cases ran'
            simp only [Bool.and_eq_true, decide_eq_true_eq] at stops
            exact absurd stops goesOn
        · obtain ⟨more, guided⟩ := ih r m₂ ran
          rw [counts] at more guided
          refine ⟨Nat.le_trans atLeast more, ?_⟩
          intro same m₃ k meets
          cases meets with
          | here => exact trusts (by omega)
          | later ran' goesOn rest =>
            rw [first] at ran'
            cases ran'
            exact guided (by omega) m₃ k rest

/-- A match that has looked up nothing can be trusted. -/
theorem guidedMatch_of_unrecalled {net : Network} {hooks : LexerHooks η} {fuel mode : Nat}
    {result : Except RecognitionError TokenMatch} {m' : Matcher η}
    (ran : (matchToken net hooks fuel mode).run m = some (result, m'))
    (unrecalled : m'.stats.dfaHits = m.stats.dfaHits) : GuidedMatch { net, hooks, mode, fuel } m := by
  obtain ⟨n, m₁, found, m₂, started, looped, concluded⟩ := matchToken_parts result m' ran
  obtain ⟨-, guided⟩ := run_hits found m₂ looped
  have first : m₁.stats = m.begun.stats := (startState_uncounted n m₁ started).stats
  have last : m'.stats = m₂.stats := (conclude_sight concluded).2.1
  have same : m₂.stats.dfaHits = m₁.stats.dfaHits := by
    rw [← last, unrecalled, first]
    rfl
  intro n' m₁' started'
  rw [started] at started'
  cases started'
  exact guided same

/-! ## Matches that end -/

/-- Sets with the property lead to sets with the property, and in them no symbol pins a custom action. -/
structure Steady (env : MatchEnv η) (P : Array Config → Prop) : Prop where
  starts : ∀ {v : Sight η} {s : ConfigSet} {h : η}, Starts env v s h → P s.configs
  reaches : ∀ {v : Sight η} {configs s : ConfigSet} {h : η}, P configs.configs → Reaches env v configs s h →
    P s.configs
  settled : ∀ {configs : ConfigSet} {symbol : Int}, P configs.configs → Settled env.net configs symbol

variable {P : Array Config → Prop}

/-- Where no rule consumes behind a custom action, it is enough that the configurations are tracked. -/
theorem steady_of_customLast (customLast : CustomLast env.net) :
    Steady env fun configs => ∀ c ∈ configs, Tracked env.net c where
  starts := by
    rintro v s h ⟨fuel, run⟩
    exact (startSet_tracked run).each
  reaches := by
    rintro v configs s h tracked reaches
    let ordered : ConfigSet := { configs with ordered := true }
    have same : ordered.configs = configs.configs := rfl
    obtain ⟨fuel, run⟩ := reaches.of_same same
    let fueled : MatchEnv η := { env with fuel }
    have tracked' : ordered.Consists (Tracked fueled.net) := ⟨rfl, tracked⟩
    exact (reachSet_tracked tracked' run).each
  settled := by
    rintro configs symbol tracked c member ⟨t, out, accepts⟩ waiting
    obtain ⟨stack, -, behind⟩ := (tracked c member).thread
    rw [customLast _ (behind waiting) t out] at accepts
    cases accepts

theorem Steady.trusts (steady : Steady env P) (kept : CacheKept env.net m.cache)
    (inside : env.mode < env.net.modeStarts.size) {n : Nat}
    (registered : n < (m.cache.dfa env.mode).states.size)
    (holds : P ((m.cache.dfa env.mode).state n).configs.configs) : Trusts env m n :=
  trusts_of_settled kept inside registered (steady.settled holds)

/-- With enough fuel, the start of a match succeeds as soon as it has a start set. -/
theorem startState_ends (kept : CacheKept env.net m.cache)
    (inside : env.mode < env.net.modeStarts.size) {s : ConfigSet} {h : η}
    (starts : Starts env m.sight s h) : ∃ bound n m', Keeps env m m' ∧
      (∀ fuel, bound ≤ fuel → (startState { env with fuel }).run m = some (n, m')) ∧
      n < (m'.cache.dfa env.mode).states.size ∧
      ((m'.cache.dfa env.mode).state n).configs.configs = s.configs ∧ m'.sight = m.sight.asked h := by
  obtain ⟨bound, run⟩ := starts
  let bounded : MatchEnv η := { env with fuel := bound }
  have found : startSet bounded m.input (bounded.net.modeStarts.getD bounded.mode 0) m.hooks =
      some ⟨s, h⟩ := run
  have kept' : CacheKept bounded.net m.cache := kept
  have inside' : bounded.mode < bounded.net.modeStarts.size := inside
  obtain ⟨n, m', ran, keeps, registered, same, sight⟩ := startState_found kept' inside' found
  refine ⟨bound, n, m', ⟨keeps.kept, keeps.extends'⟩, ?_, registered, same, sight⟩
  intro fuel more
  have more' : bounded.fuel ≤ fuel := more
  exact startState_below more' m _ ran

/-- With enough fuel, the way that a symbol leads is found as soon as the network leads somewhere. -/
theorem target_ends (kept : CacheKept env.net m.cache) (inside : env.mode < env.net.modeStarts.size)
    {n : Nat} (registered : n < (m.cache.dfa env.mode).states.size) (trusts : Trusts env m n)
    {configs s : ConfigSet} {h : η}
    (same : ((m.cache.dfa env.mode).state n).configs.configs = configs.configs)
    (reaches : Reaches env m.sight configs s h) : ∃ bound e m', Keeps env m m' ∧
      (∀ fuel, bound ≤ fuel → (target { env with fuel } n (m.input.la 1)).run m = some (e, m')) ∧
      Answers (m'.cache.dfa env.mode) s e ∧ m'.sight = m.sight.asked h := by
  obtain ⟨bound, run⟩ := reaches.of_same same
  let bounded : MatchEnv η := { env with fuel := bound }
  have found : reachSet bounded m ((m.cache.dfa bounded.mode).state n).configs (m.input.la 1) =
      some ⟨s, h⟩ := run
  have kept' : CacheKept bounded.net m.cache := kept
  have inside' : bounded.mode < bounded.net.modeStarts.size := inside
  have registered' : n < (m.cache.dfa bounded.mode).states.size := registered
  obtain ⟨⟨e, m'⟩, ran⟩ := target_found kept' inside' registered' found
  obtain ⟨keeps, -, h', sight, leads⟩ := target_leaves kept' inside' registered' e m' ran
  obtain ⟨s', reaches', answers⟩ := leads trusts
  have here : Reaches bounded m.sight ((m.cache.dfa bounded.mode).state n).configs s h :=
    reaches.of_same same
  obtain ⟨rfl, rfl⟩ := here.unique reaches'
  refine ⟨bound, e, m', ⟨keeps.kept, keeps.extends'⟩, ?_, answers, sight⟩
  intro fuel more
  have more' : bounded.fuel ≤ fuel := more
  exact target_below more' n _ m _ ran

/-- A loop ends as soon as the match without a memory does. -/
theorem run_ends (steady : Steady env P) (inside : env.mode < env.net.modeStarts.size)
    {v v' : Sight η} {configs : ConfigSet} {last last' : Option Accepted} {symbol : Int}
    (scans : Scans env v configs last v' symbol last') (holds : P configs.configs)
    {m : Matcher η} {n : Nat} (kept : CacheKept env.net m.cache) (sight : m.sight = v)
    (registered : n < (m.cache.dfa env.mode).states.size)
    (same : ((m.cache.dfa env.mode).state n).configs.configs = configs.configs) :
    ∃ bound, ∀ fuel, bound ≤ fuel → ∀ rounds, bound ≤ rounds →
      ∃ r, (run { env with fuel } rounds n last).run m = some r := by
  have successor {bound rounds : Nat} (more : bound + 1 ≤ rounds) : ∃ k, rounds = k + 1 ∧ bound ≤ k :=
    ⟨rounds - 1, by omega, by omega⟩
  induction scans generalizing m n with
  | stuck reaches nothing =>
    subst sight
    obtain ⟨bound, e, m', -, ran, answers, -⟩ := target_ends kept inside registered
      (steady.trusts kept inside registered (same ▸ holds)) same reaches
    cases e with
    | target next => exact absurd nothing (by simp [answers.1])
    | dead =>
      refine ⟨bound + 1, ?_⟩
      intro fuel more rounds moreRounds
      obtain ⟨k, rfl, -⟩ := successor moreRounds
      exact ⟨_, run_dead (ran fuel (by omega))⟩
  | ended reaches something accepts atEof =>
    subst sight
    obtain ⟨bound, e, m', keeps, ran, answers, sight'⟩ := target_ends kept inside registered
      (steady.trusts kept inside registered (same ▸ holds)) same reaches
    cases e with
    | dead => exact absurd (something.symm.trans answers) (by simp)
    | target next =>
      obtain ⟨-, registered', same'⟩ := answers
      have isKept := (keeps.kept.kept env.mode inside).states next registered'
      rw [← (stateOf_congr env.net same').1, ← isKept.accepts] at accepts
      have atEof' : m.input.la 1 = endOfInput := atEof
      have stops : (((m'.cache.dfa env.mode).state next).accepts &&
          decide (m.input.la 1 = endOfInput)) = true := by
        rw [accepts, atEof']
        rfl
      refine ⟨bound + 1, ?_⟩
      intro fuel more rounds moreRounds
      obtain ⟨k, rfl, -⟩ := successor moreRounds
      exact ⟨_, (run_target (ran fuel (by omega)) (congrArg Sight.input sight')).trans (if_pos stops)⟩
  | @goes v v' configs s h last last' symbol reaches something goesOn rest ih =>
    subst sight
    obtain ⟨bound, e, m', keeps, ran, answers, sight'⟩ := target_ends kept inside registered
      (steady.trusts kept inside registered (same ▸ holds)) same reaches
    cases e with
    | dead => exact absurd (something.symm.trans answers) (by simp)
    | target next =>
      obtain ⟨-, registered', same'⟩ := answers
      have isKept := (keeps.kept.kept env.mode inside).states next registered'
      have cache := cache_moved m'
      have movedSight : m'.moved.sight = _ := (sight_moved m').trans (congrArg Sight.moved sight')
      obtain ⟨bound', ends⟩ := ih (steady.reaches holds reaches) (m := m'.moved) (n := next)
        (by rw [cache]; exact keeps.kept) movedSight (by rw [cache]; exact registered')
        (by rw [cache]; exact same')
      refine ⟨max bound bound' + 1, ?_⟩
      intro fuel more rounds moreRounds
      obtain ⟨k, rfl, moreRounds'⟩ := successor moreRounds
      obtain ⟨r, rest'⟩ := ends fuel (by omega) k (by omega)
      rw [run_target (ran fuel (by omega)) (congrArg Sight.input sight'), note_eq isKept same', movedSight]
      split
      · exact ⟨_, rfl⟩
      · exact ⟨r, rest'⟩

/-- The loop stays on kept caches, in registered states whose sets have the property. -/
theorem Meets.keeps (steady : Steady env P) (inside : env.mode < env.net.modeStarts.size) {m m' : Matcher η}
    {n k : Nat} (meets : Meets env m n m' k) (kept : CacheKept env.net m.cache)
    (registered : n < (m.cache.dfa env.mode).states.size)
    (holds : P ((m.cache.dfa env.mode).state n).configs.configs) :
    CacheKept env.net m'.cache ∧ k < (m'.cache.dfa env.mode).states.size ∧
      P ((m'.cache.dfa env.mode).state k).configs.configs := by
  induction meets with
  | here m n => exact ⟨kept, registered, holds⟩
  | @later m m' m'' n next k ran goesOn rest ih =>
    obtain ⟨keeps, target, h, -, leads⟩ := target_leaves kept inside registered _ m' ran
    obtain ⟨s, reaches, -, -, same⟩ := leads (steady.trusts kept inside registered holds)
    apply ih
    · rw [cache_moved]
      exact keeps.kept
    · rw [cache_moved]
      exact target next rfl
    · rw [cache_moved, same]
      exact steady.reaches holds reaches

/-- Every match on a kept cache can be trusted. -/
theorem guidedMatch_of_steady (steady : Steady env P) (inside : env.mode < env.net.modeStarts.size)
    (kept : CacheKept env.net m.cache) : GuidedMatch env m := by
  intro n m₁ started m' k meets
  obtain ⟨keeps, registered, s, h, starts, same, -⟩ :=
    startState_leaves (m := m.begun) kept inside n m₁ started
  obtain ⟨kept', registered', holds⟩ :=
    meets.keeps steady inside keeps.kept registered (same ▸ steady.starts starts)
  exact steady.trusts kept' inside registered' holds

theorem conclude_succeeds (symbol : Int) (last : Option Accepted) :
    ∃ r, (conclude symbol last).run m = some r := by
  cases last with
  | some a => exact ⟨_, rfl⟩
  | none => exact ⟨_, rfl⟩

section

variable {net : Network} {hooks : LexerHooks η} {mode fuel : Nat} {v : Sight η}
  {result : Except RecognitionError TokenMatch} (steady : Steady { net, hooks, mode, fuel } P)
  (known : mode < net.modeStarts.size) (kept : CacheKept net m.cache)
include steady known kept

/-- A match ends on every kept cache as soon as the match without a memory does. -/
theorem Matches.ends (ends : Matches { net, hooks, mode, fuel } m.sight result v) :
    ∃ bound r, (matchToken net hooks bound mode).run m = some r := by
  obtain ⟨starts, scans, concludes⟩ := ends
  rename_i s h mid symbol last final
  let env : MatchEnv η := { net, hooks, mode, fuel }
  have starts' : Starts env m.begun.sight s h := starts
  obtain ⟨bound, n, m₁, keeps, started, registered, same, sight⟩ :=
    startState_ends (m := m.begun) kept known starts'
  have isKept := (keeps.kept.kept mode known).states n registered
  have noted : note ((m₁.cache.dfa mode).state n) m₁ none =
      note (stateOf net s) (m.begun.sight.asked h).matcher none := by
    rw [← sight]
    exact note_eq isKept same
  obtain ⟨bound', loops⟩ := run_ends steady known scans (steady.starts starts) keeps.kept sight registered same
  let most := max bound bound'
  obtain ⟨⟨found, m₂⟩, looped⟩ := loops most (Nat.le_max_right _ _) most (Nat.le_max_right _ _)
  obtain ⟨r, concluded⟩ := conclude_succeeds (m := m₂) found.1 found.2
  have first := started most (Nat.le_max_left _ _)
  have rest : (run { env with fuel := most } most n
      (note ((m₁.cache.dfa mode).state n) m₁ none) >>= fun found => conclude found.1 found.2).run m₁ =
        some r := by
    rw [StateT.run_bind, noted]
    exact Option.bind_eq_some_iff.2 ⟨_, looped, concluded⟩
  exact ⟨most, r, Option.bind_eq_some_iff.2 ⟨_, first, rest⟩⟩

/-- A match ends on every kept cache as the match without a memory does. -/
theorem Matches.matchToken (ends : Matches { net, hooks, mode, fuel } m.sight result v) : ∃ enough m',
    (∀ fuel, enough ≤ fuel → (matchToken net hooks fuel mode).run m = some (result, m')) ∧ m'.sight = v := by
  obtain ⟨bound, ⟨result', m'⟩, ran⟩ := ends.ends steady known kept
  let env : MatchEnv η := { net, hooks, mode, fuel := bound }
  have steady' : Steady env P := ⟨steady.starts, steady.reaches, steady.settled⟩
  have guided : GuidedMatch env m := guidedMatch_of_steady steady' known kept
  have found : Matches env m.sight result' m'.sight :=
    (matchToken_leaves known kept result' m' ran).2 guided
  obtain ⟨rfl, sight⟩ := found.unique (ends.refuel bound)
  exact ⟨bound, m', fun fuel more => matchToken_below more m _ ran, sight⟩

end

end Lexer

end AdaptiveLL
