import AdaptiveLL.Proofs.Lexer.Automaton

/-!
# Learning while matching

The steps of a match that change the cache: finding the start state of the mode and finding where a
symbol leads. Each of them succeeds when there is fuel for the closures it asks for, keeps the cache
sound, and gives the state that holds the threads it should, whether they were registered before or
not (`startState_yields`, `target_yields`).
-/

set_option autoImplicit false

namespace AdaptiveLL.Lexer

open Network

variable {η : Type} {g : Grammar} {env : MatchEnv η} {m : Matcher η}

/-- The match has learned something; its input and its place are as they were. -/
structure Learned (env : MatchEnv η) (g : Grammar) (m m' : Matcher η) : Prop where
  sound : CacheSound env.net g m'.cache
  extends' : Extends (m.cache.dfa env.mode) (m'.cache.dfa env.mode)
  input : m'.input = m.input
  startIndex : m'.startIndex = m.startIndex

theorem Learned.trans {m' m'' : Matcher η} (first : Learned env g m m') (second : Learned env g m' m'') :
    Learned env g m m'' :=
  ⟨second.sound, first.extends'.trans second.extends', second.input.trans first.input,
    second.startIndex.trans first.startIndex⟩

/-- A step that leaves cache, input and place alone. -/
theorem Learned.of_eq {m' : Matcher η} (sound : CacheSound env.net g m.cache)
    (cache : m'.cache = m.cache) (input : m'.input = m.input)
    (startIndex : m'.startIndex = m.startIndex) : Learned env g m m' := by
  refine ⟨by rwa [cache], ?_, input, startIndex⟩
  rw [cache]
  exact Extends.refl _

theorem yields_dfa_bind {α : Type} {f : Dfa → MatchM η α} {Q : α → Matcher η → Prop}
    (rest : Yields (f (m.cache.dfa env.mode)) m Q) : Yields (dfa env >>= f) m Q := rest

theorem modifyDfa_yields (sound : CacheSound env.net g m.cache)
    (inside : env.mode < env.net.modeStarts.size) {f : Dfa → Dfa}
    (isSound : Sound env.net g env.mode (f (m.cache.dfa env.mode)))
    (extends' : Extends (m.cache.dfa env.mode) (f (m.cache.dfa env.mode))) :
    Yields (modifyDfa env f) m fun _ m' => Learned env g m m' ∧
      m'.cache.dfa env.mode = f (m.cache.dfa env.mode) := by
  have bound : env.mode < m.cache.dfas.size := by rw [sound.size]; exact inside
  have here : (m.cache.modifyDfa env.mode f).dfa env.mode = f (m.cache.dfa env.mode) := by
    rw [dfa_modifyDfa bound, if_pos rfl]
  refine ⟨_, _, rfl, ⟨sound.change ?_ ?_ (here ▸ isSound), here ▸ extends', rfl, rfl⟩, here⟩
  · simp [DfaCache.modifyDfa]
  · intro k other
    exact (dfa_modifyDfa bound f k).trans (if_neg other)

theorem register_yields (sound : CacheSound env.net g m.cache)
    (inside : env.mode < env.net.modeStarts.size) {configs : ConfigSet} (lexical : configs.Lexical) :
    Yields (register env configs) m fun n m' => Learned env g m m' ∧
      n < (m'.cache.dfa env.mode).states.size ∧
      ∀ alt θ, ((m'.cache.dfa env.mode).state n).configs.Holds alt θ ↔ configs.Holds alt θ := by
  have bound : env.mode < m.cache.dfas.size := by rw [sound.size]; exact inside
  obtain ⟨isSound, extends', registered, holds⟩ :=
    (sound.sound env.mode inside).addState lexical m.cache.contexts
  let cache' := (m.cache.addState env.mode (stateOf env.net configs)).2
  have here : cache'.dfa env.mode =
      ((m.cache.dfa env.mode).addState (stateOf env.net configs) m.cache.contexts).2.1 := by
    rw [dfa_addState bound, if_pos rfl]
  rw [← here] at isSound extends' registered holds
  refine ⟨_, { m with cache := cache' }, rfl, ⟨sound.change ?_ ?_ isSound, extends', rfl, rfl⟩, registered,
    holds⟩
  · exact Array.size_setIfInBounds
  · intro k other
    exact (dfa_addState bound _ k).trans (if_neg other)

/-! ## The start -/

theorem startState_yields (plain : env.net.Plain) (built : env.net.Built g)
    (inside : env.mode < env.net.modeStarts.size)
    (handles : ∀ r ∈ g.tokenRules env.mode, Handles η env.net env.fuel ⟨env.net.ruleStart r, []⟩)
    (sound : CacheSound env.net g m.cache) :
    Yields (startState env) m fun n m' => Learned env g m m' ∧
      n < (m'.cache.dfa env.mode).states.size ∧
      ∀ alt θ, ((m'.cache.dfa env.mode).state n).configs.Holds alt θ ↔
        Live env.net g env.mode [] alt θ := by
  unfold startState
  refine yields_dfa_bind ?_
  cases isStart : (m.cache.dfa env.mode).start with
  | some n =>
    obtain ⟨registered, holds⟩ := (sound.sound env.mode inside).start n isStart
    exact Yields.pure ⟨Learned.of_eq sound rfl rfl rfl, registered, holds⟩
  | none =>
    obtain ⟨reached, run, -, lexical, holds⟩ :=
      startSet_live plain built inside handles m.input m.hooks
    refine Yields.get_bind ?_
    refine Yields.lift_bind run ?_
    let asked : Matcher η := { m with hooks := reached.hooks }
    refine Yields.modify_bind (?_ : Yields _ asked _)
    have kept : Learned env g m asked := Learned.of_eq sound rfl rfl rfl
    refine (register_yields kept.sound inside lexical).bind fun n m' ⟨learned, registered, same⟩ => ?_
    have live : ∀ alt θ, ((m'.cache.dfa env.mode).state n).configs.Holds alt θ ↔
        Live env.net g env.mode [] alt θ := fun alt θ => (same alt θ).trans (holds alt θ)
    simp only [lexical.unguarded, Bool.false_eq_true, if_false]
    refine yields_dfa_bind ?_
    obtain ⟨isSound, extends', isStart'⟩ :=
      (learned.sound.sound env.mode inside).setStart registered live
    refine (modifyDfa_yields learned.sound inside isSound extends').bind
      fun _ m'' ⟨learned', here⟩ => Yields.pure ⟨kept.trans (learned.trans learned'), ?_⟩
    rw [here]
    exact isSound.start _ isStart'

/-! ## The way a symbol leads -/

theorem edgePlace?_eq {symbol : Int} {i : Nat} (place : edgePlace? symbol = some i) :
    (i : Int) = symbol := by
  unfold edgePlace? at place
  split at place
  · rename_i bounds
    rw [← Option.some.inj place]
    exact Int.toNat_of_nonneg bounds.1
  · cases place

theorem recordEdge_yields (sound : CacheSound env.net g m.cache)
    (inside : env.mode < env.net.modeStarts.size) {n : Nat} {symbol : Int} {e : DfaEdge}
    (registered : n < (m.cache.dfa env.mode).states.size)
    (leads : LeadsTo env.net (m.cache.dfa env.mode) ((m.cache.dfa env.mode).state n).configs symbol e) :
    Yields (recordEdge env n symbol e) m fun _ m' => Learned env g m m' := by
  unfold recordEdge
  cases place : edgePlace? symbol with
  | none => exact Yields.pure (Learned.of_eq sound rfl rfl rfl)
  | some i =>
    rw [← edgePlace?_eq place] at leads
    obtain ⟨isSound, extends'⟩ := (sound.sound env.mode inside).setEdge registered leads
    exact (modifyDfa_yields sound inside isSound extends').imp fun _ _ learned => learned.1

/-- The end of the input is consumed by no thread. -/
theorem not_steps_eof (plain : env.net.Plain) {s : ConfigSet} {alt : Nat} {θ : Thread} :
    ¬ Steps env.net s endOfInput alt θ := by
  rintro ⟨⟨n, stack⟩, -, next, step, -⟩
  obtain ⟨-, t, member, accepts, -⟩ := mem_consumeNext.1 step
  rw [plain.not_accepts_eof member] at accepts
  cases accepts

/-- An edge leads where it should, and nowhere at the end of the input. -/
structure Leads (env : MatchEnv η) (m' : Matcher η) (s : ConfigSet) (symbol : Int) (e : DfaEdge) :
    Prop where
  leadsTo : LeadsTo env.net (m'.cache.dfa env.mode) s symbol e
  eof : symbol = endOfInput → e = .dead

theorem computeTarget_yields (plain : env.net.Plain) (built : env.net.Built g)
    (inside : env.mode < env.net.modeStarts.size) {n : Nat} {symbol : Int}
    (sound : CacheSound env.net g m.cache) (registered : n < (m.cache.dfa env.mode).states.size)
    (handles : ∀ alt θ, ((m.cache.dfa env.mode).state n).configs.Holds alt θ →
      ∀ next ∈ env.net.consumeNext minChar maxChar symbol θ, Handles η env.net env.fuel next) :
    Yields (computeTarget env n symbol) m fun e m' => Learned env g m m' ∧
      Leads env m' ((m.cache.dfa env.mode).state n).configs symbol e := by
  have isSound := (sound.sound env.mode inside).states n registered
  obtain ⟨reached, run, -, lexical, holds⟩ :=
    reachSet_steps plain built isSound.threads isSound.sorted handles m
  unfold computeTarget
  refine Yields.get_bind ?_
  refine yields_dfa_bind ?_
  refine Yields.lift_bind run ?_
  let asked : Matcher η := { m with hooks := reached.hooks }
  refine Yields.modify_bind (?_ : Yields _ asked _)
  have kept : Learned env g m asked := Learned.of_eq sound rfl rfl rfl
  simp only [lexical.unguarded, Bool.not_false, if_true]
  cases isEmpty : reached.configs.isEmpty with
  | true =>
    have dead : LeadsTo env.net (asked.cache.dfa env.mode) ((m.cache.dfa env.mode).state n).configs
        symbol .dead := by
      intro alt θ steps
      obtain ⟨c, member, -⟩ := (holds alt θ).2 steps
      rw [ConfigSet.isEmpty, Array.isEmpty_iff] at isEmpty
      rw [isEmpty] at member
      simp at member
    simp only [if_true]
    refine (recordEdge_yields kept.sound inside registered dead).bind fun _ m' learned => ?_
    exact Yields.pure ⟨kept.trans learned, dead.extend learned.extends', fun _ => rfl⟩
  | false =>
    simp only [Bool.false_eq_true, if_false]
    have notEof : symbol ≠ endOfInput := by
      rintro rfl
      have some' : 0 < reached.configs.configs.size := by
        rw [ConfigSet.isEmpty] at isEmpty
        simpa [Array.size_pos_iff] using isEmpty
      obtain ⟨θ, follows⟩ := lexical.threads _ (Array.getElem_mem some')
      exact not_steps_eof plain ((holds _ θ).1 ⟨_, Array.getElem_mem some', rfl, follows⟩)
    have cleared : ({ reached.configs with hasGuards := false } : ConfigSet).Lexical :=
      ⟨lexical.ordered, rfl, lexical.arrivals, lexical.threads, lexical.sorted⟩
    refine (register_yields kept.sound inside cleared).bind
      fun target m' ⟨learned, registered', same⟩ => ?_
    have toTarget : LeadsTo env.net (m'.cache.dfa env.mode) ((m.cache.dfa env.mode).state n).configs
        symbol (.target target) :=
      ⟨registered', fun alt θ => (same alt θ).trans (holds alt θ)⟩
    refine (recordEdge_yields learned.sound inside
      (Nat.lt_of_lt_of_le registered learned.extends'.size) (e := .target target) ?_).bind
      fun _ m'' learned' => Yields.pure
        ⟨kept.trans (learned.trans learned'), toTarget.extend learned'.extends',
          fun isEof => absurd isEof notEof⟩
    rw [learned.extends'.configs n registered]
    exact toTarget

theorem target_yields (plain : env.net.Plain) (built : env.net.Built g)
    (inside : env.mode < env.net.modeStarts.size) {n : Nat} {symbol : Int}
    (sound : CacheSound env.net g m.cache) (registered : n < (m.cache.dfa env.mode).states.size)
    (handles : ∀ alt θ, ((m.cache.dfa env.mode).state n).configs.Holds alt θ →
      ∀ next ∈ env.net.consumeNext minChar maxChar symbol θ, Handles η env.net env.fuel next) :
    Yields (target env n symbol) m fun e m' => Learned env g m m' ∧
      Leads env m' ((m.cache.dfa env.mode).state n).configs symbol e := by
  unfold target
  refine yields_dfa_bind ?_
  cases hit : (edgePlace? symbol).bind ((m.cache.dfa env.mode).state n).edge? with
  | some e =>
    obtain ⟨i, place, found⟩ := Option.bind_eq_some_iff.1 hit
    have leads := (sound.sound env.mode inside).edges n registered i e found
    rw [edgePlace?_eq place] at leads
    refine Yields.modify_bind (Yields.pure ?_)
    refine ⟨Learned.of_eq sound rfl rfl rfl, leads, ?_⟩
    rintro rfl
    have := edgePlace?_eq place
    simp [endOfInput] at this
  | none =>
    let counted : Matcher η :=
      { m with stats := { m.stats with networkSteps := m.stats.networkSteps + 1 } }
    refine Yields.modify_bind (?_ : Yields _ counted _)
    have kept : Learned env g m counted := Learned.of_eq sound rfl rfl rfl
    exact (computeTarget_yields (m := counted) plain built inside sound registered handles).imp
      fun e m' ⟨learned, leads⟩ => ⟨kept.trans learned, leads⟩

end AdaptiveLL.Lexer
