import AdaptiveLL.Lexer.Match
import AdaptiveLL.Proofs.Network.Threads

/-!
# The closure of a lexer

The configurations of a lexer are threads of the network, each with the alternative it belongs to. In
a network without predicates, without the end of the input among its symbols and without loops that
prefer to stop early, the closure of a configuration adds, for its alternative, exactly the threads
that are reached silently and can go no further without consuming (`closure_gathers`). It needs fuel
for the longest silent run of the thread and no more.
-/

set_option autoImplicit false

namespace AdaptiveLL

open Network

/-! ## Computations that succeed -/

/-- The computation succeeds, with a result and a state that satisfy `Q`. -/
def Yields {σ α : Type} (x : StateT σ Option α) (s : σ) (Q : α → σ → Prop) : Prop :=
  ∃ a s', x.run s = some (a, s') ∧ Q a s'

namespace Yields

variable {σ α β : Type} {s : σ}

theorem pure {a : α} {Q : α → σ → Prop} (holds : Q a s) : Yields (pure a) s Q := ⟨a, s, rfl, holds⟩

theorem bind {x : StateT σ Option α} {f : α → StateT σ Option β} {P : α → σ → Prop}
    {Q : β → σ → Prop} (first : Yields x s P) (second : ∀ a s', P a s' → Yields (f a) s' Q) :
    Yields (x >>= f) s Q := by
  obtain ⟨a, s', run, holds⟩ := first
  obtain ⟨b, s'', run', holds'⟩ := second a s' holds
  refine ⟨b, s'', ?_, holds'⟩
  rw [StateT.run_bind, run]
  exact run'

theorem imp {x : StateT σ Option α} {P Q : α → σ → Prop} (yields : Yields x s P)
    (imp : ∀ a s', P a s' → Q a s') : Yields x s Q := by
  obtain ⟨a, s', run, holds⟩ := yields
  exact ⟨a, s', run, imp a s' holds⟩

theorem get_bind {f : σ → StateT σ Option α} {Q : α → σ → Prop} (rest : Yields (f s) s Q) :
    Yields (get >>= f) s Q := rest

theorem modify_bind {next : σ → σ} {f : PUnit → StateT σ Option α} {Q : α → σ → Prop}
    (rest : Yields (f ⟨⟩) (next s) Q) : Yields (modify next >>= f) s Q := rest

theorem lift_bind {x : Option α} {a : α} {f : α → StateT σ Option β} {Q : β → σ → Prop}
    (run : x = some a) (rest : Yields (f a) s Q) : Yields (liftM x >>= f) s Q := by
  subst run
  exact rest

end Yields

/-! ## Configurations as threads -/

/-- The context of a stack of states to return to, innermost first. -/
def Context.ofStack : List Nat → Context
  | [] => .empty
  | ret :: stack => (ofStack stack).push ret

theorem Context.ofStack_ne_nil (stack : List Nat) : Context.ofStack stack ≠ .nil := by
  cases stack <;> simp [ofStack, empty, push]

theorem Context.ofStack_injective {σ τ : List Nat} (same : Context.ofStack σ = Context.ofStack τ) :
    σ = τ := by
  induction σ generalizing τ with
  | nil =>
    cases τ with
    | nil => rfl
    | cons ret τ => simp [ofStack, empty, push] at same
  | cons ret σ ih =>
    cases τ with
    | nil => simp [ofStack, empty, push] at same
    | cons ret' τ =>
      simp only [ofStack, push, Context.cons.injEq, Option.some.injEq, and_true] at same
      rw [same.1, ih same.2]

/-- The configuration follows the thread. -/
structure Config.Follows (c : Config) (θ : Thread) : Prop where
  state : c.state = θ.state
  context : c.context = .ofStack θ.stack
  guard : c.guard = .always
  nonGreedy : c.nonGreedy = false

theorem Config.Follows.unique {c : Config} {θ θ' : Thread} (first : c.Follows θ)
    (second : c.Follows θ') : θ = θ' := by
  obtain ⟨n, stack⟩ := θ
  obtain ⟨n', stack'⟩ := θ'
  have state : n = n' := first.state.symm.trans second.state
  have context := Context.ofStack_injective (first.context.symm.trans second.context)
  simp only at context
  rw [state, context]

theorem Config.alt_of_identity {c d : Config} (same : d.identity = c.identity) : d.alt = c.alt :=
  show d.identity.alt = c.identity.alt by rw [same]

theorem Config.Follows.of_identity {c d : Config} {θ : Thread} (follows : c.Follows θ)
    (same : d.identity = c.identity) : d.Follows θ := by
  refine ⟨?_, ?_, ?_, ?_⟩
  · exact (show d.identity.state = c.identity.state by rw [same]).trans follows.state
  · exact (show d.identity.context = c.identity.context by rw [same]).trans follows.context
  · exact (show d.identity.guard = c.identity.guard by rw [same]).trans follows.guard
  · exact (show d.identity.nonGreedy = c.identity.nonGreedy by rw [same]).trans follows.nonGreedy

namespace ConfigSet

/-- The configurations of a lexer: threads in the order of their alternatives. -/
structure Lexical (s : ConfigSet) : Prop where
  ordered : s.ordered = true
  unguarded : s.hasGuards = false
  arrivals : s.arrivals = s.configs
  threads : ∀ c ∈ s.configs, ∃ θ, c.Follows θ
  sorted : s.configs.toList.Pairwise (·.alt ≤ ·.alt)

/-- The set holds the thread for the alternative. -/
def Holds (s : ConfigSet) (alt : Nat) (θ : Thread) : Prop :=
  ∃ c ∈ s.configs, c.alt = alt ∧ c.Follows θ

theorem lexical_ofLexer : ofLexer.Lexical :=
  ⟨rfl, rfl, rfl, fun c member => by simp [ofLexer] at member, .nil⟩

theorem not_holds_ofLexer (alt : Nat) (θ : Thread) : ¬ ofLexer.Holds alt θ := by
  rintro ⟨c, member, -⟩
  simp [ofLexer] at member

/-- What a set of a lexer holds after a configuration of a thread is added. -/
theorem Lexical.insert {s : ConfigSet} {c : Config} {θ : Thread} (lexical : s.Lexical)
    (follows : c.Follows θ) (latest : ∀ d ∈ s.configs, d.alt ≤ c.alt) :
    (s.insert c).Lexical ∧ (∀ d ∈ (s.insert c).configs, d.alt ≤ c.alt) ∧
      ∀ alt θ', (s.insert c).Holds alt θ' ↔ s.Holds alt θ' ∨ alt = c.alt ∧ θ' = θ := by
  have unguarded : (s.note c).hasGuards = false := by
    simp only [note, lexical.unguarded, follows.guard]
    rfl
  have inserted : s.insert c = (s.note c).insertOrdered c := by
    rw [ConfigSet.insert, if_pos (show (s.note c).ordered = true from lexical.ordered)]
  rw [inserted, insertOrdered]
  by_cases present : (s.note c).arrivals.any (·.same c) = true
  · rw [if_pos present]
    refine ⟨⟨lexical.ordered, unguarded, lexical.arrivals, lexical.threads, lexical.sorted⟩, latest,
      fun alt θ' => ⟨.inl, ?_⟩⟩
    rintro (old | ⟨rfl, rfl⟩)
    · exact old
    · obtain ⟨d, member, same⟩ := Array.any_eq_true'.1 present
      rw [show (s.note c).arrivals = s.configs from lexical.arrivals] at member
      have same : d.identity = c.identity := by simpa [Config.same] using same
      exact ⟨d, member, Config.alt_of_identity same, follows.of_identity same⟩
  · rw [if_neg present]
    refine ⟨⟨lexical.ordered, unguarded, ?_, ?_, ?_⟩, ?_, ?_⟩
    · exact congrArg (·.push c) lexical.arrivals
    · intro d member
      rcases Array.mem_push.1 member with old | rfl
      · exact lexical.threads d old
      · exact ⟨θ, follows⟩
    · simp only [Array.toList_push]
      refine List.pairwise_append.2 ⟨lexical.sorted, List.pairwise_singleton _ _, ?_⟩
      intro d member d' member'
      obtain rfl := List.mem_singleton.1 member'
      exact latest d (Array.mem_toList_iff.1 member)
    · intro d member
      rcases Array.mem_push.1 member with old | rfl
      · exact latest d old
      · exact Nat.le_refl _
    · intro alt θ'
      constructor
      · rintro ⟨d, member, rfl, follows'⟩
        rcases Array.mem_push.1 member with old | rfl
        · exact .inl ⟨d, old, rfl, follows'⟩
        · exact .inr ⟨rfl, follows'.unique follows⟩
      · rintro (⟨d, member, rfl, follows'⟩ | ⟨rfl, rfl⟩)
        · exact ⟨d, Array.mem_push.2 (.inl member), rfl, follows'⟩
        · exact ⟨c, Array.mem_push.2 (.inr rfl), rfl, follows⟩

end ConfigSet

/-! ## Networks of plain lexers -/

/-- Does the transition ask a predicate? -/
def Label.isGuard : Label → Bool
  | .predicate _ _ _ | .precedence _ => true
  | _ => false

namespace Network

/-- The network asks no predicates, no transition is taken at the end of the input, and neither a loop nor
an optional part prefers to stop early. -/
structure Plain (net : Network) : Prop where
  unguarded : ∀ s ∈ net.states.toList, ∀ t ∈ s.transitions, t.label.isGuard = false
  noEof : ∀ s ∈ net.states.toList, ∀ t ∈ s.transitions,
    t.label.accepts endOfInput minChar maxChar = false
  greedy : ∀ s ∈ net.states.toList, s.nonGreedy = false

variable {net : Network}

theorem state_mem {n : Nat} (inside : n < net.states.size) : net.state n ∈ net.states.toList := by
  rw [state_of_lt inside]
  simp

theorem mem_states_of_out {n : Nat} {t : Transition} (member : t ∈ net.out n) :
    net.state n ∈ net.states.toList := by
  refine state_mem ?_
  by_contra outside
  rw [out_of_le (Nat.not_lt.1 outside)] at member
  cases member

theorem Plain.isNonGreedy (plain : net.Plain) (n : Nat) : Lexer.isNonGreedy net n = false := by
  rw [Lexer.isNonGreedy]
  rcases Nat.lt_or_ge n net.states.size with inside | outside
  · rw [plain.greedy _ (state_mem inside), Bool.and_false]
  · rw [state_of_le outside]
    rfl

theorem Plain.not_accepts_eof (plain : net.Plain) {n : Nat} {t : Transition} (member : t ∈ net.out n) :
    t.label.accepts endOfInput minChar maxChar = false :=
  plain.noEof _ (mem_states_of_out member) t member

/-- The thread is at its end, or it cannot go on without consuming along one of its transitions. -/
def Settled (net : Network) (θ : Thread) : Prop :=
  (net.isStop θ.state = true ∧ θ.stack = []) ∨
    (net.isStop θ.state = false ∧ (net.state θ.state).epsilonOnly = false)

end Network

namespace Lexer

variable {η : Type}

/-! ## Gathering threads -/

/-- The set holds threads of a lexer, none of a later alternative than the given one. -/
structure Gathered (s : ConfigSet) (alt : Nat) : Prop where
  lexical : s.Lexical
  latest : ∀ c ∈ s.configs, c.alt ≤ alt

/-- The computation succeeds, leaves the user code alone and adds just the threads with `P` to those of
the alternative. -/
def Gathers {α : Type} (x : ClosureM η α) (alt : Nat) (P : Thread → Prop) : Prop :=
  ∀ r : Reached η, Gathered r.configs alt → Yields x r fun _ r' =>
    r'.hooks = r.hooks ∧ Gathered r'.configs alt ∧
      ∀ a θ, r'.configs.Holds a θ ↔ r.configs.Holds a θ ∨ a = alt ∧ P θ

namespace Gathers

variable {α β : Type} {alt : Nat}

theorem pure (a : α) : Gathers (pure a : ClosureM η α) alt fun _ => False :=
  fun _ gathered => Yields.pure ⟨rfl, gathered, by simp⟩

theorem bind {x : ClosureM η α} {f : α → ClosureM η β} {P Q : Thread → Prop}
    (first : Gathers x alt P) (second : ∀ a, Gathers (f a) alt Q) :
    Gathers (x >>= f) alt fun θ => P θ ∨ Q θ := by
  intro r gathered
  refine (first r gathered).bind fun a r' ⟨hooks, gathered', holds⟩ => ?_
  refine (second a r' gathered').imp fun b r'' ⟨hooks', gathered'', holds'⟩ => ?_
  refine ⟨hooks'.trans hooks, gathered'', fun a' θ => ?_⟩
  rw [holds', holds, or_assoc, ← and_or_left]

theorem congr {x : ClosureM η α} {P Q : Thread → Prop} (gathers : Gathers x alt P)
    (same : ∀ θ, P θ ↔ Q θ) : Gathers x alt Q := by
  obtain rfl : P = Q := funext fun θ => propext (same θ)
  exact gathers

theorem foldlM {f : β → α → ClosureM η β} {P : α → Thread → Prop} (xs : List α)
    (each : ∀ x ∈ xs, ∀ b, Gathers (f b x) alt (P x)) (b : β) :
    Gathers (xs.foldlM f b) alt fun θ => ∃ x ∈ xs, P x θ := by
  induction xs generalizing b with
  | nil => exact (Gathers.pure b).congr (by simp)
  | cons x xs ih =>
    rw [List.foldlM_cons]
    refine ((each x (by simp) b).bind fun b' => ih (fun y member => each y (by simp [member])) b').congr
      fun θ => ?_
    simp

end Gathers

theorem gathers_addConfig {c : Config} {θ : Thread} (follows : c.Follows θ) :
    Gathers (addConfig c : ClosureM η Unit) c.alt (· = θ) := by
  intro r gathered
  obtain ⟨lexical, latest, holds⟩ := gathered.lexical.insert follows gathered.latest
  exact ⟨(), _, rfl, rfl, ⟨lexical, latest⟩, holds⟩

/-! ## Closures -/

variable {net : Network}

theorem Follows.configAt (plain : net.Plain) {c : Config} {n : Nat} {stack : List Nat}
    (follows : c.Follows ⟨n, stack⟩) (m : Nat) : (configAt net c m).Follows ⟨m, stack⟩ :=
  ⟨rfl, follows.context, follows.guard, by
    simp [Lexer.configAt, follows.nonGreedy, plain.isNonGreedy m]⟩

/-- A transition takes a configuration where its move takes the thread. -/
theorem epsilonTarget_run {env : ClosureEnv η} (plain : env.net.Plain) {c : Config} {n : Nat}
    {stack : List Nat} {t : Transition} (follows : c.Follows ⟨n, stack⟩)
    (member : t ∈ env.net.out n) : ∃ next, (∀ r, (epsilonTarget env c t).run r = some (next, r)) ∧
      match silentMove stack t.move with
      | none => next = none
      | some θ => ∃ d, next = some d ∧ d.Follows θ ∧ d.alt = c.alt := by
  have unguarded := plain.unguarded _ (mem_states_of_out member) t member
  have noEof := plain.not_accepts_eof member
  have moved := Follows.configAt plain follows t.target
  unfold epsilonTarget Transition.move
  cases label : t.label with
  | epsilon origin => exact ⟨_, fun r => rfl, _, rfl, moved, rfl⟩
  | rule r p follow =>
    refine ⟨_, fun r => rfl, _, rfl, ⟨rfl, ?_, moved.guard, moved.nonGreedy⟩, rfl⟩
    simp [follows.context, Context.ofStack]
  | predicate r p ctx => simp [label, Label.isGuard] at unguarded
  | precedence p => simp [label, Label.isGuard] at unguarded
  | action r place ctx =>
    simp only []
    cases place.bind fun i => env.net.actions[i]? with
    | none => exact ⟨_, fun r => rfl, _, rfl, moved, rfl⟩
    | some a =>
      refine ⟨_, fun r => rfl, _, rfl, ?_, ?_⟩
      · split
        · exact ⟨moved.state, moved.context, moved.guard, moved.nonGreedy⟩
        · exact moved
      · split <;> rfl
  | notSet set => exact ⟨_, fun r => rfl, rfl⟩
  | wildcard => exact ⟨_, fun r => rfl, rfl⟩
  | _ =>
    rw [label] at noEof
    refine ⟨none, fun r => ?_, rfl⟩
    simp only [noEof, Bool.and_false]
    rfl

/-- Fuel from the bound on is enough for the closure of a thread, whatever the configuration that
follows it. -/
def Handles (η : Type) (net : Network) (bound : Nat) (θ : Thread) : Prop :=
  ∀ (env : ClosureEnv η) (fuel : Nat) (c : Config) (done : Bool), env.net = net → bound ≤ fuel →
    c.Follows θ → Gathers (closure env fuel c done) c.alt
      fun θ' => net.Settled θ' ∧ net.Runs minChar maxChar θ [] θ'

theorem Handles.mono {bound bound' : Nat} {θ : Thread} (handles : Handles η net bound θ)
    (le : bound ≤ bound') : Handles η net bound' θ :=
  fun env fuel c done same enough => handles env fuel c done same (Nat.le_trans le enough)

theorem exists_handles_all {θs : List Thread} (each : ∀ θ ∈ θs, ∃ bound, Handles η net bound θ) :
    ∃ bound, ∀ θ ∈ θs, Handles η net bound θ := by
  induction θs with
  | nil => exact ⟨0, by simp⟩
  | cons θ θs ih =>
    obtain ⟨first, handles⟩ := each θ (by simp)
    obtain ⟨rest, handlesRest⟩ := ih fun θ' member => each θ' (by simp [member])
    refine ⟨max first rest, fun θ' member => ?_⟩
    rcases List.mem_cons.1 member with rfl | later
    · exact handles.mono (Nat.le_max_left _ _)
    · exact (handlesRest θ' later).mono (Nat.le_max_right _ _)

/-- The closure at the end of a rule: the thread is over, or it returns. -/
theorem handles_stop {bound n : Nat} {stack : List Nat} (isStop : net.isStop n = true)
    (next : ∀ θ ∈ net.silentNext ⟨n, stack⟩, Handles η net bound θ) :
    Handles η net (bound + 1) ⟨n, stack⟩ := by
  rintro env (_ | fuel) c done rfl enough follows
  · omega
  · have here : (env.net.state c.state).kind.isRuleStop = true := by rw [follows.state]; exact isStop
    rw [closure]
    simp only [here, if_true]
    cases stack with
    | nil =>
      have empty : c.context.isEmpty = true := by rw [follows.context]; rfl
      simp only [empty, if_true]
      refine ((gathers_addConfig follows).bind fun _ => Gathers.pure true).congr fun θ => ?_
      rw [runs_nil]
      simp only [silentNext, isStop, if_true, List.not_mem_nil, false_and, exists_false, or_false]
      constructor
      · rintro rfl
        exact ⟨.inl ⟨isStop, rfl⟩, rfl⟩
      · rintro ⟨-, rfl⟩
        rfl
    | cons ret stack =>
      have single : silentNext env.net ⟨n, ret :: stack⟩ = [⟨ret, stack⟩] := by
        simp [silentNext, isStop]
      have context := follows.context
      simp only [Context.ofStack, Context.push] at context
      have full : c.context.isEmpty = false := by rw [context]; rfl
      have noEnd : c.context.hasEmptyPath = false := by rw [context]; rfl
      have entries : c.context.entries = [(some ret, .ofStack stack)] := by rw [context]; rfl
      simp only [full, noEnd, entries, Bool.false_eq_true, if_false, pure_bind, List.foldlM_cons,
        List.foldlM_nil, Context.ofStack_ne_nil, bind_pure]
      have returns : (c.withContext ret (.ofStack stack)).Follows ⟨ret, stack⟩ :=
        ⟨rfl, rfl, follows.guard, follows.nonGreedy⟩
      refine (next ⟨ret, stack⟩ (by simp [single]) env fuel _ done rfl (by omega) returns).congr
        fun θ => and_congr_right fun settled => ?_
      rw [@runs_nil _ _ _ ⟨n, ret :: stack⟩, single]
      simp only [List.mem_singleton, exists_eq_left]
      refine ⟨.inr, fun run => run.resolve_left ?_⟩
      rintro rfl
      rcases settled with ⟨-, noStack⟩ | ⟨inner, -⟩
      · cases noStack
      · rw [isStop] at inner
        cases inner

/-- The closure within a rule goes along all transitions. -/
theorem handles_inner (plain : net.Plain) {bound n : Nat} {stack : List Nat}
    (inner : net.isStop n = false)
    (next : ∀ θ ∈ net.silentNext ⟨n, stack⟩, Handles η net bound θ) :
    Handles η net (bound + 1) ⟨n, stack⟩ := by
  rintro env (_ | fuel) c done rfl enough follows
  · omega
  · have here : (env.net.state c.state).kind.isRuleStop = false := by
      rw [follows.state]
      exact inner
    have along {follow : Option Config → ClosureM η Bool} {done : Bool} (nowhere : follow none = pure done)
        (somewhere : ∀ d, follow (some d) = closure env fuel d done) (t : Transition)
        (member : t ∈ env.net.out n) : Gathers (epsilonTarget env c t >>= follow) c.alt fun θ =>
          ∃ θ', silentMove stack t.move = some θ' ∧ env.net.Settled θ ∧
            env.net.Runs minChar maxChar θ' [] θ := by
      obtain ⟨target, run, leads⟩ := epsilonTarget_run plain follows member
      intro r gathered
      have asked : Yields (epsilonTarget env c t) r fun next r' => next = target ∧ r' = r :=
        ⟨target, r, run r, rfl, rfl⟩
      refine asked.bind fun next' r' answer => ?_
      obtain ⟨rfl, rfl⟩ := answer
      cases move : silentMove stack t.move with
      | none =>
        rw [move] at leads
        subst leads
        rw [nowhere]
        exact ((Gathers.pure done).congr (by simp)) r' gathered
      | some θ' =>
        rw [move] at leads
        obtain ⟨d, rfl, follows', sameAlt⟩ := leads
        have among : θ' ∈ env.net.silentNext ⟨n, stack⟩ :=
          mem_silentNext_of_move inner (List.mem_map_of_mem member) move
        have gathers := next θ' among env fuel d done rfl (by omega) follows'
        rw [somewhere]
        rw [sameAlt] at gathers
        exact (gathers.congr (by simp)) r' gathered
    rw [closure]
    simp only [here, Bool.false_eq_true, if_false, follows.nonGreedy, Bool.not_false, Bool.or_true,
      Bool.and_true]
    have out : (env.net.state c.state).transitions = env.net.out n := by rw [follows.state]; rfl
    rw [out]
    -- What comes after the thread itself is what its transitions lead to.
    have later {θ : Thread} (settled : env.net.Settled θ) :
        (∃ θ' ∈ env.net.silentNext ⟨n, stack⟩, env.net.Runs minChar maxChar θ' [] θ) ↔
          ∃ t ∈ env.net.out n, ∃ θ', silentMove stack t.move = some θ' ∧ env.net.Settled θ ∧
            env.net.Runs minChar maxChar θ' [] θ := by
      simp only [silentNext, inner, Bool.false_eq_true, if_false, List.mem_filterMap, moves,
        List.mem_map]
      constructor
      · rintro ⟨θ', ⟨move, ⟨t, member, rfl⟩, leads⟩, run⟩
        exact ⟨t, member, θ', leads, settled, run⟩
      · rintro ⟨t, member, θ', leads, -, run⟩
        exact ⟨θ', ⟨_, ⟨t, member, rfl⟩, leads⟩, run⟩
    cases epsilonOnly : (env.net.state c.state).epsilonOnly with
    | false =>
      simp only [Bool.not_false, if_true]
      refine ((gathers_addConfig follows).bind fun _ => Gathers.foldlM _
        (fun t member done => along rfl (fun _ => rfl) t member) done).congr fun θ => ?_
      rw [runs_nil]
      constructor
      · rintro (rfl | reached)
        · refine ⟨.inr ⟨inner, ?_⟩, .inl rfl⟩
          rw [← follows.state]
          exact epsilonOnly
        · obtain ⟨t, member, θ', leads, settled, run⟩ := reached
          exact ⟨settled, .inr ((later settled).2 ⟨t, member, θ', leads, settled, run⟩)⟩
      · rintro ⟨settled, rfl | reached⟩
        · exact .inl rfl
        · exact .inr ((later settled).1 reached)
    | true =>
      simp only [Bool.not_true, Bool.false_eq_true, if_false]
      refine (Gathers.foldlM _
        (fun t member done => along rfl (fun _ => rfl) t member) done).congr fun θ => ?_
      rw [runs_nil]
      constructor
      · rintro ⟨t, member, θ', leads, settled, run⟩
        exact ⟨settled, .inr ((later settled).2 ⟨t, member, θ', leads, settled, run⟩)⟩
      · rintro ⟨settled, rfl | reached⟩
        · rcases settled with ⟨isStop, -⟩ | ⟨-, notOnly⟩
          · rw [inner] at isStop
            cases isStop
          · rw [← follows.state, epsilonOnly] at notOnly
            cases notOnly
        · exact (later settled).1 reached

/-- In a network without silent circles every closure ends and gathers the settled threads. -/
theorem exists_handles (plain : net.Plain) (wf : WellFounded fun θ' θ => θ' ∈ net.silentNext θ)
    (θ : Thread) : ∃ bound, Handles η net bound θ := by
  induction θ using wf.induction with
  | h θ ih =>
    obtain ⟨n, stack⟩ := θ
    obtain ⟨bound, handles⟩ := exists_handles_all ih
    cases isStop : net.isStop n with
    | true => exact ⟨bound + 1, handles_stop isStop handles⟩
    | false => exact ⟨bound + 1, handles_inner plain isStop handles⟩

end Lexer

end AdaptiveLL
