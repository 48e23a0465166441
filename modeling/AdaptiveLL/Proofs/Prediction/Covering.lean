import AdaptiveLL.Proofs.Prediction.Modes
import AdaptiveLL.Proofs.Prediction.Steps

/-!
# Local context covers full context

A prediction with full context follows exact call stacks; with local context the bottom of the stack is any
caller, and the closure passes on behind every call of the rule. Both are compared with the threads of the
network that run from the alternatives with the exact stack (`Reached`): full context has no others
(`simulates_sound`), and local context has all of them that can consume (`simulates_complete`), since the
states to which a thread returns are behind calls of its rules (`Home`).
-/

set_option autoImplicit false

namespace AdaptiveLL

namespace Network

variable {net : Network} {g : Grammar} {lo hi : Int}

/-! ## Stacks of calls -/

/-- The stack of a thread within a rule: each state on it is behind a call of the rule below, within the
rule that goes on there. -/
inductive Homeward (net : Network) : Nat → List Nat → Prop
  | outermost (r : Nat) : Homeward net r []
  | back {r ret q : Nat} {stack : List Nat} (edge : ∀ stop, net.EndsRule r stop → .free ret ∈ net.moves stop)
      (owner : (net.state ret).rule = some q) (outer : Homeward net q stack) : Homeward net r (ret :: stack)

/-- The thread is in a rule and returns to callers of the rule. -/
def Home (net : Network) (θ : Thread) : Prop :=
  ∃ r, (net.state θ.state).rule = some r ∧ net.Homeward r θ.stack

theorem Home.silent (built : net.Built g) (returning : net.Returning) {θ θ' : Thread} (home : net.Home θ)
    (step : θ' ∈ net.silentNext θ) : net.Home θ' := by
  obtain ⟨n, stack⟩ := θ
  obtain ⟨r, owned, homeward⟩ := home
  unfold silentNext at step
  cases isStop : net.isStop n with
  | true =>
    simp only [isStop, if_true] at step
    cases homeward with
    | outermost => cases step
    | back edge owner outer =>
      obtain rfl := List.mem_singleton.1 step
      exact ⟨_, owner, outer⟩
  | false =>
    simp only [isStop, Bool.false_eq_true, if_false] at step
    obtain ⟨move, member, next⟩ := List.mem_filterMap.1 step
    have owner := built.owner n r owned isStop move member
    cases move with
    | free m =>
      cases next
      exact ⟨r, owner, homeward⟩
    | consume m => cases next
    | call r' start follow =>
      cases next
      obtain ⟨known, rfl⟩ := built.calls n r' start follow isStop member
      exact ⟨r', built.startRule r' known, .back (returning n r' _ follow isStop member) owner homeward⟩

theorem Home.consume (built : net.Built g) {θ θ' : Thread} {symbol : Int} (home : net.Home θ)
    (step : θ' ∈ net.consumeNext lo hi symbol θ) : net.Home θ' := by
  obtain ⟨n, stack⟩ := θ
  obtain ⟨r, owned, homeward⟩ := home
  obtain ⟨inner, t, member, accepts, rfl⟩ := mem_consumeNext.1 step
  have owner := built.owner n r owned inner t.move (List.mem_map_of_mem member)
  rw [Transition.move_of_accepts accepts] at owner
  exact ⟨r, owner, homeward⟩

theorem Home.runs (built : net.Built g) (returning : net.Returning) {θ θ' : Thread} {w : List Int}
    (home : net.Home θ) (run : net.Runs lo hi θ w θ') : net.Home θ' := by
  induction run with
  | stay θ => exact home
  | silent step rest ih => exact ih (home.silent built returning step)
  | consume step rest ih => exact ih (home.consume built step)

/-! ## Call stacks -/

/-- The state calls the rule. -/
def Calls (net : Network) (s r : Nat) : Prop := ∃ t ∈ net.out s, ∃ q follow, t.label = .rule r q follow

/-- A stack of calling states, innermost first, on which each state calls the rule of the next frame, and
the innermost one the given rule. -/
inductive Invoked (net : Network) : List Nat → Nat → Prop
  | outermost (r : Nat) : Invoked net [] r
  | call {s q r : Nat} {stack : List Nat} (owner : (net.state s).rule = some q) (calls : net.Calls s r)
      (outer : Invoked net stack q) : Invoked net (s :: stack) r

theorem Invoked.homeward (built : net.Built g) (walkable : net.Walkable) (returning : net.Returning)
    {stack : List Nat} {r : Nat} (invoked : net.Invoked stack r) :
    net.Homeward r (stack.filterMap net.follow?) := by
  induction invoked with
  | outermost r => exact .outermost r
  | @call s q r stack owner calls outer ih =>
    obtain ⟨t, member, p, follow, label⟩ := calls
    have move : t.move = .call r t.target follow := by simp [Transition.move, label]
    have among : .call r t.target follow ∈ net.moves s := List.mem_map.2 ⟨t, member, move⟩
    have inner : net.isStop s = false := by
      refine Bool.eq_false_iff.2 fun isStop => ?_
      obtain ⟨m, free⟩ := built.returns s isStop _ among
      cases free
    rw [List.filterMap_cons_some (walkable.call s r p follow inner t member label).2.2]
    have behind := built.owner s q owner inner _ among
    exact .back (returning s r t.target follow inner among) behind ih

end Network

namespace Prediction

open Network

variable {η : Type} {env : Env η} {g : Grammar} {w : Work η} {c : Config} {a : Nat} {θ θ' : Thread}

/-! ## What a closure with local context reaches -/

/-- A closure with local context that has handled a configuration has handled what follows silently. -/
theorem Handled.next (handled : Handled env.net false w c)
    (expanded : ∀ d ∈ w.busy, Expanded env.net false w d) (stands : c.Stands true a θ) (home : env.net.Home θ)
    (step : θ' ∈ env.net.silentNext θ) : ∃ c', Handled env.net false w c' ∧ c'.Stands true a θ' := by
  obtain ⟨n, stack⟩ := θ
  obtain ⟨alt, rfl, context⟩ := stands
  obtain @⟨_, rests, moves, returns, leaves⟩ := handled
  unfold silentNext at step
  cases isStop : env.net.isStop c.state with
  | true =>
    simp only [isStop, if_true] at step
    obtain ⟨r, owned, homeward⟩ := home
    cases homeward with
    | outermost => cases step
    | @back _ ret q τ edge owner outer =>
      obtain rfl := List.mem_singleton.1 step
      rcases context.entry with ⟨parent, member, -⟩ | ⟨m, parent, τ', member, same, further⟩
      · obtain ⟨t, among, free⟩ := List.mem_map.1 (edge c.state ⟨isStop, owned⟩)
        obtain rfl : t.target = ret := by
          unfold Transition.move at free
          split at free
          · cases free
          · split at free
            · exact Move.free.inj free
            · cases free
        obtain ⟨next, state, alt', context', noted⟩ := leaves isStop rfl parent member t among free
        obtain ⟨b, same, handled'⟩ := expanded _ noted
        have sameState : b.identity.state = next.identity.state := by rw [same]
        have sameAlt : b.identity.alt = next.identity.alt := by rw [same]
        have sameContext : b.identity.context = next.identity.context := by rw [same]
        dsimp only [Config.identity] at sameState sameAlt sameContext
        refine ⟨b, handled', sameAlt.trans (alt'.trans alt), sameState.trans state, ?_⟩
        rw [sameContext, context']
        exact Context.stands_of_bottom member (.inl rfl)
      · obtain ⟨rfl, rfl⟩ := List.cons.inj same
        exact ⟨_, returns isStop _ parent member, alt, rfl, further⟩
  | false =>
    simp only [isStop, Bool.false_eq_true, if_false] at step
    obtain ⟨move, member, next⟩ := List.mem_filterMap.1 step
    obtain ⟨t, among, rfl⟩ := List.mem_map.1 member
    have free : t.label.isEpsilon = true := by
      unfold Transition.move at next
      split at next
      · rename_i label
        rw [label]
        rfl
      · split at next
        · assumption
        · cases next
    exact ⟨follow c t, moves isStop t among free, (stands_follow free).2 ⟨stack, ⟨alt, rfl, context⟩, next⟩⟩

/-- A closure with local context has every thread at which a silent run comes to rest. -/
theorem Handled.runs (built : env.net.Built g) (returning : env.net.Returning)
    (handled : Handled env.net false w c) (expanded : ∀ d ∈ w.busy, Expanded env.net false w d)
    (stands : c.Stands true a θ) (home : env.net.Home θ) {lo hi : Int} (run : env.net.Runs lo hi θ [] θ')
    (inner : env.net.isStop θ'.state = false) (consumes : (env.net.state θ'.state).epsilonOnly = false) :
    w.configs.Has false a θ' := by
  generalize nothing : ([] : List Int) = v at run
  induction run generalizing c with
  | stay θ =>
    obtain @⟨_, rests, -, -, -⟩ := handled
    have state := stands.2.1
    exact rests (state ▸ inner) (state ▸ consumes) a θ stands
  | silent step rest ih =>
    subst nothing
    obtain ⟨c', handled', stands'⟩ := handled.next expanded stands home step
    exact ih handled' stands' (home.silent built returning step) inner consumes rfl
  | consume => cases nothing

/-! ## Simulations -/

/-- The thread of an alternative that runs from the start of the decision through the word. -/
def Reached (env : Env η) (stack : List Nat) (w : List Int) (a : Nat) (θ : Thread) : Prop :=
  ∃ i t, a = i + 1 ∧ (env.net.out env.startState)[i]? = some t ∧
    env.net.Runs 0 env.net.maxTokenType ⟨t.target, stack⟩ w θ

theorem Reached.closed (stack : List Nat) (w : List Int) : Closed env.net (Reached env stack w) := by
  rintro a θ θ' ⟨i, t, rfl, found, run⟩ step
  refine ⟨i, t, rfl, found, ?_⟩
  simpa using run.append (.silent step (.stay θ'))

/-- What a prediction reaches behind the tokens, as long as more than one alternative is left before the
last of them; none if it ends there in an error. The remembered merges are right. -/
inductive Simulates (env : Env η) (full : Bool) (context : Context) : List Int → Option ConfigSet → Prop
  | start {scratch scratch' : Scratch η} {s : ConfigSet} (faithful : scratch.merges.Faithful (!full))
      (run : (startSet env context full).run scratch = some (s, scratch')) : Simulates env full context [] (some s)
  | step {w : List Int} {x : Int} {s : ConfigSet} {result : Option ConfigSet} {scratch scratch' : Scratch η}
      (before : Simulates env full context w (some s)) (undecided : w = [] ∨ s.sharedAlt = invalidAlt)
      (faithful : scratch.merges.Faithful (!full))
      (run : (reachSet env s x full).run scratch = some (result, scratch')) :
      Simulates env full context (w ++ [x]) result

/-- With full context, a configuration that is not at the end of a rule has threads that run through the
tokens. They can consume, unless the closure was left out because one alternative is left. -/
theorem simulates_sound (unguarded : env.net.Unguarded) {context : Context} {stack : List Nat}
    (formed : context.WellFormed) (present : context ≠ .nil) (exact' : ∀ σ, context.Stands false σ → σ = stack)
    {w : List Int} {result : Option ConfigSet} (simulates : Simulates env true context w result) (s : ConfigSet)
    (same : result = some s) : (endOfInput ∈ w ∧ allAtStop env.net s = true) ∨
      (s.Plain true ∧ endOfInput ∉ w ∧ ∀ a θ, s.Has true a θ → env.net.isStop θ.state = true ∨
        Reached env stack w a θ ∧ (env.net.Rests θ.state ∨ w ≠ [] ∧ s.sharedAlt ≠ invalidAlt)) := by
  induction simulates generalizing s with
  | @start scratch scratch' s' faithful run =>
    cases same
    obtain ⟨plain, -, sound, -⟩ := startSet_spec unguarded (Reached.closed stack []) faithful
      formed present (fun _ i t found a θ stands => by
        obtain ⟨rfl, state, context'⟩ := stands
        obtain ⟨n, σ⟩ := θ
        obtain rfl := exact' σ context'
        obtain rfl : t.target = n := state
        exact ⟨i, t, rfl, found, .stay _⟩) s' scratch' run
    refine .inr ⟨plain, by simp, fun a θ known => .inr ?_⟩
    obtain ⟨reached, rests⟩ := sound rfl a θ known
    exact ⟨reached, .inl rests⟩
  | @step w x s₁ result scratch scratch' before undecided faithful run ih =>
    have finished (known : x = endOfInput ∨ allAtStop env.net s₁ = true) : allAtStop env.net s = true :=
      reachSet_atStop known result scratch' run s same
    rcases ih s₁ rfl with ⟨ended, atStop⟩ | ⟨plain, noEof, known⟩
    · exact .inl ⟨List.mem_append_left _ ended, finished (.inr atStop)⟩
    · by_cases isEof : x = endOfInput
      · exact .inl ⟨by simp [isEof], finished (.inl isEof)⟩
      · have noEof' : endOfInput ∉ w ++ [x] := by simp [noEof, Ne.symm isEof]
        have sound (a : Nat) (θ' : Thread) (consumed : Consumed env true s₁ x a θ') :
            Reached env stack (w ++ [x]) a θ' := by
          obtain ⟨θ, has, step⟩ := consumed
          rcases known a θ has with isStop | ⟨⟨i, t, rfl, found, run'⟩, -⟩
          · simp [consumeNext, isStop] at step
          · exact ⟨i, t, rfl, found, runs_snoc.2 ⟨θ, run', θ', step, .stay θ'⟩⟩
        refine .inr ?_
        have behind := reachSet_behind unguarded (Reached.closed stack (w ++ [x])) plain faithful isEof
          (fun _ => sound) result scratch' run
        cases behind with
        | @decided moved moves unique same' =>
          rw [same] at same'
          split at same'
          · cases same'
          · cases same'
            exact ⟨moves.plain, noEof', fun a θ has => .inr ⟨sound a θ (moves.only rfl a θ has),
              .inr ⟨by simp, unique⟩⟩⟩
        | @closed moved reach last w₁ w₂ moves closes retains same' =>
          rw [same] at same'
          split at same'
          · cases same'
          · cases same'
            refine ⟨retains.plain, noEof', fun a θ has => ?_⟩
            rcases retains.only rfl a θ has with added | isStop
            · obtain ⟨reached, rests⟩ := (closes.sound rfl a θ added).resolve_left ConfigSet.not_has_ofParser
              exact .inr ⟨reached, .inl rests⟩
            · exact .inl isStop

/-- Where a symbol is consumed, something else than silence is possible. -/
theorem consumes_of_step (refreshed : env.net.Refreshed) {x lo hi : Int}
    (step : θ' ∈ env.net.consumeNext lo hi x θ) :
    env.net.isStop θ.state = false ∧ (env.net.state θ.state).epsilonOnly = false := by
  obtain ⟨n, stack⟩ := θ
  obtain ⟨inner, t, member, accepts, -⟩ := mem_consumeNext.1 step
  have consumes := Label.isEpsilon_of_accepts accepts
  refine ⟨inner, ?_⟩
  rw [refreshed n, Bool.and_eq_false_iff]
  exact .inr (List.all_eq_false.2 ⟨t, member, by simp [consumes]⟩)

theorem isEmpty_of_mem {s : ConfigSet} {c : Config} (member : c ∈ s.configs) : s.isEmpty = false := by
  rw [ConfigSet.isEmpty, Array.isEmpty_eq_false_iff]
  exact Array.ne_empty_of_mem member

/-- With local context, every thread that runs through the tokens to where it can consume is in the set, or
at least its alternative is, if the closure was left out because one alternative is left. -/
theorem simulates_complete (built : env.net.Built g) (returning : env.net.Returning)
    (refreshed : env.net.Refreshed) (unguarded : env.net.Unguarded) {stack : List Nat} (home : ∀ (i : Nat) (t : Transition), (env.net.out env.startState)[i]? = some t →
      env.net.Home ⟨t.target, stack⟩) {w : List Int} {result : Option ConfigSet}
    (simulates : Simulates env false .empty w result) (noEof : endOfInput ∉ w) :
    (∀ s, result = some s → s.Plain false) ∧ ∀ a θ, Reached env stack w a θ → env.net.isStop θ.state = false →
      (env.net.state θ.state).epsilonOnly = false → ∃ s, result = some s ∧
        (w = [] ∨ s.sharedAlt = invalidAlt → s.Has false a θ) ∧ ∃ c ∈ s.configs, c.alt = a := by
  have anything : Closed env.net fun _ _ => True := fun _ _ _ _ _ => trivial
  induction simulates with
  | @start scratch scratch' s faithful run =>
    obtain ⟨plain, -, -, covers⟩ := startSet_spec unguarded anything faithful
      Context.wellFormed_empty Context.empty_ne_nil nofun s scratch' run
    refine ⟨fun s' same => Option.some.inj same ▸ plain, ?_⟩
    rintro a θ ⟨i, t, rfl, found, run'⟩ inner consumes
    obtain ⟨work, within, expanded, handled⟩ := covers i t found
    have has := within _ _ (handled.runs built returning expanded
      (⟨rfl, rfl, Context.stands_empty.2 (.inl rfl)⟩ : (first i t .empty).Stands true (i + 1) ⟨t.target, stack⟩)
      (home i t found) run' inner consumes)
    refine ⟨s, rfl, fun _ => has, ?_⟩
    obtain ⟨c, member, alt, -⟩ := has
    exact ⟨c, member, alt⟩
  | @step w x s₁ result scratch scratch' before undecided faithful run ih =>
    have noEofBefore : endOfInput ∉ w := fun member => noEof (List.mem_append_left _ member)
    have isEof : x ≠ endOfInput := fun same => noEof (by simp [same])
    obtain ⟨plains, complete⟩ := ih noEofBefore
    have behind := reachSet_behind unguarded anything (plains s₁ rfl) faithful isEof nofun result scratch' run
    -- A thread comes through the last token from where it could consume it.
    have consumed (a : Nat) (θ'' : Thread) (reached : Reached env stack (w ++ [x]) a θ'') :
        ∃ θ', Consumed env false s₁ x a θ' ∧ env.net.Home θ' ∧
          env.net.Runs 0 env.net.maxTokenType θ' [] θ'' := by
      obtain ⟨i, t, rfl, found, run'⟩ := reached
      obtain ⟨θ, before', θ', step, after⟩ := runs_snoc.1 run'
      have homeward : env.net.Home θ' :=
        ((home i t found).runs built returning before').consume built step
      obtain ⟨inner, consumes⟩ := consumes_of_step refreshed step
      obtain ⟨s', same, has, -⟩ := complete (i + 1) θ ⟨i, t, rfl, found, before'⟩ inner consumes
      cases same
      exact ⟨θ', ⟨θ, has undecided, step⟩, homeward, after⟩
    cases behind with
    | @decided moved moves unique same =>
      refine ⟨fun s same' => ?_, fun a θ reached inner consumes => ?_⟩
      · rw [same'] at same
        split at same
        · cases same
        · cases same
          exact moves.plain
      · obtain ⟨θ', consumed', -, -⟩ := consumed a θ reached
        obtain ⟨c, member, alt, -⟩ := moves.has a θ' consumed'
        have some' : moved.isEmpty = false := isEmpty_of_mem member
        rw [some', if_neg Bool.false_ne_true] at same
        exact ⟨moved, same, fun closed => absurd (closed.resolve_left (by simp)) unique, c, member, alt⟩
    | @closed moved reach last w₁ w₂ moves closes retains same =>
      refine ⟨fun s same' => ?_, fun a θ reached inner consumes => ?_⟩
      · rw [same'] at same
        split at same
        · cases same
        · cases same
          exact retains.plain
      · obtain ⟨θ', consumed', homeward, after⟩ := consumed a θ reached
        obtain ⟨c, member, stands⟩ := moves.has a θ' consumed'
        obtain ⟨work, within, expanded, handled⟩ := closes.covers c (Array.mem_toList_iff.2 member)
        have has := retains.kept _ _ (within _ _
          (handled.runs built returning expanded stands homeward after inner consumes))
        obtain ⟨d, among, alt, -⟩ := id has
        have some' : last.isEmpty = false := isEmpty_of_mem among
        rw [some', if_neg Bool.false_ne_true] at same
        exact ⟨last, same, fun _ => has, d, among, alt⟩

/-- What the reference reaches behind the tokens, the last of which comes first. -/
def Reference.reached (env : Env η) (full : Bool) (context : Context) : List Int → Option (Option ConfigSet)
  | [] => (Reference.startSet env context full).map some
  | x :: before => (Reference.reached env full context before).join.bind fun s =>
    if x = endOfInput ∨ (before ≠ [] ∧ s.sharedAlt ≠ invalidAlt) then none else Reference.reachSet env s x full

/-- What the reference reaches is reached by a prediction that remembers nothing at first. -/
theorem simulates_of_reached (hooks : η) (unguarded : env.net.Unguarded) {full : Bool} {context : Context}
    (formed : context.WellFormed) (present : context ≠ .nil) {w : List Int} {result : Option ConfigSet}
    (found : Reference.reached env full context w = some result) :
    Simulates env full context w.reverse result ∧ ∀ s, result = some s → s.Formed full := by
  have nothing : (({ hooks } : Scratch η).merges).Faithful (!full) := Context.Memo.faithful_empty _
  induction w generalizing result with
  | nil =>
    obtain ⟨s, starts, rfl⟩ := Option.map_eq_some_iff.1 found
    obtain ⟨_, scratch', run, rfl, formed', -⟩ :=
      Reference.startSet_yields unguarded formed present nothing starts
    exact ⟨.start nothing run, fun s' same => Option.some.inj same ▸ formed'⟩
  | cons x before ih =>
    obtain ⟨s, joined, next⟩ := Option.bind_eq_some_iff.1 found
    obtain ⟨simulates, formed'⟩ := ih (Option.join_eq_some_iff.1 joined)
    split at next
    · cases next
    · rename_i goesOn
      obtain ⟨noEof, undecided⟩ := not_or.1 goesOn
      have open' : before.reverse = [] ∨ s.sharedAlt = invalidAlt := by
        rw [List.reverse_eq_nil_iff]
        exact (not_and_or.1 undecided).imp not_not.1 not_not.1
      obtain ⟨_, scratch', run, rfl, formed'', -⟩ :=
        Reference.reachSet_yields unguarded (formed' s rfl) nothing noEof next
      rw [List.reverse_cons]
      exact ⟨.step simulates open' nothing run, formed''⟩

/-! ## Covering -/

/-- The configuration goes on silently, with one of its exact stacks, to where a symbol can be consumed. -/
def GoesOn (net : Network) (c : Config) : Prop := ∃ stack θ, c.context.Stands false stack ∧
  net.Runs 0 net.maxTokenType ⟨c.state, stack⟩ [] θ ∧ net.isStop θ.state = false ∧
    (net.state θ.state).epsilonOnly = false

/-- Whatever alternative full context keeps inside a rule, local context keeps as well. Where full context
left out the closure, because one alternative was left, that alternative has to lead to where a symbol can be
consumed. -/
theorem local_covers_full {compiled : CompiledGrammar} {net : Network} {verify : Bool} {callStack : List Nat}
    {r : Nat} {tokens : List Int} {reach : ConfigSet} {reachLocal : Option ConfigSet}
    (assembled : g.Assembled) (representable : g.Representable) (run : g.compile = .ok compiled)
    (decoded : decode compiled.words verify = .ok net) (parser : g.isLexer = false) (unguarded : net.Unguarded)
    (onNet : env.net = net) (known : env.decision < net.decisions.size)
    (starts : env.startState = net.decisions.getD env.decision 0)
    (owner : (net.decisionState env.decision).rule = some r) (invoked : net.Invoked callStack.reverse r)
    (runFull : Simulates env true (.ofCallStack net callStack) tokens (some reach))
    (runLocal : Simulates env false .empty tokens reachLocal) (member : c ∈ reach.configs)
    (inner : net.isStop c.state = false)
    (onward : tokens = [] ∨ reach.sharedAlt = invalidAlt ∨ GoesOn net c) :
    ∃ s, reachLocal = some s ∧ ∃ d ∈ s.configs, d.alt = c.alt := by
  subst onNet
  obtain ⟨built, refreshed⟩ := Grammar.compile_built assembled run decoded
  have walkable := Grammar.compile_walkable assembled representable run decoded
  have returning := Grammar.compile_returning assembled representable run decoded
  obtain ⟨r', owner', notStop, free⟩ := Grammar.compile_decisionState assembled representable run decoded parser known
  obtain rfl : r = r' := Option.some.inj (owner.symm.trans owner')
  let stack := (env.net.follows callStack).reverse
  have home (i : Nat) (t : Transition) (found : (env.net.out env.startState)[i]? = some t) :
      env.net.Home ⟨t.target, stack⟩ := by
    rw [starts] at found
    have among := List.mem_of_getElem? found
    have move : t.move = .free t.target := by simp [Transition.move, free t among, Label.isEpsilon]
    have stays := built.owner _ r owner notStop t.move (List.mem_map_of_mem among)
    rw [move] at stays
    refine ⟨r, stays, ?_⟩
    have homeward := invoked.homeward built walkable returning
    rwa [List.filterMap_reverse] at homeward
  obtain ⟨formed, present⟩ := Context.wellFormed_ofCallStack env.net callStack
  rcases simulates_sound unguarded formed present (fun σ => Context.stands_ofCallStack) runFull reach rfl with
    ⟨-, atStop⟩ | ⟨plain, noEof, sound⟩
  · exact Bool.noConfusion (inner.symm.trans (allAtStop_iff.1 atStop c member))
  -- Some thread of the alternative can consume.
  have has (σ : List Nat) (stands : c.context.Stands false σ) :
      Reached env stack tokens c.alt ⟨c.state, σ⟩ ∧ (env.net.Rests c.state ∨ tokens ≠ [] ∧ reach.sharedAlt ≠ invalidAlt) :=
    (sound c.alt ⟨c.state, σ⟩ ⟨c, member, rfl, rfl, stands⟩).resolve_left fun isStop =>
      Bool.noConfusion (inner.symm.trans isStop)
  obtain ⟨θ, reached, innerθ, consumes⟩ : ∃ θ, Reached env stack tokens c.alt θ ∧ env.net.isStop θ.state = false ∧
      (env.net.state θ.state).epsilonOnly = false := by
    have resting (closed : tokens = [] ∨ reach.sharedAlt = invalidAlt) : ∃ θ, Reached env stack tokens c.alt θ ∧
        env.net.isStop θ.state = false ∧ (env.net.state θ.state).epsilonOnly = false := by
      obtain ⟨σ, stands⟩ := Context.exists_stands (plain.configs c member).formed (plain.configs c member).present
      obtain ⟨reached, rests⟩ := has σ stands
      refine ⟨⟨c.state, σ⟩, reached, inner, ?_⟩
      rcases rests with (isStop | consumes) | ⟨some', shared⟩
      · exact Bool.noConfusion (inner.symm.trans isStop)
      · exact consumes
      · rcases closed with none' | none'
        · exact absurd none' some'
        · exact absurd none' shared
    rcases onward with none' | none' | ⟨σ, θ, stands, silent, innerθ, consumes⟩
    · exact resting (.inl none')
    · exact resting (.inr none')
    · obtain ⟨⟨i, t, isAlt, found, run'⟩, -⟩ := has σ stands
      refine ⟨θ, ⟨i, t, isAlt, found, ?_⟩, innerθ, consumes⟩
      simpa using run'.append silent
  obtain ⟨s, same, -, d, among, alt⟩ :=
    (simulates_complete built returning refreshed unguarded home runLocal noEof).2 c.alt θ reached innerθ consumes
  exact ⟨s, same, d, among, alt⟩

/-- A grammar in which a rule that may be empty is called from two places. -/
def crossing : Grammar :=
  let vocabulary : GrammarInfo :=
    { literalNames := [none, some "'a'", some "'b'", some "'c'", some "'d'", some "'e'"] }
  (((Grammar.parser "Crossing" vocabulary).rule "r"
    (.alt [.seq [.rule "q" 0, .literal "b"], .seq [.literal "a", .rule "r" 0]])).rule "q"
    (.alt [.literal "c", .seq [], .seq [.literal "c", .literal "d"]])).rule "x"
    (.seq [.rule "q" 0, .literal "c", .literal "b", .literal "e"])

/-- The words of the grammar. -/
@[irreducible]
def crossingCompiled : CompiledGrammar := crossing.compile.toOption.getD default

/-- The network of the grammar. -/
@[irreducible]
def crossingNetwork : Network := (decode crossingCompiled.words true).toOption.getD default

/-- The decision between the alternatives of the rule that is called. -/
def crossingEnv : Env Unit where
  net := crossingNetwork
  decision := 1
  startState := crossingNetwork.decisions.getD 1 0
  precedenceLoop := false
  evaluator := { predicate := fun _ _ h => (true, h), precedence := fun _ h => (true, h) }
  fuel := 20

theorem crossing_assembled : crossing.Assembled :=
  .rule "x" _ (.rule "q" _ (.rule "r" _ (.parser "Crossing" _)))

/-- The grammar is written and read back, its network has ranks, and its rule is called from another one. -/
theorem crossing_read :
    (crossing.compile = .ok crossingCompiled ∧ decode crossingCompiled.words true = .ok crossingNetwork) ∧
      crossingNetwork.Progressive ∧ crossingEnv.decision < crossingNetwork.decisions.size ∧
      (crossingNetwork.decisionState crossingEnv.decision).rule = some 1 ∧ crossingNetwork.Invoked [6] 1 := by
  refine ⟨⟨?compiles, ?decodes⟩, progressive_of_rank
    (fun n => [8, 0, 5, 0, 7, 0, 6, 1, 0, 2, 0, 10, 9, 2, 7, 1, 0, 2, 3, 2, 0, 1, 0, 2, 4, 1, 6, 1, 0, 1, 0, 1, 0,
      1].getD n 0)
    (fun n => [1, 2, 3, 5, 9, 13, 15, 17, 18, 19, 23, 24, 25, 33].contains n) ?stops ?falls, ?known, ?owned, ?invoked⟩
  case compiles =>
    rw [crossingCompiled]
    exact except_ok_getD (by decide +kernel)
  case decodes =>
    rw [crossingNetwork]
    exact except_ok_getD (by decide +kernel)
  case stops => decide +kernel
  case falls => decide +kernel
  case known => decide +kernel
  case owned => decide +kernel
  case invoked =>
    have owner : (crossingNetwork.state 6).rule = some 0 := by decide +kernel
    have called : (crossingNetwork.out 6)[0]?.map (·.label) = some (.rule 1 0 7) := by decide +kernel
    obtain ⟨t, found, label⟩ := Option.map_eq_some_iff.1 called
    exact .call owner ⟨t, List.mem_of_getElem? found, 0, 7, label⟩ (.outermost 0)

theorem crossing_leaves {r : RuleDef} (member : r ∈ crossing.rules) {e : Element} (leaf : e ∈ r.body.leaves) :
    e.Representable ∧ e.isGuard = false := by
  rcases List.mem_cons.1 member with rfl | member
  · simp only [Element.leaves, Element.leavesAll, List.append_nil, List.cons_append, List.nil_append,
      List.mem_cons, List.not_mem_nil, or_false] at leaf
    rcases leaf with rfl | rfl | rfl | rfl <;> exact ⟨trivial, rfl⟩
  rcases List.mem_cons.1 member with rfl | member
  · simp only [Element.leaves, Element.leavesAll, List.append_nil, List.cons_append, List.nil_append,
      List.mem_cons, List.not_mem_nil, or_false] at leaf
    rcases leaf with rfl | rfl | rfl <;> exact ⟨trivial, rfl⟩
  · obtain rfl := List.mem_singleton.1 member
    simp only [Element.leaves, Element.leavesAll, List.append_nil, List.cons_append, List.nil_append,
      List.mem_cons, List.not_mem_nil, or_false] at leaf
    rcases leaf with rfl | rfl | rfl | rfl <;> exact ⟨trivial, rfl⟩

theorem crossing_representable : crossing.Representable := fun _ member _ leaf => (crossing_leaves member leaf).1

theorem crossingNetwork_unguarded : crossingNetwork.Unguarded :=
  Grammar.compile_unguarded crossing_assembled crossing_representable crossing_read.1.1 crossing_read.1.2
    fun _ member _ leaf => (crossing_leaves member leaf).2

/-- What the reference reaches over the crossing grammar is reached by a prediction. -/
theorem crossing_simulates {full : Bool} {context : Context} (formed : context.WellFormed)
    (present : context ≠ .nil) (w : List Int) {holds : ConfigSet → Bool}
    (found : (Reference.reached crossingEnv full context w).join.any holds = true) :
    ∃ s, Simulates crossingEnv full context w.reverse (some s) ∧ holds s = true := by
  obtain ⟨s, joined, known⟩ := (Option.any_eq_true _ _).1 found
  have unguarded : crossingEnv.net.Unguarded := crossingNetwork_unguarded
  exact ⟨s, (simulates_of_reached () unguarded formed present (Option.join_eq_some_iff.1 joined)).1, known⟩

/-- Behind one token full context still goes on with the first alternative, and behind two tokens local context has
left it where full context has not. -/
theorem crossing_reached :
    (Reference.reached crossingEnv true (.ofCallStack crossingNetwork [6]) [3]).join.any (fun s =>
        s.sharedAlt == invalidAlt && s.configs.any fun c => c.alt == 1 && !crossingNetwork.isStop c.state) = true ∧
      (Reference.reached crossingEnv false .empty [3]).join.any (fun _ => true) = true ∧
      (Reference.reached crossingEnv true (.ofCallStack crossingNetwork [6]) [2, 3]).join.any (fun s =>
        s.configs.any fun c => c.alt == 1 && !crossingNetwork.isStop c.state) = true ∧
      (Reference.reached crossingEnv false .empty [2, 3]).join.any (fun s => s.configs.all (·.alt != 1)) = true := by
  decide +kernel

/-- When both are left with one alternative at once, local context may keep another one than full context
does: behind the empty rule, what follows it in its other caller goes on, where the caller itself ends. -/
theorem local_drops_alternative : (crossing.Assembled ∧ crossing.Representable ∧
      crossing.compile = .ok crossingCompiled ∧ decode crossingCompiled.words true = .ok crossingNetwork ∧
      crossing.isLexer = false) ∧
    (crossingNetwork.Unguarded ∧ crossingNetwork.Progressive) ∧
    ((crossingNetwork.decisionState 1).rule = some 1 ∧ crossingNetwork.Invoked [6] 1) ∧
    ∃ reach reachLocal, Simulates crossingEnv true (.ofCallStack crossingNetwork [6]) [3, 2] (some reach) ∧
      Simulates crossingEnv false .empty [3, 2] (some reachLocal) ∧
      ∃ c ∈ reach.configs, crossingNetwork.isStop c.state = false ∧ ∀ d ∈ reachLocal.configs, d.alt ≠ c.alt := by
  obtain ⟨⟨compiles, decodes⟩, progressive, -, owned, invoked⟩ := crossing_read
  obtain ⟨-, -, fullKeeps, localDrops⟩ := crossing_reached
  refine ⟨⟨crossing_assembled, crossing_representable, compiles, decodes, rfl⟩,
    ⟨crossingNetwork_unguarded, progressive⟩, ⟨owned, invoked⟩, ?_⟩
  obtain ⟨formed, present⟩ := Context.wellFormed_ofCallStack crossingNetwork [6]
  obtain ⟨reach, full, keeps⟩ : ∃ s, Simulates crossingEnv true (.ofCallStack crossingNetwork [6]) [3, 2] (some s) ∧
      s.configs.any (fun c => c.alt == 1 && !crossingNetwork.isStop c.state) = true :=
    crossing_simulates formed present [2, 3] fullKeeps
  obtain ⟨reachLocal, short, drops⟩ : ∃ s, Simulates crossingEnv false .empty [3, 2] (some s) ∧
      s.configs.all (fun d => d.alt != 1) = true :=
    crossing_simulates Context.wellFormed_empty Context.empty_ne_nil [2, 3] localDrops
  refine ⟨reach, reachLocal, full, short, ?_⟩
  obtain ⟨i, inside, kept⟩ := Array.any_eq_true.1 keeps
  obtain ⟨alt, inner⟩ := Bool.and_eq_true_iff.1 kept
  refine ⟨_, Array.getElem_mem inside, by simpa using inner, fun d member => ?_⟩
  rw [eq_of_beq alt]
  exact bne_iff_ne.1 (Array.all_eq_true'.1 drops d member)

/-- Behind its first token, the alternative that full context keeps is kept with local context. -/
theorem local_covers_full_crossing :
    ∃ reach reachLocal, Simulates crossingEnv true (.ofCallStack crossingNetwork [6]) [3] (some reach) ∧
      Simulates crossingEnv false .empty [3] (some reachLocal) ∧
      ∃ c ∈ reach.configs, c.alt = 1 ∧ ∃ s, some reachLocal = some s ∧ ∃ d ∈ s.configs, d.alt = c.alt := by
  obtain ⟨⟨compiles, decodes⟩, -, known, owner, called⟩ := crossing_read
  obtain ⟨fullKeeps, localGoes, -, -⟩ := crossing_reached
  obtain ⟨formed, present⟩ := Context.wellFormed_ofCallStack crossingNetwork [6]
  obtain ⟨reach, full, keeps⟩ : ∃ s, Simulates crossingEnv true (.ofCallStack crossingNetwork [6]) [3] (some s) ∧
      (s.sharedAlt == invalidAlt && s.configs.any fun c => c.alt == 1 && !crossingNetwork.isStop c.state) = true :=
    crossing_simulates formed present [3] fullKeeps
  obtain ⟨reachLocal, short, -⟩ : ∃ s, Simulates crossingEnv false .empty [3] (some s) ∧ true = true :=
    crossing_simulates Context.wellFormed_empty Context.empty_ne_nil [3] localGoes
  obtain ⟨several, some'⟩ := Bool.and_eq_true_iff.1 keeps
  obtain ⟨i, inside, kept⟩ := Array.any_eq_true.1 some'
  obtain ⟨alt, inner⟩ := Bool.and_eq_true_iff.1 kept
  have starts : crossingEnv.startState = crossingNetwork.decisions.getD crossingEnv.decision 0 := rfl
  have onNet : crossingEnv.net = crossingNetwork := rfl
  have invoked : crossingNetwork.Invoked [6].reverse 1 := called
  have among := Array.getElem_mem inside
  have within : crossingNetwork.isStop reach.configs[i].state = false := by simpa using inner
  refine ⟨reach, reachLocal, full, short, _, among, eq_of_beq alt, ?_⟩
  exact local_covers_full crossing_assembled crossing_representable compiles decodes rfl crossingNetwork_unguarded
    onNet known starts owner invoked full short among within (.inr (.inl (eq_of_beq several)))

end Prediction

end AdaptiveLL
