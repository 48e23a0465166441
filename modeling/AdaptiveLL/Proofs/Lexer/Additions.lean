import AdaptiveLL.Proofs.Lexer.Automaton

/-!
# What the sets of a lexer are made of

The closure of a configuration adds that configuration and others that are reached from it step by
step. So a property that passes along these steps holds of everything a closure adds, of the start set
of a mode and of the set behind a symbol (`startSet_consists`, `reachSet_consists`). This needs nothing
of the network and nothing of the user code.
-/

set_option autoImplicit false

namespace AdaptiveLL

open Network

/-! ## Sets with a property -/

namespace ConfigSet

/-- The set keeps the order of a lexer, and all its configurations have the property. -/
structure Consists (s : ConfigSet) (P : Config → Prop) : Prop where
  ordered : s.ordered = true
  each : ∀ c ∈ s.configs, P c

variable {s : ConfigSet} {P Q : Config → Prop}

theorem consists_ofLexer : ofLexer.Consists P :=
  ⟨rfl, fun c member => by simp [ofLexer] at member⟩

theorem Consists.imp (consists : s.Consists P) (imp : ∀ c, P c → Q c) : s.Consists Q :=
  ⟨consists.ordered, fun c member => imp c (consists.each c member)⟩

theorem Consists.insert {c : Config} (consists : s.Consists P) (holds : P c) :
    (s.insert c).Consists P := by
  have ordered : (s.note c).ordered = true := consists.ordered
  rw [ConfigSet.insert, if_pos ordered, insertOrdered]
  split
  · exact ⟨consists.ordered, consists.each⟩
  · refine ⟨consists.ordered, ?_⟩
    intro d member
    rcases Array.mem_push.1 member with old | rfl
    · exact consists.each d old
    · exact holds

/-- Sets that keep the order are told apart by the identities of their configurations. -/
theorem identity_eq (ordered : s.ordered = true) :
    s.identity = s.configs.toList.map Config.identity := by
  rw [identity, key, if_pos ordered]

end ConfigSet

namespace Lexer

variable {η α β : Type} {P Q : Config → Prop}

/-! ## Computations that add -/

/-- The computation adds only configurations with the property. -/
def Adds (P : Config → Prop) (x : ClosureM η α) : Prop :=
  ∀ r a r', x.run r = some (a, r') → r.configs.Consists P → r'.configs.Consists P

namespace Adds

theorem pure (a : α) : Adds P (pure a : ClosureM η α) := by
  intro r b r' run consists
  cases run
  exact consists

/-- The rest may rely on the result being one of the first computation. -/
theorem bind {x : ClosureM η α} {f : α → ClosureM η β} (first : Adds P x)
    (rest : ∀ a, (∃ r r', x.run r = some (a, r')) → Adds P (f a)) : Adds P (x >>= f) := by
  intro r b r'' run consists
  rw [StateT.run_bind] at run
  obtain ⟨⟨a, r'⟩, ran, run'⟩ := Option.bind_eq_some_iff.1 run
  exact rest a ⟨r, r', ran⟩ r' b r'' run' (first r a r' ran consists)

theorem ite {c : Prop} [Decidable c] {x y : ClosureM η α} (yes : c → Adds P x) (no : ¬ c → Adds P y) :
    Adds P (if c then x else y) := by
  split
  · rename_i holds
    exact yes holds
  · rename_i fails
    exact no fails

theorem foldlM {f : β → α → ClosureM η β} (xs : List α) (each : ∀ x ∈ xs, ∀ b, Adds P (f b x)) (b : β) :
    Adds P (xs.foldlM f b) := by
  induction xs generalizing b with
  | nil => exact Adds.pure b
  | cons x xs ih =>
    rw [List.foldlM_cons]
    exact (each x (by simp) b).bind fun b' _ => ih (fun y member => each y (by simp [member])) b'

end Adds

theorem addConfig_adds {c : Config} (holds : P c) : Adds P (addConfig c : ClosureM η Unit) := by
  intro r a r' run consists
  cases run
  exact consists.insert holds

theorem askPredicate_adds (env : ClosureEnv η) (rule pred : Nat) : Adds P (askPredicate env rule pred) := by
  intro r a r' run consists
  cases run
  exact ⟨consists.ordered, consists.each⟩

theorem epsilonTarget_adds (env : ClosureEnv η) (c : Config) (t : Transition) :
    Adds P (epsilonTarget env c t) := by
  unfold epsilonTarget
  cases t.label with
  | predicate rule pred ctx =>
    exact (askPredicate_adds env rule pred).bind fun answer _ => Adds.ite (fun _ => Adds.pure _)
      fun _ => Adds.pure _
  | action rule place ctx =>
    simp only []
    split
    · exact Adds.pure _
    · exact Adds.pure _
  | _ => exact Adds.pure _

/-! ## Closures -/

/-- Does a closure go along a transition with this label, if the predicates hold that it asks for? -/
def crosses (atEof : Bool) (label : Label) : Bool :=
  match label with
  | .epsilon _ | .rule _ _ _ | .predicate _ _ _ | .action _ _ _ => true
  | .atom _ | .range _ _ | .set _ => atEof && label.accepts endOfInput minChar maxChar
  | .precedence _ | .notSet _ | .wildcard => false

/-- The configuration behind a transition that a closure goes along. -/
def stepped (net : Network) (c : Config) (t : Transition) : Config :=
  match t.label with
  | .rule _ _ follow => { configAt net c t.target with context := c.context.push follow }
  | .action _ action _ =>
    match action.bind fun i => net.actions[i]? with
    | some a =>
      if c.context.hasEmptyPath then { configAt net c t.target with actions := c.actions ++ [a] }
      else configAt net c t.target
    | none => configAt net c t.target
  | _ => configAt net c t.target

theorem epsilonTarget_some {env : ClosureEnv η} {c d : Config} {t : Transition} {r r' : Reached η}
    (run : (epsilonTarget env c t).run r = some (some d, r')) :
    crosses env.atEof t.label = true ∧ d = stepped env.net c t := by
  unfold epsilonTarget at run
  unfold stepped crosses
  cases label : t.label with
  | predicate rule pred ctx =>
    simp only [label, StateT.run_bind] at run
    obtain ⟨⟨answer, mid⟩, -, run'⟩ := Option.bind_eq_some_iff.1 run
    cases answer with
    | true =>
      cases run'
      exact ⟨rfl, rfl⟩
    | false => cases run'
  | action rule place ctx =>
    simp only [label] at run ⊢
    cases action : place.bind fun i => env.net.actions[i]? with
    | none =>
      simp only [action] at run
      cases run
      exact ⟨trivial, rfl⟩
    | some a =>
      simp only [action] at run
      cases run
      exact ⟨trivial, rfl⟩
  | epsilon origin =>
    rw [label] at run
    cases run
    exact ⟨rfl, rfl⟩
  | rule r p follow =>
    rw [label] at run
    cases run
    exact ⟨rfl, rfl⟩
  | precedence p => simp [label] at run
  | notSet set => simp [label] at run
  | wildcard => simp [label] at run
  | _ =>
    simp only [label] at run ⊢
    split at run
    · rename_i accepted
      cases run
      exact ⟨accepted, rfl⟩
    · cases run

/-- The property passes from a configuration to those that its closure goes on with. -/
structure Inherited (net : Network) (atEof : Bool) (P : Config → Prop) : Prop where
  returns : ∀ c, P c → net.isStop c.state = true → ∀ n parent, (some n, parent) ∈ c.context.entries →
    P (c.withContext n (if parent = .nil then .empty else parent))
  ends : ∀ c, P c → net.isStop c.state = true → c.context.hasEmptyPath = true →
    P (c.withContext c.state .empty)
  moves : ∀ c, P c → net.isStop c.state = false → ∀ t ∈ net.out c.state,
    crosses atEof t.label = true → P (stepped net c t)

/-- The property holds, and at the end of a rule nothing is left to return to. -/
def Added (net : Network) (P : Config → Prop) (c : Config) : Prop :=
  P c ∧ (net.isStop c.state = true → c.context.isEmpty = true)

theorem closure_adds {env : ClosureEnv η} (inherited : Inherited env.net env.atEof P) (fuel : Nat) (c : Config)
    (done : Bool) (holds : P c) : Adds (Added env.net P) (closure env fuel c done) := by
  induction fuel generalizing c done with
  | zero => exact fun r a r' run => nomatch run
  | succ fuel ih =>
    rw [closure]
    refine Adds.ite (fun isStop => ?_) fun inner => ?_
    · refine Adds.ite (fun isEmpty => ?_) fun _ => ?_
      · have added : Added env.net P c := ⟨holds, fun _ => isEmpty⟩
        exact (addConfig_adds added).bind fun _ _ => Adds.pure true
      refine Adds.ite (fun atBottom => ?_) fun _ => (Adds.pure done).bind fun done _ => ?_
      on_goal 1 =>
        have added : Added env.net P (c.withContext c.state .empty) :=
          ⟨inherited.ends c holds isStop atBottom, fun _ => rfl⟩
        refine (addConfig_adds added).bind fun _ _ => (Adds.pure true).bind fun done _ => ?_
      -- Whether the path ends here or not, the closure returns to the callers.
      all_goals
        apply Adds.foldlM
        rintro ⟨_ | n, parent⟩ member done
        · exact Adds.pure done
        · exact ih _ done (inherited.returns c holds isStop n parent member)
    · have isInner : env.net.isStop c.state = false := Bool.eq_false_of_not_eq_true inner
      have added : Added env.net P c := ⟨holds, fun isStop => absurd isStop inner⟩
      refine Adds.ite (fun _ => (addConfig_adds added).bind fun _ _ => ?_) fun _ => ?_
      -- Whether the configuration is added or not, the closure goes on.
      all_goals
        apply Adds.foldlM
        intro t member done
        refine (epsilonTarget_adds env c t).bind fun next reached => ?_
        obtain ⟨r, r', run⟩ := reached
        cases next with
        | none => exact Adds.pure done
        | some d =>
          obtain ⟨crossed, rfl⟩ := epsilonTarget_some run
          exact ih _ done (inherited.moves c holds isInner t member crossed)

/-! ## The start set -/

/-- The configuration with which the alternative of a transition begins. -/
def startConfig (net : Network) (t : Transition) (i : Nat) : Config :=
  { state := t.target, alt := i + 1, nonGreedy := isNonGreedy net t.target }

/-- The environment of the closures at the start of a match. -/
def startEnv (env : MatchEnv η) (input : CharStream) : ClosureEnv η :=
  { net := env.net, hooks := env.hooks, input, lookingAhead := false, atEof := false }

/-- The closures of all alternatives, one after the other. -/
def startClosures (env : MatchEnv η) (input : CharStream) (entries : List (Transition × Nat))
    (done : Bool) : ClosureM η Bool :=
  entries.foldlM (fun _ entry =>
    closure (startEnv env input) env.fuel (startConfig env.net entry.1 entry.2) false) done

theorem startSet_eq (env : MatchEnv η) (input : CharStream) (n : Nat) (hooks : η) :
    startSet env input n hooks = ((startClosures env input (env.net.out n).zipIdx false).run
      { configs := .ofLexer, hooks }).map (·.2) := by
  have fold : ∀ (entries : List (Transition × Nat)) (start : Reached η) (done : Bool),
      entries.foldlM (fun reached entry => do
        return (← (closure (startEnv env input) env.fuel (startConfig env.net entry.1 entry.2)
          false).run reached).2) start =
        ((startClosures env input entries done).run start).map (·.2) := by
    intro entries
    induction entries with
    | nil => exact fun start done => rfl
    | cons entry entries ih =>
      intro start done
      rw [startClosures, List.foldlM_cons, List.foldlM_cons, StateT.run_bind]
      cases (closure (startEnv env input) env.fuel (startConfig env.net entry.1 entry.2) false).run
          start with
      | none => rfl
      | some reached => exact ih reached.2 reached.1
  exact fold (env.net.out n).zipIdx { configs := .ofLexer, hooks } false

theorem startSet_consists {env : MatchEnv η} {input : CharStream} {n : Nat} {hooks : η}
    {reached : Reached η} (inherited : Inherited env.net false P)
    (starts : ∀ t ∈ env.net.out n, ∀ i, P (startConfig env.net t i))
    (run : startSet env input n hooks = some reached) : reached.configs.Consists (Added env.net P) := by
  rw [startSet_eq] at run
  obtain ⟨⟨done, final⟩, ran, rfl⟩ := Option.map_eq_some_iff.1 run
  refine Adds.foldlM _ (fun entry member done => ?_) _ _ _ _ ran ConfigSet.consists_ofLexer
  have inherited' : Inherited (startEnv env input).net (startEnv env input).atEof P := inherited
  apply closure_adds inherited'
  exact starts entry.1 (List.fst_mem_of_mem_zipIdx member) entry.2

/-! ## The set behind a symbol -/

/-- The configuration behind a transition that consumes a symbol. -/
def consumed (net : Network) (offset : Nat) (c : Config) (t : Transition) : Config :=
  { configAt net c t.target with actions := pinActions offset c.actions }

theorem followTransitions_adds {env : ClosureEnv η} (inherited : Inherited env.net env.atEof Q) (fuel : Nat)
    (symbol : Int) (offset : Nat) (c : Config) (done : Bool) (ts : List Transition)
    (consumes : ∀ t ∈ ts, t.label.accepts symbol minChar maxChar = true →
      Q (consumed env.net offset c t)) :
    Adds (Added env.net Q) (followTransitions env fuel symbol offset c done ts) := by
  induction ts with
  | nil => exact Adds.pure false
  | cons t ts ih =>
    have later := ih fun t' member => consumes t' (by simp [member])
    rw [followTransitions]
    refine Adds.ite (fun accepts => ?_) fun _ => later
    refine (closure_adds inherited fuel _ done (consumes t (by simp) accepts)).bind fun reached _ => ?_
    exact Adds.ite (fun _ => Adds.pure true) fun _ => later

theorem followConfigs_adds {env : ClosureEnv η} (inherited : Inherited env.net env.atEof Q) (fuel : Nat) (symbol : Int)
    (offset doneAlt : Nat) (cs : List Config)
    (consumes : ∀ c ∈ cs, ∀ t ∈ env.net.out c.state, t.label.accepts symbol minChar maxChar = true →
      Q (consumed env.net offset c t)) :
    Adds (Added env.net Q) (followConfigs env fuel symbol offset doneAlt cs) := by
  induction cs generalizing doneAlt with
  | nil => exact Adds.pure ()
  | cons c cs ih =>
    have later (doneAlt : Nat) := ih doneAlt fun d member => consumes d (by simp [member])
    rw [followConfigs]
    refine Adds.ite (fun _ => later _) fun _ => ?_
    refine (followTransitions_adds inherited fuel symbol offset c _ _ ?_).bind fun _ _ => later _
    exact consumes c (by simp)

/-- The environment of the closures behind a symbol. -/
def reachEnv (env : MatchEnv η) (m : Matcher η) (symbol : Int) : ClosureEnv η :=
  { net := env.net, hooks := env.hooks, input := m.input, lookingAhead := true
    atEof := symbol == endOfInput }

theorem reachSet_eq (env : MatchEnv η) (m : Matcher η) (configs : ConfigSet) (symbol : Int) :
    reachSet env m configs symbol = ((followConfigs (reachEnv env m symbol) env.fuel symbol
      (m.input.pos - m.startIndex) invalidAlt configs.configs.toList).run
        { configs := .ofLexer, hooks := m.hooks }).map (·.2) := by
  unfold reachSet
  simp only [reachEnv]
  cases (followConfigs { net := env.net, hooks := env.hooks, input := m.input, lookingAhead := true
                         atEof := symbol == endOfInput } env.fuel symbol
    (m.input.pos - m.startIndex) invalidAlt configs.configs.toList).run
      { configs := .ofLexer, hooks := m.hooks } <;> rfl

theorem reachSet_consists {env : MatchEnv η} {m : Matcher η} {configs : ConfigSet} {symbol : Int}
    {reached : Reached η}
    (inherited : Inherited env.net (symbol == endOfInput) Q)
    (consumes : ∀ c ∈ configs.configs, ∀ t ∈ env.net.out c.state,
      t.label.accepts symbol minChar maxChar = true →
      Q (consumed env.net (m.input.pos - m.startIndex) c t))
    (run : reachSet env m configs symbol = some reached) : reached.configs.Consists (Added env.net Q) := by
  rw [reachSet_eq] at run
  obtain ⟨⟨done, final⟩, ran, rfl⟩ := Option.map_eq_some_iff.1 run
  have inherited' : Inherited (reachEnv env m symbol).net (reachEnv env m symbol).atEof Q := inherited
  apply followConfigs_adds inherited' _ _ _ _ _ _ _ _ _ ran ConfigSet.consists_ofLexer
  exact fun c member => consumes c (Array.mem_toList_iff.1 member)

/-! ## Threads with the actions they have met -/

/-- The stack behind a transition: a call leaves the state to return to. -/
def stackBehind (stack : List Nat) : Label → List Nat
  | .rule _ _ follow => follow :: stack
  | _ => stack

/-- The action that a thread meets on a transition: actions count only outside of rules that are
called. -/
def actionMet (net : Network) (stack : List Nat) : Label → List LexerAction
  | .action _ place _ => if stack = [] then (place.bind fun i => net.actions[i]?).toList else []
  | _ => []

/-- The configuration returns along a stack, it never left for an unknown caller, and the property
holds of the thread it follows and the actions it has met. -/
structure Carries (Q : Thread → List LexerAction → Prop) (c : Config) : Prop where
  thread : ∃ stack, c.context = .ofStack stack ∧ Q ⟨c.state, stack⟩ c.actions
  depth : c.outerDepth = 0

/-- The property passes along the steps that consume nothing. -/
structure Carried (net : Network) (atEof : Bool) (Q : Thread → List LexerAction → Prop) : Prop where
  returns : ∀ n ret stack actions, Q ⟨n, ret :: stack⟩ actions → net.isStop n = true →
    Q ⟨ret, stack⟩ actions
  moves : ∀ n stack actions, Q ⟨n, stack⟩ actions → net.isStop n = false → ∀ t ∈ net.out n,
    crosses atEof t.label = true →
    Q ⟨t.target, stackBehind stack t.label⟩ (actions ++ actionMet net stack t.label)

theorem entries_ofStack {stack : List Nat} {n : Nat} {parent : Context}
    (member : (some n, parent) ∈ (Context.ofStack stack).entries) :
    ∃ rest, stack = n :: rest ∧ parent = .ofStack rest := by
  cases stack with
  | nil => simp [Context.ofStack, Context.empty, Context.entries] at member
  | cons ret rest =>
    simp only [Context.ofStack, Context.push, Context.entries, List.mem_singleton, Prod.mk.injEq,
      Option.some.injEq] at member
    obtain ⟨rfl, rfl⟩ := member
    exact ⟨rest, rfl, rfl⟩

theorem hasEmptyPath_ofStack (stack : List Nat) :
    (Context.ofStack stack).hasEmptyPath = true ↔ stack = [] := by
  cases stack with
  | nil => exact ⟨fun _ => rfl, fun _ => rfl⟩
  | cons ret rest => exact ⟨fun atBottom => (nomatch atBottom), fun same => (nomatch same)⟩

theorem stepped_thread (net : Network) {c : Config} {stack : List Nat} (t : Transition)
    (context : c.context = .ofStack stack) :
    (stepped net c t).state = t.target ∧
      (stepped net c t).context = .ofStack (stackBehind stack t.label) ∧
      (stepped net c t).actions = c.actions ++ actionMet net stack t.label ∧
      (stepped net c t).outerDepth = c.outerDepth := by
  unfold stepped actionMet stackBehind
  cases t.label with
  | rule r p follow => exact ⟨rfl, by rw [context]; rfl, (List.append_nil _).symm, rfl⟩
  | action r place ctx =>
    simp only [context, hasEmptyPath_ofStack]
    cases place.bind fun i => net.actions[i]? with
    | none => exact ⟨rfl, context, by simp [configAt, Config.withState], rfl⟩
    | some a =>
      by_cases bottom : stack = []
      · simp only [bottom, if_true]
        exact ⟨rfl, by rw [← bottom]; exact context, rfl, rfl⟩
      · simp only [bottom, if_false]
        exact ⟨rfl, context, (List.append_nil _).symm, rfl⟩
  | _ => exact ⟨rfl, context, (List.append_nil _).symm, rfl⟩

theorem Carried.inherited {net : Network} {atEof : Bool} {Q : Thread → List LexerAction → Prop}
    (carried : Carried net atEof Q) : Inherited net atEof (Carries Q) where
  returns := by
    intro c carries isStop n parent member
    obtain ⟨stack, context, holds⟩ := carries.thread
    rw [context] at member
    obtain ⟨rest, rfl, rfl⟩ := entries_ofStack member
    refine ⟨⟨rest, ?_, carried.returns _ n rest _ holds isStop⟩, carries.depth⟩
    exact if_neg (Context.ofStack_ne_nil rest)
  ends := by
    intro c carries isStop atBottom
    obtain ⟨stack, context, holds⟩ := carries.thread
    rw [context, hasEmptyPath_ofStack] at atBottom
    subst atBottom
    exact ⟨⟨[], rfl, holds⟩, carries.depth⟩
  moves := by
    intro c carries inner t member crossed
    obtain ⟨stack, context, holds⟩ := carries.thread
    obtain ⟨state, context', actions, depth⟩ := stepped_thread net t context
    refine ⟨⟨_, context', ?_⟩, depth.trans carries.depth⟩
    rw [state, actions]
    exact carried.moves _ stack _ holds inner t member crossed

theorem startSet_carries {env : MatchEnv η} {input : CharStream} {n : Nat} {hooks : η}
    {reached : Reached η} {Q : Thread → List LexerAction → Prop} (carried : Carried env.net false Q)
    (starts : ∀ t ∈ env.net.out n, Q ⟨t.target, []⟩ [])
    (run : startSet env input n hooks = some reached) :
    reached.configs.Consists (Added env.net (Carries Q)) := by
  apply startSet_consists carried.inherited _ run
  exact fun t member i => ⟨⟨[], rfl, starts t member⟩, rfl⟩

theorem reachSet_carries {env : MatchEnv η} {m : Matcher η} {configs : ConfigSet} {symbol : Int}
    {reached : Reached η} {Q Q' : Thread → List LexerAction → Prop}
    (carried : Carried env.net (symbol == endOfInput) Q')
    (consumes : ∀ n stack actions, Q ⟨n, stack⟩ actions → ∀ t ∈ env.net.out n,
      t.label.accepts symbol minChar maxChar = true →
      Q' ⟨t.target, stack⟩ (pinActions (m.input.pos - m.startIndex) actions))
    (before : ∀ c ∈ configs.configs, Carries Q c) (run : reachSet env m configs symbol = some reached) :
    reached.configs.Consists (Added env.net (Carries Q')) := by
  apply reachSet_consists carried.inherited _ run
  intro c member t out accepts
  obtain ⟨stack, context, holds⟩ := (before c member).thread
  exact ⟨⟨stack, context, consumes _ stack _ holds t out accepts⟩, (before c member).depth⟩

end Lexer

end AdaptiveLL
