import AdaptiveLL.Proofs.Lexer.Additions
import AdaptiveLL.Proofs.Lexer.Fuel

/-!
# Sets that ask no predicate

A set of configurations is marked when a predicate was asked on the way to it. A start set or a set
behind a symbol that is not marked depends on nothing but the network: any other user code, any other
input and any larger amount of fuel give the same set and leave the user code as it was
(`startSet_replayed`, `reachSet_replayed`). Behind a symbol this needs that no custom action waits to
be pinned by it, since a pin depends on the place in the input.
-/

set_option autoImplicit false

namespace AdaptiveLL

open Network

theorem ConfigSet.hasGuards_of_insert {s : ConfigSet} {c : Config}
    (unmarked : (s.insert c).hasGuards = false) : s.hasGuards = false := by
  have noted : (s.insert c).hasGuards = (s.note c).hasGuards := by
    unfold insert insertOrdered absorbAt push
    simp only []
    split
    · split <;> rfl
    · split <;> rfl
  rw [noted, note, Bool.or_eq_false_iff] at unmarked
  exact unmarked.1

/-- Some transition from the state of the configuration consumes the symbol. -/
def Config.TakenBy (net : Network) (symbol : Int) (c : Config) : Prop :=
  ∃ t ∈ net.out c.state, t.label.accepts symbol minChar maxChar = true

namespace Lexer

variable {η η' α β : Type}

/-! ## Computations that ask nothing -/

/-- A run of the first computation that ends without the mark has asked nothing, and the second
computation, which may have other user code, does the same. -/
def Replays (x : ClosureM η α) (y : ClosureM η' α) : Prop :=
  ∀ r a r', x.run r = some (a, r') → r'.configs.hasGuards = false →
    r.configs.hasGuards = false ∧ r'.hooks = r.hooks ∧
      ∀ h, y.run ⟨r.configs, h⟩ = some (a, ⟨r'.configs, h⟩)

namespace Replays

theorem pure (a : α) : Replays (pure a : ClosureM η α) (pure a : ClosureM η' α) := by
  intro r b r' run unmarked
  cases run
  exact ⟨unmarked, rfl, fun h => rfl⟩

theorem failure (y : ClosureM η' α) : Replays (failure : ClosureM η α) y :=
  fun _ _ _ run => nomatch run

theorem bind {x : ClosureM η α} {y : ClosureM η' α} {f : α → ClosureM η β} {g : α → ClosureM η' β}
    (first : Replays x y) (rest : ∀ a, Replays (f a) (g a)) : Replays (x >>= f) (y >>= g) := by
  intro r b r'' run unmarked
  rw [StateT.run_bind] at run
  obtain ⟨⟨a, r'⟩, ran, run'⟩ := Option.bind_eq_some_iff.1 run
  obtain ⟨unmarked', hooks', again'⟩ := rest a r' b r'' run' unmarked
  obtain ⟨unmarked'', hooks, again⟩ := first r a r' ran unmarked'
  refine ⟨unmarked'', hooks'.trans hooks, ?_⟩
  intro h
  rw [StateT.run_bind, again h]
  exact again' h

theorem ite {c : Prop} [Decidable c] {x x' : ClosureM η α} {y y' : ClosureM η' α}
    (yes : c → Replays x y) (no : Replays x' y') :
    Replays (if c then x else x') (if c then y else y') := by
  split
  · rename_i holds
    exact yes holds
  · exact no

theorem foldlM {f : β → α → ClosureM η β} {g : β → α → ClosureM η' β}
    (step : ∀ b a, Replays (f b a) (g b a)) (xs : List α) (b : β) :
    Replays (xs.foldlM f b) (xs.foldlM g b) := by
  induction xs generalizing b with
  | nil => exact Replays.pure b
  | cons x xs ih =>
    rw [List.foldlM_cons, List.foldlM_cons]
    exact (step b x).bind ih

end Replays

theorem addConfig_replays (c : Config) :
    Replays (addConfig c : ClosureM η Unit) (addConfig c : ClosureM η' Unit) := by
  intro r a r' run unmarked
  cases run
  exact ⟨ConfigSet.hasGuards_of_insert unmarked, rfl, fun h => rfl⟩

theorem askPredicate_replays (env : ClosureEnv η) (rule pred : Nat) (y : ClosureM η' Bool) :
    Replays (askPredicate env rule pred) y := by
  intro r a r' run unmarked
  cases run
  cases unmarked

/-! ## Closures -/

section Closures

variable {env : ClosureEnv η} {env' : ClosureEnv η'}

theorem epsilonTarget_replays (sameNet : env'.net = env.net) (sameEof : env'.atEof = env.atEof)
    (c : Config) (t : Transition) : Replays (epsilonTarget env c t) (epsilonTarget env' c t) := by
  unfold epsilonTarget
  rw [sameNet, sameEof]
  cases t.label with
  | predicate rule pred ctx =>
    exact (askPredicate_replays env rule pred _).bind fun answer =>
      Replays.ite (fun _ => Replays.pure _) (Replays.pure _)
  | action rule place ctx =>
    simp only []
    split
    · exact Replays.pure _
    · exact Replays.pure _
  | _ => exact Replays.pure _

theorem closure_replays (sameNet : env'.net = env.net) (sameEof : env'.atEof = env.atEof) (fuel : Nat)
    (c : Config) (done : Bool) : Replays (closure env fuel c done) (closure env' fuel c done) := by
  induction fuel generalizing c done with
  | zero => exact Replays.failure _
  | succ fuel ih =>
    rw [closure, closure, sameNet]
    refine Replays.ite (fun _ => ?_) ?_
    · refine Replays.ite (fun _ => (addConfig_replays c).bind fun _ => Replays.pure true) ?_
      refine Replays.ite
        (fun _ => (addConfig_replays _).bind fun _ => (Replays.pure true).bind fun done => ?_)
        ((Replays.pure done).bind fun done => ?_)
      -- Whether the path ends here or not, the closure returns to the callers.
      all_goals
        apply Replays.foldlM
        rintro done ⟨_ | n, parent⟩
        · exact Replays.pure done
        · exact ih _ done
    · refine Replays.ite (fun _ => (addConfig_replays c).bind fun _ => ?_) ?_
      -- Whether the configuration is added or not, the closure goes on.
      all_goals
        apply Replays.foldlM
        intro done t
        refine (epsilonTarget_replays sameNet sameEof c t).bind fun next => ?_
        cases next with
        | none => exact Replays.pure done
        | some d => exact ih d done

theorem followTransitions_replays (sameNet : env'.net = env.net) (sameEof : env'.atEof = env.atEof)
    (fuel : Nat) (symbol : Int) {offset offset' : Nat} {c : Config} (done : Bool) (ts : List Transition)
    (pinned : ∀ t ∈ ts, t.label.accepts symbol minChar maxChar = true →
      pinActions offset' c.actions = pinActions offset c.actions) :
    Replays (followTransitions env fuel symbol offset c done ts)
      (followTransitions env' fuel symbol offset' c done ts) := by
  induction ts with
  | nil => exact Replays.pure false
  | cons t ts ih =>
    have later := ih fun t' member => pinned t' (by simp [member])
    rw [followTransitions, followTransitions, sameNet]
    refine Replays.ite (fun accepts => ?_) later
    rw [pinned t (by simp) accepts]
    exact (closure_replays sameNet sameEof fuel _ done).bind fun reached =>
      Replays.ite (fun _ => Replays.pure true) later

theorem followConfigs_replays (sameNet : env'.net = env.net) (sameEof : env'.atEof = env.atEof)
    (fuel : Nat) (symbol : Int) {offset offset' : Nat} (cs : List Config)
    (pinned : ∀ c ∈ cs, c.TakenBy env.net symbol →
      pinActions offset' c.actions = pinActions offset c.actions) (doneAlt : Nat) :
    Replays (followConfigs env fuel symbol offset doneAlt cs)
      (followConfigs env' fuel symbol offset' doneAlt cs) := by
  induction cs generalizing doneAlt with
  | nil => exact Replays.pure ()
  | cons c cs ih =>
    have later (doneAlt : Nat) := ih (fun d member => pinned d (by simp [member])) doneAlt
    rw [followConfigs, followConfigs, sameNet]
    refine Replays.ite (fun _ => later doneAlt) ?_
    refine (followTransitions_replays sameNet sameEof fuel symbol _ _ ?_).bind fun reached => later _
    exact fun t member accepts => pinned c (by simp) ⟨t, member, accepts⟩

end Closures

/-! ## Start sets and sets behind a symbol -/

theorem Replays.result {x : ClosureM η α} {y : ClosureM η' α} (replays : Replays x y) {start : ConfigSet}
    {h : η} {reached : Reached η} (run : (x.run ⟨start, h⟩).map (·.2) = some reached)
    (unmarked : reached.configs.hasGuards = false) :
    reached.hooks = h ∧ ∀ h', (y.run ⟨start, h'⟩).map (·.2) = some ⟨reached.configs, h'⟩ := by
  obtain ⟨⟨a, final⟩, ran, rfl⟩ := Option.map_eq_some_iff.1 run
  obtain ⟨-, hooks, again⟩ := replays _ a final ran unmarked
  refine ⟨hooks, ?_⟩
  intro h'
  rw [again h']
  rfl

theorem startSet_replayed {env : MatchEnv η} {input : CharStream} {n : Nat} {h : η}
    {reached : Reached η} (run : startSet env input n h = some reached)
    (unmarked : reached.configs.hasGuards = false) :
    reached.hooks = h ∧ ∀ (η' : Type) (env' : MatchEnv η') (input' : CharStream) (h' : η'),
      env'.net = env.net → env.fuel ≤ env'.fuel →
        startSet env' input' n h' = some ⟨reached.configs, h'⟩ := by
  rw [startSet_eq] at run
  have replays (η' : Type) (env' : MatchEnv η') (input' : CharStream) (sameNet : env'.net = env.net)
      (sameFuel : env'.fuel = env.fuel) : Replays
        (startClosures env input (env.net.out n).zipIdx false)
        (startClosures env' input' (env'.net.out n).zipIdx false) := by
    rw [startClosures, startClosures, sameNet, sameFuel]
    have sameNet' : (startEnv env' input').net = (startEnv env input).net := sameNet
    have sameEof : (startEnv env' input').atEof = (startEnv env input).atEof := rfl
    apply Replays.foldlM
    intro done entry
    exact closure_replays sameNet' sameEof env.fuel _ false
  refine ⟨((replays η env input rfl rfl).result run unmarked).1, ?_⟩
  intro η' env' input' h' sameNet more
  let lesser : MatchEnv η' := { env' with fuel := env.fuel }
  have again : startSet lesser input' n h' = some ⟨reached.configs, h'⟩ := by
    rw [startSet_eq]
    exact ((replays η' lesser input' sameNet rfl).result run unmarked).2 h'
  have more' : lesser.fuel ≤ env'.fuel := more
  exact startSet_refuelled more' again

theorem reachSet_replayed {env : MatchEnv η} {m : Matcher η} {configs : ConfigSet} {symbol : Int}
    {reached : Reached η} (run : reachSet env m configs symbol = some reached)
    (unmarked : reached.configs.hasGuards = false)
    (pinned : ∀ c ∈ configs.configs, c.TakenBy env.net symbol → ∀ offset offset',
      pinActions offset c.actions = pinActions offset' c.actions) :
    reached.hooks = m.hooks ∧ ∀ (η' : Type) (env' : MatchEnv η') (m' : Matcher η'),
      env'.net = env.net → env.fuel ≤ env'.fuel →
        reachSet env' m' configs symbol = some ⟨reached.configs, m'.hooks⟩ := by
  rw [reachSet_eq] at run
  have replays (η' : Type) (env' : MatchEnv η') (m' : Matcher η') (sameNet : env'.net = env.net)
      (sameFuel : env'.fuel = env.fuel) : Replays
        (followConfigs (reachEnv env m symbol) env.fuel symbol (m.input.pos - m.startIndex) invalidAlt
          configs.configs.toList)
        (followConfigs (reachEnv env' m' symbol) env'.fuel symbol (m'.input.pos - m'.startIndex)
          invalidAlt configs.configs.toList) := by
    have sameNet' : (reachEnv env' m' symbol).net = (reachEnv env m symbol).net := sameNet
    have sameEof : (reachEnv env' m' symbol).atEof = (reachEnv env m symbol).atEof := rfl
    rw [sameFuel]
    apply followConfigs_replays sameNet' sameEof
    exact fun c member taken => pinned c (Array.mem_toList_iff.1 member) taken _ _
  refine ⟨((replays η env m rfl rfl).result run unmarked).1, ?_⟩
  intro η' env' m' sameNet more
  let lesser : MatchEnv η' := { env' with fuel := env.fuel }
  have again : reachSet lesser m' configs symbol = some ⟨reached.configs, m'.hooks⟩ := by
    rw [reachSet_eq]
    exact ((replays η' lesser m' sameNet rfl).result run unmarked).2 m'.hooks
  have more' : lesser.fuel ≤ env'.fuel := more
  exact reachSet_refuelled more' again

end Lexer

end AdaptiveLL
