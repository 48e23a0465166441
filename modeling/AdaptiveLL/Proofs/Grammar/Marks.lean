import AdaptiveLL.Proofs.Grammar.Language

/-!
# The marks of precedence loops

The reader of a network marks the entries of the loops by which left-recursive rules go on or end; the
words say nothing about them. So a state is marked just when it is the entry of a loop and leaves straight
to the end of its rule (`isPrecedenceLoop_mark`), and only left-recursive rules have such loops
(`Walkable.loop`). With the shape of a built network this is all that a walk along its transitions relies
on (`Walkable`).
-/

set_option autoImplicit false

namespace AdaptiveLL

/-- Is it the entry of a loop, marked or not? -/
def StateKind.isLoopEntry : StateKind → Bool
  | .starLoopEntry _ _ => true
  | _ => false

namespace Network

variable {net : Network} {g : Grammar}

/-- No loop is marked yet. -/
def Unmarked (net : Network) : Prop := ∀ n, (net.state n).kind.isPrecedenceLoop = false

/-- Marking a state keeps everything that the marks depend on. -/
theorem markPrecedence_keeps {α : Type} (get : State → α)
    (keeps : ∀ (s : State) (back : Option Nat) (p : Bool), s.kind = .starLoopEntry back p →
      get { s with kind := .starLoopEntry back true } = get s) (net : Network) (s : State) :
    get (Decode.markPrecedence net s) = get s := by
  unfold Decode.markPrecedence
  split
  · rename_i back p kind
    split
    · exact keeps s back p kind
    · rfl
  · rfl

theorem exitsRule_congr {net' : Network} {s s' : State} (starts : net'.ruleStarts = net.ruleStarts)
    (recursive : ∀ n, (net'.state n).kind.isLeftRecursiveStart = (net.state n).kind.isLeftRecursiveStart)
    (loopEnd : ∀ n, (net'.state n).kind.isLoopEnd = (net.state n).kind.isLoopEnd)
    (ruleStop : ∀ n, (net'.state n).kind.isRuleStop = (net.state n).kind.isRuleStop)
    (epsilonOnly : ∀ n, (net'.state n).epsilonOnly = (net.state n).epsilonOnly)
    (out : ∀ n, net'.out n = net.out n) (rule : s'.rule = s.rule)
    (transitions : s'.transitions = s.transitions) :
    Decode.exitsRule net' s' = Decode.exitsRule net s := by
  have leads (n : Nat) : (net'.state n).transitions = (net.state n).transitions := out n
  simp only [Decode.exitsRule, starts, recursive, loopEnd, ruleStop, epsilonOnly, leads, rule, transitions]

/-- The entry of a loop is marked when it leaves its left-recursive rule. -/
theorem isPrecedenceLoop_mark (unmarked : net.Unmarked) (n : Nat) :
    ((Decode.mark net).state n).kind.isPrecedenceLoop = true ↔
      ((Decode.mark net).state n).kind.isLoopEntry = true ∧
        Decode.exitsRule (Decode.mark net) ((Decode.mark net).state n) = true := by
  let refreshed : Network := { net with states := net.states.map State.refresh }
  have kept {α : Type} (get : State → α) (keeps : ∀ (s : State) (back : Option Nat) (p : Bool),
      s.kind = .starLoopEntry back p → get { s with kind := .starLoopEntry back true } = get s) (m : Nat) :
      get ((Decode.mark net).state m) = get (refreshed.state m) :=
    mapStates_keeps refreshed (Decode.markPrecedence refreshed) get (markPrecedence_keeps get keeps _) m
  have exits : Decode.exitsRule (Decode.mark net) ((Decode.mark net).state n) =
      Decode.exitsRule refreshed (refreshed.state n) :=
    exitsRule_congr rfl
      (kept (·.kind.isLeftRecursiveStart) fun s back p kind => by simp [kind, StateKind.isLeftRecursiveStart])
      (kept (·.kind.isLoopEnd) fun s back p kind => by simp [kind, StateKind.isLoopEnd])
      (kept (·.kind.isRuleStop) fun s back p kind => by simp [kind, StateKind.isRuleStop])
      (kept (·.epsilonOnly) fun _ _ _ _ => rfl) (kept (·.transitions) fun _ _ _ _ => rfl)
      (kept (·.rule) (fun _ _ _ _ => rfl) n) (kept (·.transitions) (fun _ _ _ _ => rfl) n)
  have entry : ((Decode.mark net).state n).kind.isLoopEntry = (refreshed.state n).kind.isLoopEntry :=
    kept (·.kind.isLoopEntry) (fun s back p kind => by simp [kind, StateKind.isLoopEntry]) n
  have before : (refreshed.state n).kind.isPrecedenceLoop = false :=
    (mapStates_keeps net State.refresh (·.kind.isPrecedenceLoop) (fun _ => rfl) n).trans (unmarked n)
  rw [exits, entry]
  change (({ refreshed with states := refreshed.states.map (Decode.markPrecedence refreshed) } : Network).state
    n).kind.isPrecedenceLoop = true ↔ _
  rw [mapStates_state]
  split
  · unfold Decode.markPrecedence
    split
    · rename_i back p kind
      split
      · rename_i leaves
        simp [leaves, kind, StateKind.isPrecedenceLoop, StateKind.isLoopEntry]
      · rename_i stays
        simp [stays, before]
    · rename_i other
      have notEntry : (refreshed.state n).kind.isLoopEntry = false := by
        cases kind : (refreshed.state n).kind with
        | starLoopEntry back p => exact absurd kind (other back p)
        | _ => rfl
      simp [before, notEntry]
  · rename_i outside
    rw [state_of_le (Nat.not_lt.1 outside)]
    simp [StateKind.isPrecedenceLoop, StateKind.isLoopEntry]

/-! ## What a walk relies on -/

/-- What a walk along the transitions of a network relies on. -/
structure Walkable (net : Network) : Prop where
  number : ∀ n, (net.state n).number = n
  startRule : ∀ r < net.numRules, (net.state (net.ruleStart r)).rule = some r
  /-- A transition within a rule stays in the rule. -/
  owner : ∀ n r, (net.state n).rule = some r → net.isStop n = false → ∀ t ∈ net.out n,
    (net.state t.move.next).rule = some r
  /-- A calling state does nothing else. -/
  call : ∀ n r q follow, net.isStop n = false → ∀ t ∈ net.out n, t.label = .rule r q follow →
    r < net.numRules ∧ t.target = net.ruleStart r ∧ net.follow? n = some follow
  stop : ∀ r < net.numRules, ∃ stop, net.ruleStop? r = some stop ∧ net.EndsRule r stop
  /-- Only left-recursive rules have precedence loops. -/
  loop : ∀ n r, (net.state n).rule = some r → (net.state n).kind.isPrecedenceLoop = true →
    (net.state (net.ruleStart r)).kind.isLeftRecursiveStart = true

end Network

namespace Grammar

open Layout Network

variable {g : Grammar} {compiled : CompiledGrammar} {net : Network} {verify : Bool}

theorem unmarked_of_derived {base derived : Network} (outfitted : Outfitted g base)
    (isDerived : Derived base derived) (actions : Array LexerAction) :
    ({ derived with actions } : Network).Unmarked := by
  intro n
  change (derived.state n).kind.isPrecedenceLoop = false
  rw [isDerived.kind]
  rcases Nat.lt_or_ge n base.states.size with inside | outside
  · cases outfitted.fits n inside with
    | ruleStart kind | ruleStop kind | tokenStart kind | basic kind | blockStart kind
    | starLoopEntry kind | plusLoopBack kind => simp only [kind, StateKind.isPrecedenceLoop]
    | blockEnd place kind | starLoopBack place kind | loopEnd place kind =>
      simp only [kind, StateKind.isPrecedenceLoop]
  · rw [state_of_le outside]
    rfl

/-- The network of a compiled grammar can be walked. -/
theorem compile_walkable (assembled : g.Assembled) (representable : g.Representable)
    (run : g.compile = .ok compiled) (decoded : decode compiled.words verify = .ok net) :
    net.Walkable := by
  obtain ⟨built, -⟩ := compile_built assembled run decoded
  obtain ⟨base, derived, actions, -, laid, outfitted, -, isDerived, isMarked, restored⟩ :=
    compile_derived assembled representable run decoded
  have stops {n : Nat} (inner : net.isStop n = false) : (base.state n).kind.isRuleStop = false :=
    (restored.isRuleStop n).symm.trans inner
  refine ⟨fun n => ?_, built.startRule, fun n r owned inner t member => ?_, ?_, fun r known => ?_, ?_⟩
  · rw [restored.number]
    change (base.state n).number = n
    rcases Nat.lt_or_ge n base.states.size with inside | outside
    · exact laid.number n inside
    · rw [state_of_le outside]
  · exact built.owner n r owned inner t.move (List.mem_map_of_mem member)
  · intro n r q follow inner t member label
    have move : .call r t.target follow ∈ net.moves n :=
      List.mem_map.2 ⟨t, member, by simp [Transition.move, label]⟩
    obtain ⟨known, target⟩ := built.calls n r t.target follow inner move
    refine ⟨known, target, ?_⟩
    have only : net.out n = [t] := by
      rcases Layout.oneWay laid n with ⟨t', one⟩ | free
      · rw [(restored.out n (stops inner)).1] at member ⊢
        change base.out n = [t]
        change t ∈ base.out n at member
        rw [one] at member ⊢
        rw [List.mem_singleton.1 member]
      · rw [(restored.out n (stops inner)).1] at member
        have isFree := free t member
        rw [label] at isFree
        cases isFree
    obtain ⟨target', label'⟩ := t
    cases label
    exact show (net.state n).follow? = some follow by rw [State.follow?, show (net.state n).transitions = _ from only]
  · have numRules : net.numRules = g.rules.length := built.numRules
    rw [numRules] at known
    refine ⟨2 * r + 1, ?_, ?_, ?_⟩
    · rw [ruleStop?, restored.ruleStops]
      change (base.ruleStops[r]?).join = some (2 * r + 1)
      rw [laid.ruleStops]
      simp [known]
    · exact (restored.isRuleStop _).trans (laid.isStop_stop known)
    · exact (restored.rule _).trans (laid.stopState r known).2.1
  · intro n r owned loop
    rw [isMarked] at loop owned ⊢
    have leaves := ((isPrecedenceLoop_mark (unmarked_of_derived outfitted isDerived actions) n).1 loop).2
    simp only [Decode.exitsRule, Bool.and_eq_true] at leaves
    have recursive := leaves.1
    rw [owned, Option.bind_some, Option.any_eq_true] at recursive
    obtain ⟨start, isStart, recursive⟩ := recursive
    have same : Network.ruleStart (Decode.mark { derived with actions }) r = start := by
      rw [ruleStart, Array.getD_eq_getD_getElem?, isStart, Option.getD_some]
    rwa [same]

end Grammar

end AdaptiveLL
