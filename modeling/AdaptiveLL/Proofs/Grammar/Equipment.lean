import AdaptiveLL.Proofs.Grammar.Rules
import AdaptiveLL.Proofs.Symbols.Canonical

/-!
# What the states of a laid out grammar hold

How an element lies in a network (`Laid`) says which transitions leave its states. The states hold more
than that: kinds with links, which always name the next state or the one before (`Fits`), and decisions,
labels and actions, which have numbers (`Equipped`). New states, transitions and decisions keep both.
-/

set_option autoImplicit false

namespace AdaptiveLL

/-! ## Elements whose numbers fit -/

namespace Element

mutual

/-- The elements that hold no others, in order. -/
def leaves : Element → List Element
  | .seq es | .alt es => leavesAll es
  | .repeated _ _ body => leaves body
  | e => [e]

/-- The leaves of several elements. -/
def leavesAll : List Element → List Element
  | [] => []
  | e :: rest => leaves e ++ leavesAll rest

end

/-- The numbers of a leaf fit the types that hold them: symbols are signed numbers of 32 bits, sets are
kept in canonical form, and indices have 64 bits. -/
def Representable : Element → Prop
  | .symbol v => -2147483648 ≤ v ∧ v < 2147483648
  | .range lo hi => -2147483648 ≤ lo ∧ hi < 2147483648
  | .set s | .notSet s => s.Proper
  | .predicate pred _ => pred < 18446744073709551616
  | .action i => i < 18446744073709551616
  | _ => True

/-- The indices of the custom actions that a leaf has in a lexer have 31 bits. -/
def SmallActions (lexer : Bool) : Element → Prop
  | .action i => lexer = true → i < 2147483648
  | .command a => ∀ rule index, a = .custom rule index → rule < 2147483648 ∧ index < 2147483648
  | _ => True

/-- Is it a predicate, of the user or on the precedence? -/
def isGuard : Element → Bool
  | .predicate _ _ | .precedence _ => true
  | _ => false

theorem leaves_branches (body : Element) : leavesAll body.branches = leaves body := by
  cases body with
  | alt es => rfl
  | _ => simp [branches, leavesAll]

end Element

namespace Grammar

/-- The numbers of a grammar fit the types that hold them. -/
def Representable (g : Grammar) : Prop := ∀ r ∈ g.rules, ∀ e ∈ r.body.leaves, e.Representable

/-- The indices of the custom actions of a lexer have 31 bits. -/
def SmallActions (g : Grammar) : Prop := ∀ r ∈ g.rules, ∀ e ∈ r.body.leaves, e.SmallActions g.isLexer

/-- No rule asks for a predicate. -/
def Unguarded (g : Grammar) : Prop := ∀ r ∈ g.rules, ∀ e ∈ r.body.leaves, e.isGuard = false

/-- The leaf fits what the grammar promises of its leaves. -/
def Admits (g : Grammar) (e : Element) : Prop :=
  e.Representable ∧ (g.SmallActions → e.SmallActions g.isLexer) ∧ (g.Unguarded → e.isGuard = false)

theorem Representable.admits {g : Grammar} (representable : g.Representable) {r : RuleDef}
    (member : r ∈ g.rules) {e : Element} (leaf : e ∈ r.body.leaves) : g.Admits e :=
  ⟨representable r member e leaf, fun few => few r member e leaf, fun unguarded => unguarded r member e leaf⟩

end Grammar

/-- May a state of this kind have one transition only, to whatever comes next? -/
def StateKind.isPassage : StateKind → Bool
  | .basic | .blockEnd _ | .loopEnd _ => true
  | _ => false

/-- Is a rule or a mode entered by a state of this kind? -/
def StateKind.isEntry : StateKind → Bool
  | .ruleStart _ _ | .tokenStart => true
  | _ => false

namespace Network

/-! ## Kinds and links -/

/-- The kind of a state fits its transitions, its decision and the kinds of the states that it is linked
with. -/
inductive Fits (net : Network) (n : Nat) : Prop
  | ruleStart {leftRecursive : Bool}
      (kind : (net.state n).kind = .ruleStart (some (n + 1)) leftRecursive)
      (stop : (net.state (n + 1)).kind = .ruleStop)
  | ruleStop (kind : (net.state n).kind = .ruleStop)
  | tokenStart (kind : (net.state n).kind = .tokenStart)
      (decided : (net.state n).decision.isSome = true)
  | basic (kind : (net.state n).kind = .basic) (one : (net.out n).length ≤ 1)
  | blockStart {block : BlockKind} (kind : (net.state n).kind = .blockStart block (some (n + 1)))
      (stop : (net.state (n + 1)).kind = .blockEnd (some n))
      (choice : (net.out n).length ≤ 1 ∨ (net.state n).decision.isSome = true)
      (free : ∀ t ∈ net.out n, t.label = .epsilon none)
  | blockEnd {block : BlockKind} {start : Nat} (place : n = start + 1)
      (kind : (net.state n).kind = .blockEnd (some start))
      (begins : (net.state start).kind = .blockStart block (some n)) (one : (net.out n).length ≤ 1)
  | starLoopEntry (kind : (net.state n).kind = .starLoopEntry (some (n + 1)) false)
      (back : (net.state (n + 1)).kind = .starLoopBack) (two : (net.out n).length = 2)
      (decided : (net.state n).decision.isSome = true)
  | starLoopBack {entry : Nat} (place : n = entry + 1) (kind : (net.state n).kind = .starLoopBack)
      (leads : net.out n = [.epsilon entry])
      (entered : (net.state entry).kind = .starLoopEntry (some n) false)
  | plusLoopBack (kind : (net.state n).kind = .plusLoopBack)
      (decided : (net.state n).decision.isSome = true) (free : ∀ t ∈ net.out n, t.label = .epsilon none)
  | loopEnd {back : Nat} (place : n = back + 1) (kind : (net.state n).kind = .loopEnd (some back))
      (one : (net.out n).length ≤ 1)

variable {net net' : Network} {g : Grammar} {n : Nat}

/-- A state goes on fitting while it and the kinds of the others stay. A passage may get a
transition. -/
theorem Fits.of_same (fits : net.Fits n)
    (kind : ∀ m, (net.state m).kind ≠ .invalid → (net'.state m).kind = (net.state m).kind)
    (decision : (net'.state n).decision = (net.state n).decision)
    (out : net'.out n = net.out n ∨
      (net.state n).kind.isPassage = true ∧ (net'.out n).length ≤ 1) : net'.Fits n := by
  have same {m : Nat} {k : StateKind} (known : (net.state m).kind = k) (valid : k ≠ .invalid) :
      (net'.state m).kind = k := by
    rw [kind m (by rwa [known]), known]
  have kept (kindIs : (net.state n).kind.isPassage = false) : net'.out n = net.out n :=
    out.resolve_right fun passage => by simp [kindIs] at passage
  have still (one : (net.out n).length ≤ 1) : (net'.out n).length ≤ 1 := by
    rcases out with same | ⟨-, one'⟩
    · rwa [same]
    · exact one'
  cases fits with
  | ruleStart kindIs stop => exact .ruleStart (same kindIs (by simp)) (same stop (by simp))
  | ruleStop kindIs => exact .ruleStop (same kindIs (by simp))
  | tokenStart kindIs decided => exact .tokenStart (same kindIs (by simp)) (by rwa [decision])
  | basic kindIs one => exact .basic (same kindIs (by simp)) (still one)
  | blockStart kindIs stop choice free =>
    refine .blockStart (same kindIs (by simp)) (same stop (by simp)) ?_ ?_
    · rwa [kept (by rw [kindIs]; rfl), decision]
    · rwa [kept (by rw [kindIs]; rfl)]
  | blockEnd place kindIs begins one =>
    exact .blockEnd place (same kindIs (by simp)) (same begins (by simp)) (still one)
  | starLoopEntry kindIs back two decided =>
    refine .starLoopEntry (same kindIs (by simp)) (same back (by simp)) ?_ (by rwa [decision])
    rwa [kept (by rw [kindIs]; rfl)]
  | starLoopBack place kindIs leads entered =>
    refine .starLoopBack place (same kindIs (by simp)) ?_ (same entered (by simp))
    rwa [kept (by rw [kindIs]; rfl)]
  | plusLoopBack kindIs decided free =>
    refine .plusLoopBack (same kindIs (by simp)) (by rwa [decision]) ?_
    rwa [kept (by rw [kindIs]; rfl)]
  | loopEnd place kindIs one => exact .loopEnd place (same kindIs (by simp)) (still one)

/-- A rule or a mode may be entered by more transitions. -/
theorem Fits.of_entry (fits : net.Fits n)
    (kind : ∀ m, (net.state m).kind ≠ .invalid → (net'.state m).kind = (net.state m).kind)
    (decision : (net'.state n).decision = (net.state n).decision)
    (entry : (net.state n).kind.isEntry = true) : net'.Fits n := by
  have same {m : Nat} {k : StateKind} (known : (net.state m).kind = k) (valid : k ≠ .invalid) :
      (net'.state m).kind = k := by
    rw [kind m (by rwa [known]), known]
  cases fits with
  | ruleStart kindIs stop => exact .ruleStart (same kindIs (by simp)) (same stop (by simp))
  | tokenStart kindIs decided => exact .tokenStart (same kindIs (by simp)) (by rwa [decision])
  | _ => simp_all [StateKind.isEntry]

/-! ## Decisions, labels and actions -/

end Network

/-- The label and its numbers fit the grammar, of whose actions `count` are in the table. -/
def Grammar.LabelFits (g : Grammar) (count : Nat) : Label → Prop
  | .epsilon outermost => outermost = none
  | .predicate rule pred _ => rule < g.rules.length ∧ pred < 18446744073709551616 ∧ ¬ g.Unguarded
  | .action rule index _ => rule < g.rules.length ∧ ∃ place, index = some place ∧
      place < if g.isLexer then count else 18446744073709551616
  | .set s | .notSet s => s.Proper
  | .precedence _ => g.isLexer = false ∧ ¬ g.Unguarded
  | _ => True

theorem Grammar.LabelFits.mono {g : Grammar} {count count' : Nat} {label : Label}
    (fits : g.LabelFits count label) (more : count ≤ count') : g.LabelFits count' label := by
  cases label with
  | action rule index ctx =>
    obtain ⟨known, place, rfl, below⟩ := fits
    refine ⟨known, place, rfl, ?_⟩
    split at below
    · rename_i lexer
      rw [if_pos lexer]
      exact Nat.lt_of_lt_of_le below more
    · rename_i parser
      rwa [if_neg parser]
  | _ => exact fits

namespace Network

variable {net net' : Network} {g : Grammar}

/-- The decisions of the network and those of its states are the same, and its labels and actions are
those of a grammar. -/
structure Equipped (g : Grammar) (net : Network) : Prop where
  decides : ∀ d n, net.decisions[d]? = some n →
    (net.state n).decision = some d ∧ (net.state n).kind.isDecision = true
  decision : ∀ n d, (net.state n).decision = some d → net.decisions[d]? = some n
  labels : ∀ n, ∀ t ∈ net.out n, g.LabelFits net.actions.size t.label
  actions : ∀ a ∈ net.actions.toList, g.isLexer = true ∧
    (g.SmallActions → ∀ rule index, a = .custom rule index → rule < 2147483648 ∧ index < 2147483648)

/-- Adds a state behind the others. -/
def push (net : Network) (s : State) : Network := { net with states := net.states.push s }

@[simp]
theorem push_size (net : Network) (s : State) : (net.push s).states.size = net.states.size + 1 := by
  simp [push]

theorem push_state_new (net : Network) (s : State) : (net.push s).state net.states.size = s := by
  rw [state_of_lt (by simp)]
  simp [push]

theorem push_state_of_ne (net : Network) (s : State) {n : Nat} (other : n ≠ net.states.size) :
    (net.push s).state n = net.state n := by
  rcases Nat.lt_or_gt_of_ne other with below | above
  · rw [state_of_lt (by simp; omega), state_of_lt below]
    simp [push, Array.getElem_push_lt below]
  · rw [state_of_le (by simp; omega), state_of_le (by omega)]

theorem push_out (net : Network) {s : State} (empty : s.transitions = []) (n : Nat) :
    (net.push s).out n = net.out n := by
  by_cases new : n = net.states.size
  · subst new
    rw [out_of_le (Nat.le_refl _), out, push_state_new, empty]
  · rw [out, push_state_of_ne _ _ new, out]

/-- The kinds of the old states stay. -/
theorem push_kind (net : Network) (s : State) {n : Nat} (valid : (net.state n).kind ≠ .invalid) :
    ((net.push s).state n).kind = (net.state n).kind := by
  rw [push_state_of_ne]
  rintro rfl
  exact valid (by rw [state_of_le (Nat.le_refl _)])

/-- Changes the last state. -/
theorem push_modify (net : Network) (s : State) (f : State → State) :
    (net.push s).modifyState net.states.size f = net.push (f s) := by
  simp only [push, modifyState]
  congr 1
  refine Array.ext (by simp) fun i inside _ => ?_
  simp only [Array.getElem_modify, Array.getElem_push]
  grind

/-- Changes a state before the last. -/
theorem push_modify_of_lt (net : Network) (s : State) {m : Nat} (inside : m < net.states.size)
    (f : State → State) : (net.push s).modifyState m f = (net.modifyState m f).push s := by
  simp only [push, modifyState]
  congr 1
  refine Array.ext (by simp) fun i _ _ => ?_
  simp only [Array.getElem_modify, Array.getElem_push, Array.size_modify]
  grind

/-- The last state gets the next decision. -/
theorem push_defineDecision (net : Network) (s : State) :
    ((net.push s).defineDecision net.states.size).2 =
      { net.push { s with decision := some net.decisions.size } with
        decisions := net.decisions.push net.states.size } := by
  have changed := push_modify net s ({ · with decision := some net.decisions.size })
  exact congrArg (fun changed : Network =>
    { changed with decisions := net.decisions.push net.states.size }) changed

theorem push_decided (net : Network) (s : State) (greedy : Bool) :
    ((net.push s).defineDecision net.states.size).2.modifyState net.states.size
        ({ · with nonGreedy := !greedy }) =
      { net.push { s with decision := some net.decisions.size, nonGreedy := !greedy } with
        decisions := net.decisions.push net.states.size } := by
  have changed := push_modify net { s with decision := some net.decisions.size }
    ({ · with nonGreedy := !greedy })
  rw [push_defineDecision]
  exact congrArg (fun changed : Network =>
    { changed with decisions := net.decisions.push net.states.size }) changed

namespace Equipped

/-- Whether a network is equipped depends on its decisions, its labels and its actions. -/
theorem of_same (equipped : net.Equipped g) (decisions : net'.decisions = net.decisions)
    (actions : net'.actions = net.actions) (kind : ∀ n, (net'.state n).kind = (net.state n).kind)
    (decision : ∀ n, (net'.state n).decision = (net.state n).decision)
    (out : ∀ n, net'.out n = net.out n) : net'.Equipped g := by
  refine ⟨fun d n => ?_, fun n d => ?_, fun n t => ?_, ?_⟩
  · rw [decisions, kind, decision]
    exact equipped.decides d n
  · rw [decisions, decision]
    exact equipped.decision n d
  · rw [out, actions]
    exact equipped.labels n t
  · rw [actions]
    exact equipped.actions

/-- A new state without transitions and decision. -/
theorem push (equipped : net.Equipped g) {s : State} (empty : s.transitions = [])
    (undecided : s.decision = none) : (net.push s).Equipped g := by
  have new : (net.state net.states.size).decision = none := by rw [state_of_le (Nat.le_refl _)]
  refine ⟨fun d n owns => ?_, fun n d decision => ?_, fun n t member => ?_, equipped.actions⟩
  · obtain ⟨decision, kind⟩ := equipped.decides d n owns
    rw [push_state_of_ne]
    · exact ⟨decision, kind⟩
    · rintro rfl
      cases new.symm.trans decision
  · by_cases isNew : n = net.states.size
    · subst isNew
      rw [push_state_new, undecided] at decision
      cases decision
    · rw [push_state_of_ne _ _ isNew] at decision
      exact equipped.decision n d decision
  · rw [push_out _ empty] at member
    exact equipped.labels n t member

/-- A new state that owns the next decision. -/
theorem pushDecided (equipped : net.Equipped g) {s : State} (empty : s.transitions = [])
    (decided : s.decision = some net.decisions.size) (kind : s.kind.isDecision = true) :
    ({ net.push s with decisions := net.decisions.push net.states.size } : Network).Equipped g := by
  refine ⟨fun d n owns => ?_, fun n d decision => ?_, fun n t member => ?_, equipped.actions⟩
  · change ((net.push s).state n).decision = some d ∧ ((net.push s).state n).kind.isDecision = true
    rw [Array.getElem?_push] at owns
    split at owns
    · rename_i last
      cases owns
      rw [push_state_new, last]
      exact ⟨decided, kind⟩
    · obtain ⟨decision, isDecision⟩ := equipped.decides d n owns
      rw [push_state_of_ne]
      · exact ⟨decision, isDecision⟩
      · rintro rfl
        rw [state_of_le (Nat.le_refl _)] at decision
        cases decision
  · change ((net.push s).state n).decision = some d at decision
    by_cases isNew : n = net.states.size
    · subst isNew
      rw [push_state_new, decided] at decision
      cases decision
      simp
    · rw [push_state_of_ne _ _ isNew] at decision
      have owns := equipped.decision n d decision
      obtain ⟨inside, same⟩ := Array.getElem?_eq_some_iff.1 owns
      rw [Array.getElem?_push_lt inside, same]
  · exact equipped.labels n t (by rwa [← push_out net empty])

theorem addEdges (equipped : net.Equipped g) {edges : List (Nat × Transition)}
    (fits : ∀ e ∈ edges, g.LabelFits net.actions.size e.2.label) :
    (net.addEdges edges).Equipped g := by
  have tables := net.addEdges_eq edges
  have decisions : (net.addEdges edges).decisions = net.decisions := by rw [tables]
  have actions : (net.addEdges edges).actions = net.actions := by rw [tables]
  have kept (n : Nat) : ((net.addEdges edges).state n).decision = (net.state n).decision ∧
      ((net.addEdges edges).state n).kind = (net.state n).kind := by
    rcases Nat.lt_or_ge n net.states.size with inside | outside
    · rw [addEdges_state _ _ inside]
      exact ⟨rfl, rfl⟩
    · rw [state_of_le outside, state_of_le (by rwa [addEdges_size])]
      exact ⟨rfl, rfl⟩
  refine ⟨fun d n => ?_, fun n d => ?_, fun n t member => ?_, by rw [actions]; exact equipped.actions⟩
  · rw [decisions, (kept n).1, (kept n).2]
    exact equipped.decides d n
  · rw [decisions, (kept n).1]
    exact equipped.decision n d
  · rw [actions]
    rcases Nat.lt_or_ge n net.states.size with inside | outside
    · rw [addEdges_out _ _ inside, List.mem_append] at member
      rcases member with old | new
      · exact equipped.labels n t old
      · obtain ⟨e, among, here⟩ := List.mem_filterMap.1 new
        split at here
        · cases here
          exact fits e among
        · cases here
    · rw [out_of_le (by rwa [addEdges_size])] at member
      cases member

/-- A state that may own a decision gets one. -/
theorem defineDecision (equipped : net.Equipped g) {m : Nat} (inside : m < net.states.size)
    (undecided : (net.state m).decision = none) (kind : (net.state m).kind.isDecision = true) :
    (net.defineDecision m).2.Equipped g := by
  have same : (net.defineDecision m).2.state m =
      { net.state m with decision := some net.decisions.size } := modifyState_state_same net _ inside
  have other {n : Nat} (apart : n ≠ m) : (net.defineDecision m).2.state n = net.state n :=
    modifyState_state_of_ne net _ apart
  have decisions : (net.defineDecision m).2.decisions = net.decisions.push m := rfl
  refine ⟨fun d n owns => ?_, fun n d decision => ?_, fun n t member => ?_, equipped.actions⟩
  · rw [decisions, Array.getElem?_push] at owns
    split at owns
    · rename_i last
      cases owns
      rw [same, last]
      exact ⟨rfl, kind⟩
    · obtain ⟨decision, isDecision⟩ := equipped.decides d n owns
      rw [other]
      · exact ⟨decision, isDecision⟩
      · rintro rfl
        cases undecided.symm.trans decision
  · rw [decisions]
    by_cases here : n = m
    · subst here
      rw [same] at decision
      cases decision
      simp
    · rw [other here] at decision
      obtain ⟨bound, owner⟩ := Array.getElem?_eq_some_iff.1 (equipped.decision n d decision)
      rw [Array.getElem?_push_lt bound, owner]
  · rw [defineDecision_out] at member
    exact equipped.labels n t member

/-- A change of a state that leaves its decision. -/
theorem modify (equipped : net.Equipped g) (m : Nat) (f : State → State)
    (decision : ∀ s, (f s).decision = s.decision)
    (kind : ∀ s, s.kind.isDecision = true → (f s).kind.isDecision = true)
    (labels : ∀ s, ∀ t ∈ (f s).transitions,
      t ∈ s.transitions ∨ g.LabelFits net.actions.size t.label) : (net.modifyState m f).Equipped g := by
  have sameDecision := net.modifyState_keeps m f (·.decision) decision
  refine ⟨fun d n owns => ?_, fun n d => ?_, fun n t member => ?_, equipped.actions⟩
  · rw [sameDecision]
    obtain ⟨decided, isDecision⟩ := equipped.decides d n owns
    refine ⟨decided, ?_⟩
    by_cases here : n = m
    · subst here
      have inside : n < net.states.size := by
        by_contra outside
        rw [state_of_le (Nat.not_lt.1 outside)] at decided
        cases decided
      rw [modifyState_state_same _ _ inside]
      exact kind _ isDecision
    · rwa [modifyState_state_of_ne _ _ here]
  · rw [sameDecision]
    exact equipped.decision n d
  · by_cases here : n = m
    · subst here
      rcases Nat.lt_or_ge n net.states.size with inside | outside
      · rw [out, modifyState_state_same _ _ inside] at member
        exact (labels _ t member).elim (equipped.labels n t) id
      · rw [out_of_le (by rwa [modifyState_size])] at member
        cases member
    · rw [out, modifyState_state_of_ne _ _ here] at member
      exact equipped.labels n t member

end Equipped

end Network

/-! ## Labels of leaves -/

theorem SymbolSet.proper_ofRange {lo hi : Int} (low : -2147483648 ≤ lo) (high : hi < 2147483648) :
    (SymbolSet.ofRange lo hi).Proper := by
  refine ⟨SymbolSet.canonical_ofRange lo hi, fun v member => ?_, fun v member => ?_⟩
  all_goals
    have bounds := (SymbolSet.contains_ofRange lo hi v).1 member
    omega

namespace Grammar

variable {g : Grammar} {count : Nat}

theorem labelFits_atom {v : Int} (low : -2147483648 ≤ v) (high : v < 2147483648) :
    g.LabelFits count (Layout.atomLabel v) := by
  unfold Layout.atomLabel
  split
  · exact SymbolSet.proper_ofRange low high
  · trivial

theorem labelFits_range {lo hi : Int} (low : -2147483648 ≤ lo)
    (high : hi < 2147483648) : g.LabelFits count (Layout.rangeLabel lo hi) := by
  unfold Layout.rangeLabel
  split
  · rename_i same
    exact labelFits_atom low (by omega)
  · split
    · exact SymbolSet.proper_ofRange low high
    · trivial

end Grammar

end AdaptiveLL
