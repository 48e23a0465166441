import AdaptiveLL.Proofs.Grammar.Laid
import Mathlib.Data.List.Nodup

/-!
# Laying elements out

Laying out an element of a rule only adds: the states that were there stay as they are, the new ones
are inner states of the rule (`Grown`), and on the new states the element is laid (`element_laid`).
Since what surrounds an element later adds transitions to its right end, the element is laid in every
network that agrees with the present one on its states up to the right end.
-/

set_option autoImplicit false

namespace AdaptiveLL

/-- Is it the kind of a state inside a rule? -/
def StateKind.isInner : StateKind → Bool
  | .invalid | .ruleStart _ _ | .tokenStart | .ruleStop => false
  | _ => true

namespace Layout

variable {rule : Nat} {base net net' : Network}

/-! ## Networks that grow by inner states -/

/-- The network `net'` has grown from `base` by inner states of a rule. -/
structure Grown (rule : Nat) (base net' : Network) : Prop where
  size : base.states.size ≤ net'.states.size
  old : ∀ n < base.states.size, net'.state n = base.state n
  number : ∀ n, base.states.size ≤ n → n < net'.states.size → (net'.state n).number = n
  owner : ∀ n, base.states.size ≤ n → n < net'.states.size → (net'.state n).rule = some rule
  inner : ∀ n, base.states.size ≤ n → n < net'.states.size → (net'.state n).kind.isInner = true
  kind : net'.kind = base.kind
  maxTokenType : net'.maxTokenType = base.maxTokenType
  ruleStarts : net'.ruleStarts = base.ruleStarts
  ruleStops : net'.ruleStops = base.ruleStops
  ruleTypes : net'.ruleTypes = base.ruleTypes
  modeStarts : net'.modeStarts = base.modeStarts

namespace Grown

theorem refl (rule : Nat) (net : Network) : Grown rule net net where
  size := Nat.le_refl _
  old _ _ := rfl
  number _ above below := absurd below (Nat.not_lt.2 above)
  owner _ above below := absurd below (Nat.not_lt.2 above)
  inner _ above below := absurd below (Nat.not_lt.2 above)
  kind := rfl
  maxTokenType := rfl
  ruleStarts := rfl
  ruleStops := rfl
  ruleTypes := rfl
  modeStarts := rfl

theorem trans (first : Grown rule base net) (second : Grown rule net net') :
    Grown rule base net' where
  size := Nat.le_trans first.size second.size
  old n below := by
    rw [second.old n (Nat.lt_of_lt_of_le below first.size), first.old n below]
  number n above below := by
    rcases Nat.lt_or_ge n net.states.size with early | late
    · rw [second.old n early, first.number n above early]
    · exact second.number n late below
  owner n above below := by
    rcases Nat.lt_or_ge n net.states.size with early | late
    · rw [second.old n early, first.owner n above early]
    · exact second.owner n late below
  inner n above below := by
    rcases Nat.lt_or_ge n net.states.size with early | late
    · rw [second.old n early, first.inner n above early]
    · exact second.inner n late below
  kind := second.kind.trans first.kind
  maxTokenType := second.maxTokenType.trans first.maxTokenType
  ruleStarts := second.ruleStarts.trans first.ruleStarts
  ruleStops := second.ruleStops.trans first.ruleStops
  ruleTypes := second.ruleTypes.trans first.ruleTypes
  modeStarts := second.modeStarts.trans first.modeStarts

/-- The transitions of an old state stay. -/
theorem old_out (grown : Grown rule base net) {n : Nat} (below : n < base.states.size) :
    net.out n = base.out n := by
  rw [Network.out, grown.old n below, Network.out]

/-- A new inner state. -/
theorem addState (grown : Grown rule base net) {kind : StateKind} (inner : kind.isInner = true) :
    Grown rule base (net.addState (some rule) kind).2 := by
  refine grown.trans ?_
  have isNew : ∀ n, net.states.size ≤ n → n < (net.addState (some rule) kind).2.states.size →
      n = net.states.size := by
    intro n above below
    rw [Network.addState_size] at below
    omega
  refine { refl rule net with size := ?_, old := ?_, number := ?_, owner := ?_, inner := ?_ }
  · rw [Network.addState_size]
    omega
  · intro n below
    exact Network.addState_state_of_ne _ _ _ (Nat.ne_of_lt below)
  all_goals
    intro n above below
    obtain rfl := isNew n above below
    rw [Network.addState_state_new]
  exact inner

/-- A change of a new state that leaves its number, its rule and its being inner. -/
theorem modify (grown : Grown rule base net) {m : Nat} (new : base.states.size ≤ m)
    {f : State → State} (number : ∀ s, (f s).number = s.number) (owner : ∀ s, (f s).rule = s.rule)
    (inner : ∀ s, s.kind.isInner = true → (f s).kind.isInner = true) :
    Grown rule base (net.modifyState m f) := by
  refine { grown with size := ?_, old := ?_, number := ?_, owner := ?_, inner := ?_ }
  · rw [Network.modifyState_size]
    exact grown.size
  · intro n below
    rw [Network.modifyState_state_of_ne _ _ (by omega)]
    exact grown.old n below
  all_goals
    intro n above below
    rw [Network.modifyState_size] at below
    by_cases same : n = m
    · subst same
      rw [Network.modifyState_state_same _ _ below]
      grind [grown.number n above below, grown.owner n above below, grown.inner n above below]
    · rw [Network.modifyState_state_of_ne _ _ same]
      grind [grown.number n above below, grown.owner n above below, grown.inner n above below]

/-- A new transition of a new state. -/
theorem addTransition (grown : Grown rule base net) {m : Nat} (new : base.states.size ≤ m)
    (t : Transition) : Grown rule base (Decode.addEdge net (m, t)) :=
  grown.modify new (fun _ => rfl) (fun _ => rfl) (fun _ inner => inner)

/-- A new state becomes a decision. -/
theorem defineDecision (grown : Grown rule base net) {m : Nat} (new : base.states.size ≤ m) :
    Grown rule base (net.defineDecision m).2 :=
  { grown.modify new (f := fun s => { s with decision := some net.decisions.size })
      (fun _ => rfl) (fun _ => rfl) (fun _ inner => inner) with }

/-- New transitions of new states. -/
theorem addEdges (grown : Grown rule base net) {edges : List (Nat × Transition)}
    (new : ∀ e ∈ edges, base.states.size ≤ e.1) : Grown rule base (net.addEdges edges) := by
  induction edges generalizing net with
  | nil => exact grown
  | cons e edges ih =>
    rw [Network.addEdges_cons]
    exact ih (grown.addTransition (new e (by simp)) e.2) fun e' member => new e' (by simp [member])

end Grown

/-! ## Steps of the layout -/

/-- A sequence of two steps succeeds when both do. -/
theorem bind_ok {α β : Type} {x : Layout α} {f : α → Layout β} {r : β × Network} :
    (x >>= f).run net = .ok r ↔ ∃ a mid, x.run net = .ok (a, mid) ∧ (f a).run mid = .ok r := by
  constructor
  · intro run
    rw [StateT.run_bind] at run
    cases first : x.run net with
    | error e => rw [first] at run; cases run
    | ok p => rw [first] at run; exact ⟨p.1, p.2, rfl, run⟩
  · rintro ⟨a, mid, first, second⟩
    rw [StateT.run_bind, first]
    exact second

/-- Two new states joined by a transition. An edge is the case in which it leads from the one to the
other; a call leads away and names the second. -/
def pair (rule : Nat) (t : Nat → Transition) : Layout Segment := do
  let left ← addState rule .basic
  let right ← addState rule .basic
  addTransition left (t right)
  return ⟨left, right⟩

theorem edge_eq (rule : Nat) (label : Label) :
    edge rule label = pair rule fun right => ⟨right, label⟩ := rfl

theorem pair_run {t : Nat → Transition} {seg : Segment}
    (run : (pair rule t).run net = .ok (seg, net')) :
    seg = ⟨net.states.size, net.states.size + 1⟩ ∧ Grown rule net net' ∧
      net'.states.size = net.states.size + 2 ∧
      net'.out net.states.size = [t (net.states.size + 1)] ∧
      net'.out (net.states.size + 1) = [] := by
  let first := (net.addState (some rule) .basic).2
  let second := (first.addState (some rule) .basic).2
  have size : second.states.size = net.states.size + 2 := by simp [second, first]
  have result : (pair rule t).run net = .ok (⟨net.states.size, first.states.size⟩,
      Decode.addEdge second (net.states.size, t first.states.size)) := rfl
  have firstSize : first.states.size = net.states.size + 1 := by simp [first]
  rw [result, firstSize] at run
  cases run
  refine ⟨rfl, ?_, ?_, ?_, ?_⟩
  · exact (((Grown.refl rule net).addState rfl).addState rfl).addTransition (Nat.le_refl _) _
  · rw [Network.addEdge_size, size]
  · rw [Network.addEdge_out, if_pos ⟨rfl, by omega⟩]
    simp [second, first, Network.out_of_le]
  · rw [Network.addEdge_out, if_neg (by simp)]
    simp [second, first, Network.out_of_le]

/-- The edges around the alternatives of a block. -/
def sideEdges (start stop : Nat) (alts : List Segment) : List (Nat × Transition) :=
  alts.flatMap fun a => [(start, .epsilon a.left), (a.right, .epsilon stop)]

theorem sides_run (start stop : Nat) (alts : List Segment) (net : Network) :
    (alts.forM fun a => do
      join start a.left
      join a.right stop : Layout Unit).run net = .ok ((), net.addEdges (sideEdges start stop alts)) := by
  induction alts generalizing net with
  | nil => rfl
  | cons a alts ih =>
    rw [List.forM, bind_ok]
    exact ⟨(), _, rfl, ih _⟩

theorem edgesFrom_sides_start {start stop : Nat} {alts : List Segment}
    (apart : ∀ a ∈ alts, a.right ≠ start) :
    Network.edgesFrom start (sideEdges start stop alts) = Network.waysIn alts := by
  induction alts with
  | nil => rfl
  | cons a alts ih =>
    have later := ih fun a' member => apart a' (by simp [member])
    have here : a.right ≠ start := apart a (by simp)
    simp only [sideEdges, Network.edgesFrom, Network.waysIn] at later ⊢
    simp [here, later]

theorem edgesFrom_sides_of_ne {start stop n : Nat} {alts : List Segment} (other : n ≠ start) :
    Network.edgesFrom n (sideEdges start stop alts) =
      List.replicate ((alts.map (·.right)).count n) (.epsilon stop) := by
  induction alts with
  | nil => rfl
  | cons a alts ih =>
    simp only [sideEdges, Network.edgesFrom] at ih ⊢
    by_cases here : a.right = n
    · simp [Ne.symm other, here, ih, List.replicate_succ]
    · simp [Ne.symm other, here, ih]

/-- A block takes two new states: its start leads into the alternatives, and each alternative gets an
edge to its stop. -/
theorem block_run {kind : BlockKind} {alts : List Segment} {seg : Segment}
    (grown : Grown rule base net)
    (rights : ∀ a ∈ alts, base.states.size ≤ a.right ∧ a.right < net.states.size)
    (run : (block rule kind alts).run net = .ok (seg, net')) :
    seg = ⟨net.states.size, net.states.size + 1⟩ ∧ Grown rule base net' ∧
      net'.states.size = net.states.size + 2 ∧
      net'.out net.states.size = Network.waysIn alts ∧ net'.out (net.states.size + 1) = [] ∧
      ∀ n < net.states.size, net'.out n = net.out n ++
        List.replicate ((alts.map (·.right)).count n) (.epsilon (net.states.size + 1)) := by
  let first := (net.addState (some rule) (.blockStart kind none)).2
  let second := if alts.length > 1 then (first.defineDecision net.states.size).2 else first
  let third := (second.addState (some rule) (.blockEnd (some net.states.size))).2
  let fourth := third.modifyState net.states.size
    ({ · with kind := .blockStart kind (some second.states.size) })
  have secondSize : second.states.size = net.states.size + 1 := by
    simp only [second, first]
    split <;> simp
  have result : (block rule kind alts).run net = .ok (⟨net.states.size, second.states.size⟩,
      fourth.addEdges (sideEdges net.states.size second.states.size alts)) := by
    have sides := sides_run net.states.size second.states.size alts fourth
    rw [block, bind_ok]
    refine ⟨net.states.size, first, rfl, ?_⟩
    simp only [fourth, third, second] at sides ⊢
    by_cases several : alts.length > 1
    · simp only [if_pos several] at sides ⊢
      exact bind_ok.2 ⟨(), _, rfl, bind_ok.2 ⟨_, _, rfl, bind_ok.2 ⟨(), _, rfl,
        bind_ok.2 ⟨(), _, sides, rfl⟩⟩⟩⟩
    · simp only [if_neg several] at sides ⊢
      exact bind_ok.2 ⟨_, _, rfl, bind_ok.2 ⟨(), _, rfl, bind_ok.2 ⟨(), _, sides, rfl⟩⟩⟩
  have size : fourth.states.size = net.states.size + 2 := by
    simp [fourth, third, secondSize]
  have out (n : Nat) : fourth.out n = net.out n := by
    have kept := Network.modifyState_out_of_keeps third net.states.size
      ({ · with kind := .blockStart kind (some second.states.size) }) (fun _ => rfl) n
    rw [kept, Network.addState_out]
    simp only [second]
    split <;> simp [first]
  have grownFourth : Grown rule base fourth := by
    have fresh := grown.size
    have grownSecond : Grown rule base second := by
      simp only [second]
      split
      · exact (grown.addState rfl).defineDecision fresh
      · exact grown.addState rfl
    exact (grownSecond.addState rfl).modify fresh (fun _ => rfl) (fun _ => rfl) fun _ _ => rfl
  rw [result, secondSize] at run
  cases run
  refine ⟨rfl, ?_, ?_, ?_, ?_, ?_⟩
  · refine grownFourth.addEdges fun e member => ?_
    obtain ⟨a, mem, side⟩ := List.mem_flatMap.1 member
    have bound := (rights a mem).1
    have fresh := grown.size
    simp only [List.mem_cons, List.not_mem_nil, or_false] at side
    rcases side with rfl | rfl
    · exact fresh
    · exact bound
  · rw [Network.addEdges_size, size]
  · rw [Network.addEdges_out _ _ (by omega), out, Network.out_of_le (Nat.le_refl _),
      edgesFrom_sides_start fun a mem => Nat.ne_of_lt (rights a mem).2]
    rfl
  · rw [Network.addEdges_out _ _ (by omega), out, Network.out_of_le (by omega),
      edgesFrom_sides_of_ne (by omega), List.count_eq_zero_of_not_mem]
    · rfl
    · intro member
      obtain ⟨a, mem, same⟩ := List.mem_map.1 member
      have bound := (rights a mem).2
      omega
  · intro n below
    rw [Network.addEdges_out _ _ (by omega), out, edgesFrom_sides_of_ne (by omega)]

/-! ## Placed elements -/

/-- The networks have the same transitions on the states from `lo` up to `hi`, but for some ends. -/
structure Agree (lo hi : Nat) (ends : List Nat) (net final : Network) : Prop where
  out : ∀ n, lo ≤ n → n < hi → n ∉ ends → final.out n = net.out n
  ruleStarts : final.ruleStarts = net.ruleStarts

/-- A step from `net` to `net'` has placed an element of which `P` holds, in `net'` and in every
network that differs from it only in what leaves the right end. -/
structure Placed (rule : Nat) (net net' : Network) (seg : Segment) (P : Network → Prop) : Prop where
  grown : Grown rule net net'
  left : net.states.size ≤ seg.left ∧ seg.left < net'.states.size
  right : net.states.size ≤ seg.right ∧ seg.right < net'.states.size
  ends : net'.out seg.right = []
  holds : ∀ final, Agree net.states.size net'.states.size [seg.right] net' final → P final

/-- A step from `net` to `net'` has placed several elements. -/
structure PlacedAll (rule : Nat) (net net' : Network) (segs : List Segment) (P : Network → Prop) :
    Prop where
  grown : Grown rule net net'
  left : ∀ s ∈ segs, net.states.size ≤ s.left ∧ s.left < net'.states.size
  right : ∀ s ∈ segs, net.states.size ≤ s.right ∧ s.right < net'.states.size
  apart : (segs.map (·.right)).Nodup
  ends : ∀ s ∈ segs, net'.out s.right = []
  holds : ∀ final, Agree net.states.size net'.states.size (segs.map (·.right)) net' final → P final

/-- One transition is a placed element. -/
theorem placed_pair {t : Nat → Transition} {seg : Segment} {P : Network → Prop}
    (run : (pair rule t).run net = .ok (seg, net'))
    (holds : ∀ final : Network, final.ruleStarts = net.ruleStarts →
      seg = ⟨net.states.size, net.states.size + 1⟩ → net'.states.size = net.states.size + 2 →
      final.out net.states.size = [t (net.states.size + 1)] → P final) :
    Placed rule net net' seg P := by
  obtain ⟨rfl, grown, size, leaves, ends⟩ := pair_run run
  refine ⟨grown, ⟨Nat.le_refl _, by simp only [size]; omega⟩,
    ⟨by simp only []; omega, by simp only [size]; omega⟩, ends, ?_⟩
  intro final agree
  refine holds final (agree.ruleStarts.trans grown.ruleStarts) rfl size ?_
  rw [agree.out _ (Nat.le_refl _) (by omega) (by simp), leaves]

/-- Alternatives that are led to a common stop state stay what they are. -/
theorem PlacedAll.around {net₁ net₂ final : Network} {segs : List Segment} {P : Network → Prop}
    {stop hi : Nat} {ends : List Nat} (placed : PlacedAll rule net net₁ segs P)
    (led : ∀ n < net₁.states.size, net₂.out n =
      net₁.out n ++ List.replicate ((segs.map (·.right)).count n) (.epsilon stop))
    (starts : net₂.ruleStarts = net₁.ruleStarts)
    (agree : Agree net.states.size hi ends net₂ final) (inside : net₁.states.size ≤ hi)
    (outside : ∀ n ∈ ends, net₁.states.size ≤ n) : P final ∧ final.EndAt segs stop := by
  have kept : ∀ n, net.states.size ≤ n → n < net₁.states.size → final.out n =
      net₁.out n ++ List.replicate ((segs.map (·.right)).count n) (.epsilon stop) := by
    intro n above below
    rw [agree.out n above (by omega) fun member => by have := outside n member; omega]
    exact led n below
  refine ⟨placed.holds final ⟨?_, agree.ruleStarts.trans starts⟩, ?_⟩
  · intro n above below free
    rw [kept n above below, List.count_eq_zero_of_not_mem free]
    simp
  · intro s member
    obtain ⟨above, below⟩ := placed.right s member
    have once := List.count_eq_one_of_mem placed.apart (List.mem_map_of_mem member)
    rw [kept _ above below, once, placed.ends s member]
    rfl

theorem block_placed {kind : BlockKind} {segs : List Segment} {seg : Segment} {net₁ net₂ : Network}
    {P Q : Network → Prop} (placed : PlacedAll rule net net₁ segs P)
    (run : (block rule kind segs).run net₁ = .ok (seg, net₂))
    (holds : ∀ final : Network, seg = ⟨net₁.states.size, net₁.states.size + 1⟩ →
      net₂.states.size = net₁.states.size + 2 → P final →
      final.out net₁.states.size = Network.waysIn segs →
      final.EndAt segs (net₁.states.size + 1) → Q final) :
    Placed rule net net₂ seg Q := by
  obtain ⟨rfl, grown, size, enters, ends, led⟩ := block_run placed.grown placed.right run
  have above := placed.grown.size
  refine ⟨grown, ⟨above, by simp only [size]; omega⟩, ⟨by simp only []; omega,
    by simp only [size]; omega⟩, ends, ?_⟩
  intro final agree
  have starts := grown.ruleStarts.trans placed.grown.ruleStarts.symm
  obtain ⟨parts, ended⟩ := placed.around led starts agree (by omega) (by simp)
  refine holds final rfl size parts ?_ ended
  rw [agree.out _ above (by omega) (by simp), enters]

theorem optionalBlock_placed {greedy : Bool} {segs : List Segment} {seg : Segment}
    {net₁ net₂ : Network} {P Q : Network → Prop} (placed : PlacedAll rule net net₁ segs P)
    (run : (optionalBlock rule greedy segs).run net₁ = .ok (seg, net₂))
    (holds : ∀ final : Network, P final →
      final.Repeated greedy segs net₁.states.size .optional seg net₂.states.size → Q final) :
    Placed rule net net₂ seg Q := by
  rw [optionalBlock, bind_ok] at run
  obtain ⟨b, mid, blockRun, run⟩ := run
  obtain ⟨rfl, grown, size, enters, ends, led⟩ := block_run placed.grown placed.right blockRun
  have above := placed.grown.size
  let addExit (s : State) : State :=
    if greedy then s.addTransition (.epsilon (net₁.states.size + 1))
    else s.insertTransition 0 (.epsilon (net₁.states.size + 1))
  -- Whether the block is made a decision here or was one before does not show in its transitions.
  obtain ⟨decided, grownDecided, sizeDecided, outDecided, result⟩ : ∃ decided : Network,
      Grown rule net decided ∧ decided.states.size = mid.states.size ∧
      (∀ n, decided.out n = mid.out n) ∧
      (Except.ok (⟨net₁.states.size, net₁.states.size + 1⟩,
        decided.modifyState net₁.states.size addExit) :
        Except BuildError (Segment × Network)) = .ok (seg, net₂) := by
    let unmarked := if (mid.state net₁.states.size).decision.isNone then
      (mid.defineDecision net₁.states.size).2 else mid
    refine ⟨unmarked.modifyState net₁.states.size ({ · with nonGreedy := !greedy }),
      ?_, ?_, ?_, ?_⟩
    · refine Grown.modify ?_ above (fun _ => rfl) (fun _ => rfl) fun _ inner => inner
      simp only [unmarked]
      split
      · exact grown.defineDecision above
      · exact grown
    · simp only [unmarked]
      split <;> simp
    · intro n
      have kept := Network.modifyState_out_of_keeps unmarked net₁.states.size
        ({ · with nonGreedy := !greedy }) (fun _ => rfl) n
      rw [kept]
      simp only [unmarked]
      split <;> simp
    · rw [← run]
      symm
      rw [bind_ok]
      refine ⟨mid, mid, rfl, ?_⟩
      by_cases undecided : (mid.state net₁.states.size).decision.isNone
      · simp only [unmarked, if_pos undecided]
        rfl
      · simp only [unmarked, if_neg undecided]
        rfl
  cases result
  have bound : net₁.states.size < decided.states.size := by omega
  refine ⟨?_, ⟨above, ?_⟩, ⟨by simp only []; omega, ?_⟩, ?_, ?_⟩
  · refine grownDecided.modify above ?_ ?_ ?_
    all_goals
      intro s
      cases greedy
      · simp [addExit, State.insertTransition]
      · simp [addExit, State.addTransition]
  · simp only [Network.modifyState_size]
    exact bound
  · simp only [Network.modifyState_size]
    omega
  · rw [Network.out, Network.modifyState_state_of_ne _ _ (by simp), ← Network.out, outDecided, ends]
  · intro final agree
    have outAt : final.out net₁.states.size =
        Network.inOrder greedy (Network.waysIn segs) [.epsilon (net₁.states.size + 1)] := by
      have before : (decided.state net₁.states.size).transitions = Network.waysIn segs := by
        rw [← Network.out, outDecided, enters]
      rw [agree.out _ above (by simpa using bound) (by simp), Network.out,
        Network.modifyState_state_same _ _ bound]
      cases greedy
      · simp [addExit, State.insertTransition, Network.inOrder, before]
      · simp [addExit, State.addTransition, Network.inOrder, before]
    have starts : (decided.modifyState net₁.states.size addExit).ruleStarts = net₁.ruleStarts :=
      grownDecided.ruleStarts.trans placed.grown.ruleStarts.symm
    obtain ⟨parts, ended⟩ := placed.around (fun n below => by
      rw [Network.out, Network.modifyState_state_of_ne _ _ (Nat.ne_of_lt below), ← Network.out,
        outDecided, led n below]) starts agree (by simp only [Network.modifyState_size]; omega)
      (by simp)
    refine holds final parts ?_
    rw [Network.modifyState_size, sizeDecided, size]
    exact .optional outAt ended

/-- The transitions that a state gets from a decision. -/
theorem edgesFrom_map (n m : Nat) (ts : List Transition) :
    Network.edgesFrom m (ts.map fun t => (n, t)) = if n = m then ts else [] := by
  induction ts with
  | nil => simp [Network.edgesFrom]
  | cons t ts ih =>
    simp only [Network.edgesFrom] at ih ⊢
    by_cases same : n = m
    · simp [same] at ih ⊢
    · simp [same]

theorem edgesFrom_append (n : Nat) (first second : List (Nat × Transition)) :
    Network.edgesFrom n (first ++ second) =
      Network.edgesFrom n first ++ Network.edgesFrom n second :=
  List.filterMap_append

theorem edgesFrom_cons (n m : Nat) (t : Transition) (edges : List (Nat × Transition)) :
    Network.edgesFrom n ((m, t) :: edges) =
      if m = n then t :: Network.edgesFrom n edges else Network.edgesFrom n edges := by
  by_cases same : m = n
  · simp [Network.edgesFrom, same]
  · simp [Network.edgesFrom, same]

/-- What the two kinds of loops share: states behind a block, then edges that leave only them and the
end of the block. -/
theorem loop_placed {kind : BlockKind} {segs : List Segment} {block' seg : Segment}
    {net₁ mid linked : Network} {edges : List (Nat × Transition)} {P Q : Network → Prop}
    (placed : PlacedAll rule net net₁ segs P)
    (blockRun : (block rule kind segs).run net₁ = .ok (block', mid))
    (grown : Grown rule net mid → Grown rule net linked) (out : ∀ n, linked.out n = mid.out n)
    (sources : ∀ e ∈ edges, net₁.states.size < e.1)
    (left : net₁.states.size ≤ seg.left ∧ seg.left < linked.states.size)
    (right : net₁.states.size + 2 ≤ seg.right ∧ seg.right < linked.states.size)
    (free : Network.edgesFrom seg.right edges = [])
    (holds : ∀ final : Network, P final → final.out net₁.states.size = Network.waysIn segs →
      final.EndAt segs (net₁.states.size + 1) →
      (∀ n, net₁.states.size < n → n < linked.states.size → n ≠ seg.right →
        final.out n = Network.edgesFrom n edges) → Q final) :
    Placed rule net (linked.addEdges edges) seg Q := by
  obtain ⟨-, grownMid, size, enters, ends, led⟩ := block_run placed.grown placed.right blockRun
  have above := placed.grown.size
  have noEdge : ∀ n ≤ net₁.states.size, Network.edgesFrom n edges = [] := by
    intro n below
    refine List.filterMap_eq_nil_iff.2 fun e member => if_neg ?_
    have := sources e member
    omega
  have midOut : ∀ n, net₁.states.size < n → mid.out n = [] := by
    intro n later
    rcases Nat.eq_or_lt_of_le (Nat.succ_le_of_lt later) with rfl | later
    · exact ends
    · exact Network.out_of_le (by omega)
  have newOut : ∀ n < linked.states.size,
      (linked.addEdges edges).out n = mid.out n ++ Network.edgesFrom n edges := by
    intro n below
    rw [Network.addEdges_out _ _ below, out]
  have grownAll : Grown rule net (linked.addEdges edges) :=
    (grown grownMid).addEdges fun e member => by have := sources e member; omega
  refine ⟨grownAll, ⟨by omega, by simpa using left.2⟩, ⟨by omega, by simpa using right.2⟩, ?_, ?_⟩
  · rw [newOut _ right.2, midOut _ (by omega), free]
    rfl
  · intro final agree
    rw [Network.addEdges_size] at agree
    have starts := grownAll.ruleStarts.trans placed.grown.ruleStarts.symm
    obtain ⟨parts, stops⟩ := placed.around (fun n below => by
      rw [newOut n (by omega), noEdge n (by omega), led n below, List.append_nil]) starts agree
      (by omega) (by simp only [List.mem_singleton, forall_eq]; omega)
    refine holds final parts ?_ stops ?_
    · rw [agree.out _ above (by omega) (by simp only [List.mem_singleton]; omega),
        newOut _ (by omega), noEdge _ (Nat.le_refl _), enters, List.append_nil]
    · intro n later below other
      rw [agree.out n (by omega) below (by simpa using other), newOut n below, midOut n later]
      rfl

theorem starLoop_placed {greedy : Bool} {segs : List Segment} {seg : Segment}
    {net₁ net₂ : Network} {P Q : Network → Prop} (placed : PlacedAll rule net net₁ segs P)
    (run : (starLoop rule greedy segs).run net₁ = .ok (seg, net₂))
    (holds : ∀ final : Network, P final →
      final.Repeated greedy segs net₁.states.size .star seg net₂.states.size → Q final) :
    Placed rule net net₂ seg Q := by
  rw [starLoop, bind_ok] at run
  obtain ⟨b, mid, blockRun, run⟩ := run
  obtain ⟨rfl, -, size, -⟩ := block_run placed.grown placed.right blockRun
  let entered := ((mid.addState (some rule) (.starLoopEntry none false)).2.defineDecision
    mid.states.size).2.modifyState mid.states.size ({ · with nonGreedy := !greedy })
  let backed := (entered.addState (some rule) .starLoopBack).2
  let ended := (backed.addState (some rule) (.loopEnd (some entered.states.size))).2
  let linked := ended.modifyState mid.states.size
    ({ · with kind := .starLoopEntry (some entered.states.size) false })
  have enteredSize : entered.states.size = net₁.states.size + 3 := by simp [entered, size]
  have backedSize : backed.states.size = net₁.states.size + 4 := by simp [backed, enteredSize]
  have linkedSize : linked.states.size = net₁.states.size + 5 := by
    simp [linked, ended, backedSize]
  have linkedOut (n : Nat) : linked.out n = mid.out n := by
    have keptKind := Network.modifyState_out_of_keeps ended mid.states.size
      ({ · with kind := .starLoopEntry (some entered.states.size) false }) (fun _ => rfl) n
    have keptMark := Network.modifyState_out_of_keeps
      ((mid.addState (some rule) (.starLoopEntry none false)).2.defineDecision mid.states.size).2
      mid.states.size ({ · with nonGreedy := !greedy }) (fun _ => rfl) n
    rw [keptKind, Network.addState_out, Network.addState_out, keptMark,
      Network.defineDecision_out, Network.addState_out]
  have grownLinked (grown : Grown rule net mid) : Grown rule net linked := by
    have grownEntered : Grown rule net entered :=
      ((grown.addState rfl).defineDecision grown.size).modify grown.size (fun _ => rfl)
        (fun _ => rfl) fun _ inner => inner
    exact ((grownEntered.addState rfl).addState rfl).modify grown.size (fun _ => rfl)
      (fun _ => rfl) fun _ _ => rfl
  let edges := (Network.inOrder greedy [.epsilon net₁.states.size] [.epsilon backed.states.size]).map
      (fun t => (mid.states.size, t)) ++
    [(net₁.states.size + 1, .epsilon entered.states.size),
      (entered.states.size, .epsilon mid.states.size)]
  have result : (Except.ok (⟨mid.states.size, backed.states.size⟩, linked.addEdges edges) :
      Except BuildError (Segment × Network)) = .ok (seg, net₂) := by
    rw [← run]
    cases greedy <;> rfl
  have edgesAt (n : Nat) : Network.edgesFrom n edges =
      (if net₁.states.size + 2 = n then Network.inOrder greedy [.epsilon net₁.states.size]
        [.epsilon (net₁.states.size + 4)] else []) ++
      if net₁.states.size + 1 = n then [.epsilon (net₁.states.size + 3)] else
      if net₁.states.size + 3 = n then [.epsilon (net₁.states.size + 2)] else [] := by
    simp only [edges, edgesFrom_append, edgesFrom_map, edgesFrom_cons, size, enteredSize, backedSize]
    by_cases stop : net₁.states.size + 1 = n
    · simp [stop, show net₁.states.size + 3 ≠ n by omega, Network.edgesFrom]
    · simp [stop, Network.edgesFrom]
  have sources : ∀ e ∈ edges, net₁.states.size < e.1 := by
    intro e member
    simp only [edges, List.mem_append, List.mem_map, List.mem_cons, List.not_mem_nil,
      or_false] at member
    rcases member with ⟨t, -, rfl⟩ | rfl | rfl
    · simp only [size]; omega
    · simp only []; omega
    · simp only [enteredSize]; omega
  rw [size, backedSize] at result
  cases result
  refine loop_placed placed blockRun grownLinked linkedOut sources
    ⟨by simp only []; omega, by simp only [linkedSize]; omega⟩
    ⟨by simp only []; omega, by simp only [linkedSize]; omega⟩ (by simp [edgesAt]) ?_
  intro final parts enters ends out
  refine holds final parts ?_
  rw [Network.addEdges_size, linkedSize]
  refine .star enters ends ?_ ?_ ?_
  all_goals
    rw [out _ (by omega) (by omega) (by simp only []; omega), edgesAt]
    simp

theorem plusLoop_placed {greedy : Bool} {segs : List Segment} {seg : Segment}
    {net₁ net₂ : Network} {P Q : Network → Prop} (placed : PlacedAll rule net net₁ segs P)
    (run : (plusLoop rule greedy segs).run net₁ = .ok (seg, net₂))
    (holds : ∀ final : Network, P final →
      final.Repeated greedy segs net₁.states.size .plus seg net₂.states.size → Q final) :
    Placed rule net net₂ seg Q := by
  rw [plusLoop, bind_ok] at run
  obtain ⟨b, mid, blockRun, run⟩ := run
  obtain ⟨rfl, -, size, -⟩ := block_run placed.grown placed.right blockRun
  let backed := ((mid.addState (some rule) .plusLoopBack).2.defineDecision
    mid.states.size).2.modifyState mid.states.size ({ · with nonGreedy := !greedy })
  let ended := (backed.addState (some rule) (.loopEnd (some mid.states.size))).2
  have backedSize : backed.states.size = net₁.states.size + 3 := by simp [backed, size]
  have endedSize : ended.states.size = net₁.states.size + 4 := by simp [ended, backedSize]
  have endedOut (n : Nat) : ended.out n = mid.out n := by
    have keptMark := Network.modifyState_out_of_keeps
      ((mid.addState (some rule) .plusLoopBack).2.defineDecision mid.states.size).2
      mid.states.size ({ · with nonGreedy := !greedy }) (fun _ => rfl) n
    rw [Network.addState_out, keptMark, Network.defineDecision_out, Network.addState_out]
  have grownEnded (grown : Grown rule net mid) : Grown rule net ended := by
    have grownBacked : Grown rule net backed :=
      ((grown.addState rfl).defineDecision grown.size).modify grown.size (fun _ => rfl)
        (fun _ => rfl) fun _ inner => inner
    exact grownBacked.addState rfl
  let edges := (net₁.states.size + 1, .epsilon mid.states.size) ::
    (Network.inOrder greedy [.epsilon net₁.states.size] [.epsilon backed.states.size]).map
      (fun t => (mid.states.size, t))
  have result : (Except.ok (⟨net₁.states.size, backed.states.size⟩, ended.addEdges edges) :
      Except BuildError (Segment × Network)) = .ok (seg, net₂) := by
    rw [← run]
    cases greedy <;> rfl
  have edgesAt (n : Nat) : Network.edgesFrom n edges =
      if net₁.states.size + 1 = n then [.epsilon (net₁.states.size + 2)] else
      if net₁.states.size + 2 = n then Network.inOrder greedy [.epsilon net₁.states.size]
        [.epsilon (net₁.states.size + 3)] else [] := by
    simp only [edges, edgesFrom_map, edgesFrom_cons, size, backedSize]
    by_cases stop : net₁.states.size + 1 = n
    · simp [stop, show net₁.states.size + 2 ≠ n by omega]
    · simp [stop]
  have sources : ∀ e ∈ edges, net₁.states.size < e.1 := by
    intro e member
    simp only [edges, List.mem_map, List.mem_cons] at member
    rcases member with rfl | ⟨t, -, rfl⟩
    · simp only []; omega
    · simp only [size]; omega
  rw [backedSize] at result
  cases result
  refine loop_placed placed blockRun grownEnded endedOut sources
    ⟨by simp only []; omega, by simp only [endedSize]; omega⟩
    ⟨by simp only []; omega, by simp only [endedSize]; omega⟩ (by simp [edgesAt]) ?_
  intro final parts enters ends out
  refine holds final parts ?_
  rw [Network.addEdges_size, endedSize]
  refine .plus enters ends ?_ ?_
  all_goals
    rw [out _ (by omega) (by omega) (by simp only []; omega), edgesAt]
    simp

theorem repetition_placed {q : Quantifier} {greedy : Bool} {segs : List Segment} {seg : Segment}
    {net₁ net₂ : Network} {P Q : Network → Prop} (placed : PlacedAll rule net net₁ segs P)
    (run : (repetition rule q greedy segs).run net₁ = .ok (seg, net₂))
    (holds : ∀ final : Network, P final →
      final.Repeated greedy segs net₁.states.size q seg net₂.states.size → Q final) :
    Placed rule net net₂ seg Q := by
  cases q with
  | optional => exact optionalBlock_placed placed run holds
  | star => exact starLoop_placed placed run holds
  | plus => exact plusLoop_placed placed run holds

/-! ## Literals -/

theorem atom_eq (rule : Nat) (v : Int) : atom rule v = edge rule (atomLabel v) := rfl

theorem range_eq (rule : Nat) (lo hi : Int) : range rule lo hi = edge rule (rangeLabel lo hi) := by
  by_cases single : lo = hi
  · simp [range, rangeLabel, single, atom_eq]
  · simp [range, rangeLabel, single]

/-- The characters of a literal follow the last state of the network, which has no transitions yet. -/
theorem chars_placed {cs : List Char} {last right : Nat} {net₁ net₂ : Network}
    (grown : Grown rule net net₁) (isLast : net₁.states.size = last + 1)
    (new : net.states.size ≤ last) (open' : net₁.out last = [])
    (run : (chars rule last cs).run net₁ = .ok (right, net₂)) :
    Grown rule net net₂ ∧ net₂.states.size = right + 1 ∧ last ≤ right ∧ net₂.out right = [] ∧
      (∀ n < last, net₂.out n = net₁.out n) ∧
      ∀ final : Network, (∀ n, last ≤ n → n < right → final.out n = net₂.out n) →
        final.Spelled cs last right := by
  induction cs generalizing last net₁ with
  | nil =>
    cases run
    exact ⟨grown, isLast, Nat.le_refl _, open', fun _ _ => rfl, fun _ _ => .nil _⟩
  | cons c cs ih =>
    rw [chars, bind_ok] at run
    obtain ⟨seg, mid, atomRun, run⟩ := run
    rw [atom_eq, edge_eq] at atomRun
    obtain ⟨rfl, grownMid, size, leaves, ends⟩ := pair_run atomRun
    rw [bind_ok] at run
    obtain ⟨_, joined, joinRun, run⟩ := run
    have joinedIs : joined = Decode.addEdge mid (last, .epsilon (last + 1)) := by
      rw [← isLast]
      cases joinRun
      rfl
    subst joinedIs
    rw [isLast] at size leaves ends run
    have out (n : Nat) (other : n ≠ last) :
        (Decode.addEdge mid (last, .epsilon (last + 1))).out n = mid.out n := by
      rw [Network.addEdge_out, if_neg (by simp only []; omega)]
    replace run : (chars rule (last + 2) cs).run (Decode.addEdge mid (last, .epsilon (last + 1))) =
        .ok (right, net₂) := run
    obtain ⟨grownAll, sizeAll, above, openAll, kept, spelled⟩ :=
      ih ((grown.trans grownMid).addTransition new _) (by simp [size])
        (by omega) (by rw [out _ (by omega), ends]) run
    refine ⟨grownAll, sizeAll, by omega, openAll, ?_, ?_⟩
    · intro n below
      rw [kept n (by omega), out n (by omega), grownMid.old_out (by omega)]
    · intro final agree
      refine .cons ?_ ?_ (spelled final fun n above below => agree n (by omega) below)
      · rw [agree _ (Nat.le_refl _) (by omega), kept _ (by omega), Network.addEdge_out,
          if_pos ⟨rfl, by omega⟩, grownMid.old_out (by omega), open']
        rfl
      · rw [agree _ (by omega) (by omega), kept _ (by omega), out _ (by omega), leaves]

/-! ## Leaves -/

/-- The steps that place one edge for an element. -/
theorem leafEdge_placed {g : Grammar} {e : Element} {label : Label} {seg : Segment}
    (labelled : LeafLabel g rule e label) (run : (edge rule label).run net = .ok (seg, net')) :
    Placed rule net net' seg fun final =>
      final.Laid g rule e seg net.states.size net'.states.size := by
  rw [edge_eq] at run
  refine placed_pair run fun final _ segIs size leaves => ?_
  rw [segIs, size]
  exact .leaf labelled leaves

/-- A step that is preceded by one that changes only the table of actions. -/
theorem Placed.of_actions {actions : Array LexerAction} {seg : Segment} {P : Network → Prop}
    (placed : Placed rule { net with actions } net' seg P) : Placed rule net net' seg P :=
  ⟨⟨placed.grown.size, placed.grown.old, placed.grown.number, placed.grown.owner,
    placed.grown.inner, placed.grown.kind, placed.grown.maxTokenType, placed.grown.ruleStarts,
    placed.grown.ruleStops, placed.grown.ruleTypes, placed.grown.modeStarts⟩,
    placed.left, placed.right, placed.ends, placed.holds⟩

theorem lexerAction_placed {g : Grammar} {e : Element} {a : LexerAction} {seg : Segment}
    (labelled : ∀ place, LeafLabel g rule e (.action rule (some place) false))
    (run : (lexerAction rule a).run net = .ok (seg, net')) :
    Placed rule net net' seg fun final =>
      final.Laid g rule e seg net.states.size net'.states.size := by
  rw [lexerAction, bind_ok] at run
  obtain ⟨_, _, found, run⟩ := run
  cases found
  cases known : net.actions.findIdx? (· == a) with
  | some i =>
    simp only [known] at run
    exact leafEdge_placed (labelled i) run
  | none =>
    simp only [known] at run
    have placed := leafEdge_placed (labelled _) run
    exact placed.of_actions

theorem tokenType_ok {g : Grammar} {name : String} {type : Nat}
    (run : (tokenType g rule name).run net = .ok (type, net')) :
    g.vocabulary.tokenType name = some type ∧ net' = net := by
  rw [tokenType] at run
  cases known : g.vocabulary.tokenType name with
  | none => rw [known] at run; cases run
  | some t => rw [known] at run; cases run; exact ⟨rfl, rfl⟩

/-- A call takes two new states. -/
theorem call_placed {g : Grammar} {name : String} {precedence : Int} {seg : Segment}
    (run : (leaf g rule (.rule name precedence)).run net = .ok (seg, net')) :
    Placed rule net net' seg fun final =>
      final.Laid g rule (.rule name precedence) seg net.states.size net'.states.size := by
  rw [leaf, bind_ok] at run
  obtain ⟨callee, _, indexRun, run⟩ := run
  cases known : g.ruleIndex name with
  | error e => rw [known] at indexRun; cases indexRun
  | ok found =>
    rw [known] at indexRun
    cases indexRun
    have pairRun : (pair rule fun right =>
        ⟨net.ruleStart callee, .rule callee precedence right⟩).run net = .ok (seg, net') := run
    refine placed_pair pairRun fun final starts segIs size leaves => ?_
    rw [segIs, size]
    refine .call known ?_
    rw [leaves, Network.ruleStart, Network.ruleStart, starts]

theorem literal_placed {g : Grammar} {text : String} {seg : Segment}
    (run : (leaf g rule (.literal text)).run net = .ok (seg, net')) :
    Placed rule net net' seg fun final =>
      final.Laid g rule (.literal text) seg net.states.size net'.states.size := by
  rw [leaf] at run
  cases lexer : g.isLexer with
  | false =>
    simp only [lexer, Bool.false_eq_true, if_false] at run
    obtain ⟨type, _, typeRun, atomRun⟩ := bind_ok.1 run
    obtain ⟨known, rfl⟩ := tokenType_ok typeRun
    exact leafEdge_placed (.literal lexer known) atomRun
  | true =>
    simp only [lexer, if_true] at run
    obtain ⟨left, first, stateRun, afterState⟩ := bind_ok.1 run
    obtain ⟨right, _, charsRun, returned⟩ := bind_ok.1 afterState
    cases stateRun
    cases returned
    obtain ⟨grown, size, above, ends, -, spelled⟩ := chars_placed
      ((Grown.refl rule net).addState rfl) (by simp) (Nat.le_refl _)
      (by simp [Network.out_of_le]) charsRun
    refine ⟨grown, ⟨Nat.le_refl _, ?_⟩, ⟨above, ?_⟩, ends, ?_⟩
    · simp only [size]; omega
    · simp only [size]; omega
    · intro final agree
      rw [size]
      refine .literal lexer (spelled final fun n new below => ?_)
      exact agree.out n new (by omega) (by simp only [List.mem_singleton]; omega)

theorem leaf_placed {g : Grammar} {e : Element} {seg : Segment}
    (run : (leaf g rule e).run net = .ok (seg, net'))
    (simple : ∀ es, e ≠ .seq es ∧ e ≠ .alt es) (once : ∀ q greedy body, e ≠ .repeated q greedy body) :
    Placed rule net net' seg fun final =>
      final.Laid g rule e seg net.states.size net'.states.size := by
  cases e with
  | symbol v => exact leafEdge_placed (.symbol v) run
  | token name =>
    rw [leaf] at run
    cases lexer : g.isLexer with
    | true => simp only [lexer, if_true] at run; cases run
    | false =>
      simp only [lexer, Bool.false_eq_true, if_false] at run
      obtain ⟨type, _, typeRun, atomRun⟩ := bind_ok.1 run
      obtain ⟨known, rfl⟩ := tokenType_ok typeRun
      exact leafEdge_placed (.token known) atomRun
  | literal text => exact literal_placed run
  | range lo hi =>
    rw [leaf, range_eq] at run
    by_cases reversed : hi < lo
    · simp only [reversed, if_true] at run; cases run
    · simp only [reversed, if_false] at run
      exact leafEdge_placed (.range (Int.not_lt.1 reversed)) run
  | set s => exact leafEdge_placed (.set s) run
  | notSet s => exact leafEdge_placed (.notSet s) run
  | wildcard => exact leafEdge_placed .wildcard run
  | eof => exact leafEdge_placed .eof run
  | rule name precedence => exact call_placed run
  | predicate pred ctx => exact leafEdge_placed (.predicate pred ctx) run
  | precedence p =>
    rw [leaf] at run
    cases lexer : g.isLexer with
    | true => simp only [lexer, if_true] at run; cases run
    | false =>
      simp only [lexer, Bool.false_eq_true, if_false] at run
      exact leafEdge_placed (.precedence p) run
  | action i =>
    rw [leaf] at run
    cases lexer : g.isLexer with
    | true =>
      simp only [lexer, if_true] at run
      exact lexerAction_placed (.action i) run
    | false =>
      simp only [lexer, Bool.false_eq_true, if_false] at run
      exact leafEdge_placed (.action i i) run
  | command a =>
    rw [leaf] at run
    cases lexer : g.isLexer with
    | true =>
      simp only [lexer, Bool.not_true, Bool.false_eq_true, if_false] at run
      exact lexerAction_placed (.command a) run
    | false => simp only [lexer, Bool.not_false, if_true] at run; cases run
  | seq es => exact absurd rfl (simple es).1
  | alt es => exact absurd rfl (simple es).2
  | repeated q greedy body => exact absurd rfl (once q greedy body)

/-! ## All elements -/

theorem placedAll_nil (P : Network → Prop) (holds : ∀ final, P final) :
    PlacedAll rule net net [] P :=
  ⟨.refl rule net, by simp, by simp, by simp, by simp, fun final _ => holds final⟩

theorem PlacedAll.cons {net₁ net₂ : Network} {s : Segment} {ss : List Segment}
    {P Q R : Network → Prop} (first : Placed rule net net₁ s P)
    (rest : PlacedAll rule net₁ net₂ ss Q) (holds : ∀ final, P final → Q final → R final) :
    PlacedAll rule net net₂ (s :: ss) R := by
  have low := first.grown.size
  have high := rest.grown.size
  refine ⟨first.grown.trans rest.grown, ?_, ?_, ?_, ?_, ?_⟩
  · intro s' member
    rcases List.mem_cons.1 member with rfl | later
    · exact ⟨first.left.1, by have := first.left.2; omega⟩
    · exact ⟨by have := (rest.left s' later).1; omega, (rest.left s' later).2⟩
  · intro s' member
    rcases List.mem_cons.1 member with rfl | later
    · exact ⟨first.right.1, by have := first.right.2; omega⟩
    · exact ⟨by have := (rest.right s' later).1; omega, (rest.right s' later).2⟩
  · refine List.nodup_cons.2 ⟨?_, rest.apart⟩
    intro member
    obtain ⟨s', later, same⟩ := List.mem_map.1 member
    have above := (rest.right s' later).1
    have below := first.right.2
    dsimp only at same
    omega
  · intro s' member
    rcases List.mem_cons.1 member with rfl | later
    · rw [rest.grown.old_out first.right.2, first.ends]
    · exact rest.ends s' later
  · intro final agree
    refine holds final (first.holds final ⟨?_, ?_⟩) (rest.holds final ⟨?_, agree.ruleStarts⟩)
    · intro n above below free
      rw [agree.out n above (by omega) ?_, rest.grown.old_out below]
      simp only [List.map_cons, List.mem_cons, List.mem_map, not_or]
      refine ⟨by simpa using free, ?_⟩
      rintro ⟨s', later, rfl⟩
      have := (rest.right s' later).1
      omega
    · exact agree.ruleStarts.trans rest.grown.ruleStarts
    · intro n above below free
      refine agree.out n (by omega) below ?_
      simp only [List.map_cons, List.mem_cons, not_or]
      exact ⟨by have := first.right.2; omega, free⟩

/-- The edges between the parts of a sequence. -/
def joinEdges : List Segment → List (Nat × Transition)
  | a :: b :: rest => (a.right, .epsilon b.left) :: joinEdges (b :: rest)
  | _ => []

/-- The right end of a sequence. -/
def lastRight : Segment → List Segment → Nat
  | a, [] => a.right
  | _, b :: rest => lastRight b rest

theorem joinAll_run (segs : List Segment) (net : Network) :
    (joinAll segs).run net = .ok ((), net.addEdges (joinEdges segs)) := by
  fun_induction joinEdges segs generalizing net with
  | case1 a b rest ih =>
    rw [joinAll, bind_ok]
    exact ⟨(), _, rfl, ih _⟩
  | case2 segs few =>
    rw [joinAll]
    · rfl
    · exact few

theorem getLast?_right (a : Segment) (rest : List Segment) :
    ((a :: rest).getLast?.getD a).right = lastRight a rest := by
  induction rest generalizing a with
  | nil => rfl
  | cons b rest ih => simpa [List.getLast?_cons, lastRight] using ih b

theorem lastRight_mem (a : Segment) (rest : List Segment) :
    ∃ s ∈ a :: rest, s.right = lastRight a rest := by
  induction rest generalizing a with
  | nil => exact ⟨a, by simp, rfl⟩
  | cons b rest ih =>
    obtain ⟨s, member, same⟩ := ih b
    exact ⟨s, List.mem_cons_of_mem _ member, same⟩

theorem joinEdges_source {segs : List Segment} {e : Nat × Transition} (member : e ∈ joinEdges segs) :
    e.1 ∈ segs.map (·.right) := by
  fun_induction joinEdges segs with
  | case1 a b rest ih =>
    rcases List.mem_cons.1 member with rfl | later
    · simp
    · exact List.mem_cons_of_mem _ (ih later)
  | case2 => cases member

theorem edgesFrom_join_of_not_mem {segs : List Segment} {n : Nat}
    (free : n ∉ segs.map (·.right)) : Network.edgesFrom n (joinEdges segs) = [] := by
  refine List.filterMap_eq_nil_iff.2 fun e member => if_neg ?_
  rintro rfl
  exact free (joinEdges_source member)

/-- The last part gets no edge, and the others are chained by theirs. -/
theorem chained_of_joined {final : Network} (a : Segment) (rest : List Segment)
    (apart : ((a :: rest).map (·.right)).Nodup) :
    Network.edgesFrom (lastRight a rest) (joinEdges (a :: rest)) = [] ∧
      ((∀ n ∈ (a :: rest).map (·.right), n ≠ lastRight a rest →
        final.out n = Network.edgesFrom n (joinEdges (a :: rest))) →
      final.Chained (a :: rest) ⟨a.left, lastRight a rest⟩) := by
  induction rest generalizing a with
  | nil => exact ⟨rfl, fun _ => .single a⟩
  | cons b rest ih =>
    obtain ⟨outside, apartRest⟩ := List.nodup_cons.1 apart
    obtain ⟨noEdge, chained⟩ := ih b apartRest
    obtain ⟨last, member, isLast⟩ := lastRight_mem b rest
    have other : ∀ n ∈ (b :: rest).map (·.right), a.right ≠ n := by
      rintro n inside rfl
      exact outside inside
    have lastInside : lastRight b rest ∈ (b :: rest).map (·.right) :=
      List.mem_map.2 ⟨last, member, isLast⟩
    have skip : ∀ n ∈ (b :: rest).map (·.right), Network.edgesFrom n (joinEdges (a :: b :: rest)) =
        Network.edgesFrom n (joinEdges (b :: rest)) := by
      intro n inside
      rw [joinEdges, edgesFrom_cons, if_neg (other n inside)]
    refine ⟨(skip _ lastInside).trans noEdge, fun joined => .cons ?_ (chained ?_)⟩
    · rw [joined _ (by simp) (other _ lastInside), joinEdges, edgesFrom_cons, if_pos rfl,
        edgesFrom_join_of_not_mem outside]
    · intro n inside notLast
      rw [joined n (List.mem_cons_of_mem _ inside) notLast, skip n inside]

/-- The parts of a sequence, joined. -/
theorem joinAll_placed {a : Segment} {rest : List Segment} {net₁ net₂ : Network}
    {P : Network → Prop} (placed : PlacedAll rule net net₁ (a :: rest) P)
    (run : (joinAll (a :: rest)).run net₁ = .ok ((), net₂)) :
    Placed rule net net₂ ⟨a.left, lastRight a rest⟩ fun final =>
      P final ∧ final.Chained (a :: rest) ⟨a.left, lastRight a rest⟩ := by
  rw [joinAll_run] at run
  cases run
  obtain ⟨last, member, isLast⟩ := lastRight_mem a rest
  have out : ∀ n < net₁.states.size, (net₁.addEdges (joinEdges (a :: rest))).out n =
      net₁.out n ++ Network.edgesFrom n (joinEdges (a :: rest)) :=
    fun n below => Network.addEdges_out _ _ below
  have grown : Grown rule net (net₁.addEdges (joinEdges (a :: rest))) := by
    refine placed.grown.addEdges fun e inside => ?_
    obtain ⟨s, among, same⟩ := List.mem_map.1 (joinEdges_source inside)
    rw [← same]
    exact (placed.right s among).1
  refine ⟨grown, ?_, ?_, ?_, ?_⟩
  · simpa using placed.left a (by simp)
  · simpa [isLast] using placed.right last member
  · simp only []
    rw [out _ (by rw [← isLast]; exact (placed.right last member).2),
      (@chained_of_joined net₁ a rest placed.apart).1, ← isLast, placed.ends last member]
    rfl
  · intro final agree
    rw [Network.addEdges_size] at agree
    refine ⟨placed.holds final ⟨?_, ?_⟩, (chained_of_joined a rest placed.apart).2 ?_⟩
    · intro n above below free
      rw [agree.out n above below ?_, out n below, edgesFrom_join_of_not_mem free, List.append_nil]
      rw [List.mem_singleton, ← isLast]
      rintro rfl
      exact free (List.mem_map.2 ⟨last, member, rfl⟩)
    · exact agree.ruleStarts.trans (grown.ruleStarts.trans placed.grown.ruleStarts.symm)
    · intro n inside notLast
      obtain ⟨s, among, rfl⟩ := List.mem_map.1 inside
      obtain ⟨above, below⟩ := placed.right s among
      rw [agree.out _ above below (by simpa using notLast), out _ below, placed.ends s among]
      rfl

theorem joinAll_size {segs : List Segment} {u : Unit}
    (run : (joinAll segs).run net = .ok (u, net')) : net'.states.size = net.states.size := by
  rw [joinAll_run] at run
  cases run
  exact Network.addEdges_size _ _

theorem Placed.imp {seg : Segment} {P Q : Network → Prop} (placed : Placed rule net net' seg P)
    (imp : ∀ final, P final → Q final) : Placed rule net net' seg Q :=
  { placed with holds := fun final agree => imp final (placed.holds final agree) }

theorem elements_length {g : Grammar} {es : List Element} {segs : List Segment}
    (run : (elements g rule es).run net = .ok (segs, net')) : segs.length = es.length := by
  induction es generalizing net segs with
  | nil => cases run; rfl
  | cons e rest ih =>
    rw [elements, bind_ok] at run
    obtain ⟨s, mid, -, restRun⟩ := run
    obtain ⟨ss, last, laterRun, returned⟩ := bind_ok.1 restRun
    cases returned
    simp [ih laterRun]

theorem PlacedAll.single {s : Segment} {P : Network → Prop} (placed : PlacedAll rule net net' [s] P) :
    Placed rule net net' s P :=
  ⟨placed.grown, placed.left s (by simp), placed.right s (by simp), placed.ends s (by simp),
    placed.holds⟩

theorem elements_nil {g : Grammar} {es : List Element}
    (run : (elements g rule es).run net = .ok ([], net')) : es = [] ∧ net' = net := by
  cases es with
  | nil => cases run; exact ⟨rfl, rfl⟩
  | cons e rest =>
    rw [elements, bind_ok] at run
    obtain ⟨s, mid, -, restRun⟩ := run
    obtain ⟨ss, last, -, returned⟩ := bind_ok.1 restRun
    cases returned

/-- A repetition is laid out around the alternatives of its body. -/
theorem element_repeated {g : Grammar} {q : Quantifier} {greedy : Bool} {body : Element}
    {seg : Segment} (run : (element g rule (.repeated q greedy body)).run net = .ok (seg, net')) :
    ∃ segs mid, (elements g rule body.branches).run net = .ok (segs, mid) ∧
      (repetition rule q greedy segs).run mid = .ok (seg, net') := by
  by_cases isAlt : ∃ es, body = .alt es
  · obtain ⟨es, rfl⟩ := isAlt
    rw [element] at run
    by_cases none : es.isEmpty
    · simp only [none, if_true] at run
      cases run
    · simp only [none, Bool.false_eq_true, if_false] at run
      exact bind_ok.1 run
  · have single : body.branches = [body] := by
      cases body with
      | alt es => exact absurd ⟨es, rfl⟩ isAlt
      | _ => rfl
    rw [element] at run
    · obtain ⟨s, mid, partRun, around⟩ := bind_ok.1 run
      refine ⟨[s], mid, ?_, around⟩
      rw [single, elements]
      exact bind_ok.2 ⟨s, mid, partRun, rfl⟩
    · exact fun es same => isAlt ⟨es, same⟩

theorem sizeOf_branches (q : Quantifier) (greedy : Bool) (body : Element) :
    sizeOf body.branches < sizeOf (Element.repeated q greedy body) := by
  have small : sizeOf body.branches ≤ sizeOf body + 2 := by
    cases body with
    | alt es => simp [Element.branches]; omega
    | _ => simp [Element.branches]; try omega
  have positive : 0 < sizeOf q ∧ 0 < sizeOf greedy := by
    cases q <;> cases greedy <;> simp
  simp only [Element.repeated.sizeOf_spec]
  omega

mutual

/-- Laying out an element places it. -/
theorem element_placed (g : Grammar) (rule : Nat) (e : Element) {net net' : Network} {seg : Segment}
    (run : (element g rule e).run net = .ok (seg, net')) :
    Placed rule net net' seg fun final =>
      final.Laid g rule e seg net.states.size net'.states.size := by
  match e with
  | .seq es =>
    rw [element, bind_ok] at run
    obtain ⟨segs, mid, partsRun, joinRun⟩ := run
    have parts := elements_placed g rule es partsRun
    cases segs with
    | nil =>
      -- Without parts a sequence is one edge that asks for nothing.
      obtain ⟨rfl, rfl⟩ := elements_nil partsRun
      simp only [edge_eq] at joinRun
      refine placed_pair joinRun fun final _ segIs size leaves => ?_
      rw [segIs, size]
      exact .nothing leaves
    | cons first rest =>
      obtain ⟨_, joined, joinedRun, returned⟩ := bind_ok.1 joinRun
      have placed := joinAll_placed parts joinedRun
      have size := joinAll_size joinedRun
      cases returned
      rw [getLast?_right, size]
      exact placed.imp fun final ⟨laid, chained⟩ => .seq laid chained
  | .alt es =>
    rw [element] at run
    by_cases none : es.isEmpty
    · simp only [none, if_true] at run
      cases run
    · simp only [none, Bool.false_eq_true, if_false] at run
      obtain ⟨segs, mid, partsRun, blockRun⟩ := bind_ok.1 run
      have parts := elements_placed g rule es partsRun
      have length := elements_length partsRun
      match segs with
      | [] => exact absurd (List.length_eq_zero_iff.1 length.symm) (by simpa using none)
      | [only] =>
        obtain ⟨e, rfl⟩ := List.length_eq_one_iff.1 length.symm
        cases blockRun
        refine parts.single.imp fun final laid => ?_
        cases laid with
        | cons first rest =>
          cases rest
          exact .only first
      | a :: b :: rest =>
        refine block_placed parts blockRun fun final segIs size laid enters ends => ?_
        rw [segIs, size]
        exact .alt (by simp [← length]) laid enters ends
  | .repeated q greedy body =>
    obtain ⟨segs, mid, partsRun, aroundRun⟩ := element_repeated run
    have parts := elements_placed g rule body.branches partsRun
    exact repetition_placed parts aroundRun fun final laid around => .repeated laid around
  | .symbol _ | .token _ | .literal _ | .range _ _ | .set _ | .notSet _ | .wildcard | .eof | .rule _ _
  | .predicate _ _ | .precedence _ | .action _ | .command _ =>
    rw [element] at run
    exact leaf_placed run (by simp) (by simp)
    all_goals simp
termination_by sizeOf e
decreasing_by
  · simp
  · simp
  · exact sizeOf_branches q greedy body

theorem elements_placed (g : Grammar) (rule : Nat) (es : List Element) {net net' : Network}
    {segs : List Segment} (run : (elements g rule es).run net = .ok (segs, net')) :
    PlacedAll rule net net' segs fun final =>
      Consecutive (final.Laid g rule) es segs net.states.size net'.states.size := by
  match es with
  | [] =>
    cases run
    exact placedAll_nil _ fun _ => .nil _
  | e :: rest =>
    rw [elements, bind_ok] at run
    obtain ⟨s, mid, firstRun, restRun⟩ := run
    obtain ⟨ss, last, restRun, returned⟩ := bind_ok.1 restRun
    cases returned
    exact .cons (element_placed g rule e firstRun) (elements_placed g rule rest restRun)
      fun _ first rest => .cons first rest
termination_by sizeOf es
decreasing_by
  all_goals simp
  all_goals omega

end

end Layout

end AdaptiveLL
