import AdaptiveLL.Proofs.Grammar.Placing
import AdaptiveLL.Proofs.Network.Reading

/-!
# How a grammar lies in its network

The states of a laid out grammar are, in this order, the start and the stop state of every rule, the
entries of the modes of a lexer, and the bodies of the rules, one after the other. `LaidOut` says what
leaves each of them; `layOut_laidOut` is the statement that laying out a grammar gives such a network.
The modes of the rules have to exist, which holds of every grammar that is written down rule by rule
(`Assembled`).
-/

set_option autoImplicit false

namespace AdaptiveLL

namespace Grammar

/-! ## Grammars as they are written down -/

/-- The grammars that can be written down: an empty lexer or parser, then rules, modes and versions. -/
inductive Assembled : Grammar → Prop
  | lexer (name : String) : Assembled (.lexer name)
  | parser (name : String) (vocabulary : GrammarInfo) : Assembled (.parser name vocabulary)
  | rule {g : Grammar} (name : String) (body : Element) (before : Assembled g) :
      Assembled (g.rule name body)
  | fragment {g : Grammar} (name : String) (body : Element) (before : Assembled g) :
      Assembled (g.fragment name body)
  | leftRecursive {g : Grammar} (name : String) (primaries : List Element) (ops : List Operator)
      (before : Assembled g) : Assembled (g.leftRecursive name primaries ops)
  | mode {g : Grammar} (name : String) (before : Assembled g) : Assembled (g.mode name)
  | setVersion {g : Grammar} (name : String) (version : Int) (before : Assembled g) :
      Assembled (g.setVersion name version)

/-- Every rule belongs to a mode that exists. -/
def Moded (g : Grammar) : Prop :=
  g.isLexer = true → 0 < g.modes.length ∧ ∀ r ∈ g.rules, r.mode < g.modes.length

theorem Moded.addRule {g : Grammar} (moded : g.Moded) (r : RuleDef) : (g.addRule r).Moded := by
  intro lexer
  obtain ⟨some', below⟩ := moded lexer
  refine ⟨some', fun r' member => ?_⟩
  rcases List.mem_append.1 member with old | new
  · exact below r' old
  · obtain rfl := List.mem_singleton.1 new
    exact Nat.sub_lt some' (Nat.lt_succ_self 0)

theorem Moded.setVersion {g : Grammar} (moded : g.Moded) (name : String) (version : Int) :
    (g.setVersion name version).Moded := by
  rw [Grammar.setVersion]
  cases g.rules.findIdx? (·.name == name) with
  | none => exact moded
  | some i =>
    intro lexer
    obtain ⟨some', below⟩ := moded lexer
    refine ⟨some', fun r member => ?_⟩
    obtain ⟨j, inside, rfl⟩ := List.mem_iff_getElem.1 member
    rw [List.length_modify] at inside
    have same : (g.rules.modify i ({ · with version }))[j].mode = g.rules[j].mode := by
      rw [List.getElem_modify]
      split <;> rfl
    rw [same]
    exact below _ (List.getElem_mem inside)

theorem Assembled.moded {g : Grammar} (assembled : Assembled g) : g.Moded := by
  induction assembled with
  | lexer name => exact fun _ => ⟨Nat.one_pos, fun r member => absurd member List.not_mem_nil⟩
  | parser name vocabulary => exact fun lexer => absurd lexer (by simp [Grammar.parser, isLexer])
  | rule name body before ih => exact ih.addRule _
  | fragment name body before ih => exact ih.addRule _
  | leftRecursive name primaries ops before ih => exact ih.addRule _
  | mode name before ih =>
    intro lexer
    obtain ⟨some', below⟩ := ih lexer
    refine ⟨by simp [Grammar.mode], fun r member => ?_⟩
    have := below r member
    simp only [Grammar.mode, List.length_append, List.length_singleton]
    omega
  | setVersion name version before ih => exact ih.setVersion name version

/-- The token rules of a mode, by their numbers. -/
def tokenRules (g : Grammar) (mode : Nat) : List Nat :=
  (g.rules.zipIdx.filter fun r => !r.1.fragment && r.1.mode == mode).map (·.2)

/-- The greatest token type that a grammar knows. -/
def maxTokenType (g : Grammar) : Int := max (if g.isLexer then g.info else g.vocabulary).maxTokenType 0

theorem lt_of_mem_tokenRules {g : Grammar} {mode r : Nat} (member : r ∈ g.tokenRules mode) :
    r < g.rules.length := by
  obtain ⟨⟨rule, i⟩, among, rfl⟩ := List.mem_map.1 member
  have found := List.mem_zipIdx_iff_getElem?.1 (List.mem_filter.1 among).1
  exact (List.getElem?_eq_some_iff.1 found).1

end Grammar

/-! ## The whole network -/

namespace Network

/-- The body of a rule lies on the states from `lo` up to `hi`, between its start and stop state. -/
structure BodyAt (net : Network) (g : Grammar) (rule : Nat) (body : Element) (seg : Segment)
    (lo hi : Nat) : Prop where
  laid : net.Laid g rule body seg lo hi
  left : lo ≤ seg.left ∧ seg.left < hi
  right : lo ≤ seg.right ∧ seg.right < hi
  starts : net.out (2 * rule) = [.epsilon seg.left]
  stops : net.out seg.right = [.epsilon (2 * rule + 1)]
  owner : ∀ n, lo ≤ n → n < hi → (net.state n).rule = some rule
  inner : ∀ n, lo ≤ n → n < hi → (net.state n).kind.isInner = true

/-- The network of a grammar. -/
structure LaidOut (net : Network) (g : Grammar) : Prop where
  kind : net.kind = g.kind
  maxTokenType : net.maxTokenType = g.maxTokenType
  number : ∀ n < net.states.size, (net.state n).number = n
  ruleStarts : net.ruleStarts = (Array.range g.rules.length).map (2 * ·)
  ruleStops : net.ruleStops = (Array.range g.rules.length).map fun r => some (2 * r + 1)
  startState : ∀ r < g.rules.length,
    (net.state (2 * r)).kind.isRuleStart = true ∧ (net.state (2 * r)).rule = some r
  stopState : ∀ r < g.rules.length,
    (net.state (2 * r + 1)).kind = .ruleStop ∧ (net.state (2 * r + 1)).rule = some r ∧
      net.out (2 * r + 1) = []
  ruleTypes : net.ruleTypes = if g.isLexer then g.tokenTypes.toArray else #[]
  modeStarts : net.modeStarts =
    (Array.range (if g.isLexer then g.modes.length else 0)).map (2 * g.rules.length + ·)
  modeState : ∀ m < net.modeStarts.size,
    (net.state (2 * g.rules.length + m)).kind = .tokenStart ∧
      (net.state (2 * g.rules.length + m)).rule = none ∧
      net.out (2 * g.rules.length + m) = (g.tokenRules m).map fun r => .epsilon (2 * r)
  /-- The bodies of the rules, one behind the other. -/
  body : ∀ i r, g.rules[i]? = some r → ∃ seg lo hi, net.BodyAt g i r.body seg lo hi
  /-- There are no other states. -/
  cover : ∀ n < net.states.size, n < 2 * g.rules.length + net.modeStarts.size ∨
    ∃ i r seg lo hi, g.rules[i]? = some r ∧ net.BodyAt g i r.body seg lo hi ∧ lo ≤ n ∧ n < hi

end Network

namespace Layout

variable {g : Grammar} {types : Array Int} {net net' : Network}

/-- What every step for a numbered rule preserves holds after all of them. -/
theorem forM_zipIdx {P : Nat → Network → Prop} {step : RuleDef × Nat → Layout Unit} {u : Unit}
    (rules : List RuleDef) (start : Nat) (before : P start net)
    (preserves : ∀ i r net net' u, rules[i]? = some r → P (start + i) net →
      (step (r, start + i)).run net = .ok (u, net') → P (start + i + 1) net')
    (run : ((rules.zipIdx start).forM step).run net = .ok (u, net')) :
    P (start + rules.length) net' := by
  induction rules generalizing start net with
  | nil => cases run; exact before
  | cons r rules ih =>
    rw [List.zipIdx_cons, List.forM, bind_ok] at run
    obtain ⟨_, mid, first, rest⟩ := run
    have after := ih (start + 1) (preserves 0 r net mid _ rfl before first)
      (fun i r' m m' u' found inv ran => by
        have shift : start + 1 + i = start + (i + 1) := by omega
        rw [shift] at inv ran ⊢
        exact preserves (i + 1) r' m m' u' found inv ran) rest
    have length : start + 1 + rules.length = start + (r :: rules).length := by
      simp only [List.length_cons]
      omega
    rwa [length] at after

/-! ## The states outside the bodies -/

/-- The start and stop states of the first `k` rules are there, then the entries of `m` modes; the
rules produce tokens of the given types. -/
structure Frame (g : Grammar) (types : Array Int) (k m : Nat) (net : Network) : Prop where
  kind : net.kind = g.kind
  maxTokenType : net.maxTokenType = g.maxTokenType
  ruleTypes : net.ruleTypes = types
  size : 2 * k + m ≤ net.states.size
  number : ∀ n < net.states.size, (net.state n).number = n
  ruleStarts : net.ruleStarts = (Array.range k).map (2 * ·)
  ruleStops : net.ruleStops = (Array.range k).map fun r => some (2 * r + 1)
  startState : ∀ r < k,
    (net.state (2 * r)).kind.isRuleStart = true ∧ (net.state (2 * r)).rule = some r
  stopState : ∀ r < k, (net.state (2 * r + 1)).kind = .ruleStop ∧ (net.state (2 * r + 1)).rule = some r
  modeStarts : net.modeStarts = (Array.range m).map (2 * k + ·)
  modeState : ∀ i < m,
    (net.state (2 * k + i)).kind = .tokenStart ∧ (net.state (2 * k + i)).rule = none

/-- What adds transitions or marks keeps the frame. -/
theorem Frame.modify {k m n : Nat} {f : State → State} (frame : Frame g types k m net)
    (number : ∀ s, (f s).number = s.number) (rule : ∀ s, (f s).rule = s.rule)
    (kind : ∀ s, (f s).kind = s.kind) : Frame g types k m (net.modifyState n f) := by
  have sameNumber := net.modifyState_keeps n f (·.number) number
  have sameRule := net.modifyState_keeps n f (·.rule) rule
  have sameKind := net.modifyState_keeps n f (·.kind) kind
  refine ⟨frame.kind, frame.maxTokenType, frame.ruleTypes, by simpa using frame.size, ?_, frame.ruleStarts,
    frame.ruleStops, ?_, ?_, frame.modeStarts, ?_⟩
  · intro i below
    rw [sameNumber]
    exact frame.number i (by simpa using below)
  · intro r below
    rw [sameRule, sameKind]
    exact frame.startState r below
  · intro r below
    rw [sameRule, sameKind]
    exact frame.stopState r below
  · intro i below
    rw [sameRule, sameKind]
    exact frame.modeState i below

theorem Frame.addEdge {k m : Nat} (frame : Frame g types k m net) (e : Nat × Transition) :
    Frame g types k m (Decode.addEdge net e) :=
  frame.modify (fun _ => rfl) (fun _ => rfl) fun _ => rfl

theorem Frame.addEdges {k m : Nat} (frame : Frame g types k m net) (edges : List (Nat × Transition)) :
    Frame g types k m (net.addEdges edges) := by
  induction edges generalizing net with
  | nil => exact frame
  | cons e edges ih => exact ih (frame.addEdge e)

/-- New inner states keep the frame. -/
theorem Frame.grown {k m rule : Nat} (frame : Frame g types k m net) (grown : Grown rule net net') :
    Frame g types k m net' := by
  have size := frame.size
  refine ⟨grown.kind.trans frame.kind, grown.maxTokenType.trans frame.maxTokenType,
    grown.ruleTypes.trans frame.ruleTypes, Nat.le_trans size grown.size, ?_, grown.ruleStarts.trans frame.ruleStarts, grown.ruleStops.trans frame.ruleStops, ?_, ?_,
    grown.modeStarts.trans frame.modeStarts, ?_⟩
  · intro n below
    rcases Nat.lt_or_ge n net.states.size with old | new
    · rw [grown.old n old, frame.number n old]
    · exact grown.number n new below
  · intro r below
    rw [grown.old _ (by omega)]
    exact frame.startState r below
  · intro r below
    rw [grown.old _ (by omega)]
    exact frame.stopState r below
  · intro i below
    rw [grown.old _ (by omega)]
    exact frame.modeState i below

/-- The frame alone. -/
structure Bare (g : Grammar) (types : Array Int) (k m : Nat) (net : Network) : Prop where
  frame : Frame g types k m net
  size : net.states.size = 2 * k + m
  out : ∀ n, net.out n = []

/-- A network without states is the frame of no rules. -/
theorem bare_empty (g : Grammar) : Bare g #[] 0 0 { kind := g.kind, maxTokenType := g.maxTokenType } :=
  ⟨⟨rfl, rfl, rfl, Nat.le_refl _, by simp, by simp, by simp, by simp, by simp, by simp, by simp⟩, rfl,
    fun _ => Network.out_of_le (Nat.zero_le _)⟩

theorem Bare.addRule {k : Nat} {r : RuleDef} {u : Unit} (bare : Bare g types k 0 net)
    (run : (ruleEnds (r, k)).run net = .ok (u, net')) : Bare g types (k + 1) 0 net' := by
  let first := (net.addState (some k) (.ruleStart none r.leftRecursive)).2
  let second := (first.addState (some k) .ruleStop).2
  let third := second.modifyState net.states.size
    ({ · with kind := .ruleStart (some first.states.size) r.leftRecursive })
  have result : (Except.ok ((), { third with
      ruleStarts := net.ruleStarts.push net.states.size
      ruleStops := net.ruleStops.push (some first.states.size) }) :
      Except BuildError (Unit × Network)) = .ok (u, net') := by
    rw [← run]
    rfl
  have size : net.states.size = 2 * k := bare.size
  have firstSize : first.states.size = 2 * k + 1 := by simp [first, size]
  have secondSize : second.states.size = 2 * k + 2 := by simp [second, firstSize]
  have thirdSize : third.states.size = 2 * (k + 1) := by
    simp only [third, Network.modifyState_size, secondSize]
    omega
  have thirdOld : ∀ n < 2 * k, third.state n = net.state n := by
    intro n below
    rw [Network.modifyState_state_of_ne _ _ (by omega),
      Network.addState_state_of_ne _ _ _ (by omega), Network.addState_state_of_ne _ _ _ (by omega)]
  have thirdStart : third.state (2 * k) =
      { number := 2 * k, rule := some k
        kind := .ruleStart (some (2 * k + 1)) r.leftRecursive } := by
    simp only [third, size]
    rw [Network.modifyState_state_same _ _ (by omega), Network.addState_state_of_ne _ _ _ (by omega),
      firstSize]
    simp only [first]
    rw [← size, Network.addState_state_new]
  have thirdStop : third.state (2 * k + 1) =
      { number := 2 * k + 1, rule := some k, kind := .ruleStop } := by
    rw [Network.modifyState_state_of_ne _ _ (by omega)]
    simp only [second]
    rw [← firstSize, Network.addState_state_new]
  have thirdOut : ∀ n, third.out n = [] := by
    intro n
    have kept := Network.modifyState_out_of_keeps second net.states.size
      ({ · with kind := .ruleStart (some first.states.size) r.leftRecursive }) (fun _ => rfl) n
    rw [kept, Network.addState_out, Network.addState_out, bare.out]
  cases result
  have frame := bare.frame
  refine ⟨⟨frame.kind, frame.maxTokenType, frame.ruleTypes, Nat.le_of_eq thirdSize.symm, ?_, ?_, ?_, ?_, ?_, ?_,
    by simp⟩, thirdSize, thirdOut⟩
  · intro n below
    change (third.state n).number = n
    rcases Nat.lt_or_ge n (2 * k) with old | new
    · rw [thirdOld n old, frame.number n (by rw [size]; exact old)]
    · have : n < third.states.size := below
      obtain rfl | rfl : n = 2 * k ∨ n = 2 * k + 1 := by omega
      · rw [thirdStart]
      · rw [thirdStop]
  · rw [frame.ruleStarts, size]
    simp [Array.range_succ]
  · rw [frame.ruleStops, firstSize]
    simp [Array.range_succ]
  · intro i below
    change (third.state (2 * i)).kind.isRuleStart = true ∧ (third.state (2 * i)).rule = some i
    rcases Nat.lt_or_ge i k with old | new
    · rw [thirdOld _ (by omega)]
      exact frame.startState i old
    · obtain rfl : i = k := by omega
      rw [thirdStart]
      exact ⟨rfl, rfl⟩
  · intro i below
    change (third.state (2 * i + 1)).kind = .ruleStop ∧ (third.state (2 * i + 1)).rule = some i
    rcases Nat.lt_or_ge i k with old | new
    · rw [thirdOld _ (by omega)]
      exact frame.stopState i old
    · obtain rfl : i = k := by omega
      rw [thirdStop]
      exact ⟨rfl, rfl⟩
  · exact frame.modeStarts.trans (by simp)

theorem Bare.addMode {k m : Nat} {u : Unit} (bare : Bare g types k m net)
    (run : modeStart.run net = .ok (u, net')) : Bare g types k (m + 1) net' := by
  let first := (net.addState none .tokenStart).2
  let second := first.modifyState net.states.size
    ({ · with decision := some net.decisions.size })
  have result : (Except.ok ((), { second with
      modeStarts := net.modeStarts.push net.states.size
      decisions := net.decisions.push net.states.size }) :
      Except BuildError (Unit × Network)) = .ok (u, net') := by
    rw [← run]
    rfl
  have size := bare.size
  have frame := bare.frame
  have secondSize : second.states.size = 2 * k + (m + 1) := by
    simp [second, first, size]
    omega
  have secondOld : ∀ n < 2 * k + m, second.state n = net.state n := by
    intro n below
    rw [Network.modifyState_state_of_ne _ _ (by omega), Network.addState_state_of_ne _ _ _ (by omega)]
  have secondNew : second.state (2 * k + m) =
      { number := 2 * k + m, rule := none, kind := .tokenStart
        decision := some net.decisions.size } := by
    simp only [second, first]
    rw [← size, Network.modifyState_state_same _ _ (by simp), Network.addState_state_new]
  have secondOut : ∀ n, second.out n = [] := by
    intro n
    have kept := Network.modifyState_out_of_keeps first net.states.size
      ({ · with decision := some net.decisions.size }) (fun _ => rfl) n
    rw [kept, Network.addState_out, bare.out]
  cases result
  refine ⟨⟨frame.kind, frame.maxTokenType, frame.ruleTypes, Nat.le_of_eq secondSize.symm, ?_, frame.ruleStarts,
    frame.ruleStops, ?_, ?_, ?_, ?_⟩, secondSize, secondOut⟩
  · intro n below
    change (second.state n).number = n
    rcases Nat.lt_or_ge n (2 * k + m) with old | new
    · rw [secondOld n old, frame.number n (by rw [size]; exact old)]
    · have : n < second.states.size := below
      obtain rfl : n = 2 * k + m := by omega
      rw [secondNew]
  · intro r below
    change (second.state (2 * r)).kind.isRuleStart = true ∧ (second.state (2 * r)).rule = some r
    rw [secondOld _ (by omega)]
    exact frame.startState r below
  · intro r below
    change (second.state (2 * r + 1)).kind = .ruleStop ∧ (second.state (2 * r + 1)).rule = some r
    rw [secondOld _ (by omega)]
    exact frame.stopState r below
  · rw [frame.modeStarts, size]
    simp [Array.range_succ]
  · intro i below
    change (second.state (2 * k + i)).kind = .tokenStart ∧ (second.state (2 * k + i)).rule = none
    rcases Nat.lt_or_ge i m with old | new
    · rw [secondOld _ (by omega)]
      exact frame.modeState i old
    · obtain rfl : i = m := by omega
      rw [secondNew]
      exact ⟨rfl, rfl⟩

/-! ## The ways into the rules of a mode -/

/-- The edges from the entries of the modes to their token rules. -/
def tokenEdges (modeStarts ruleStarts : Array Nat) (rules : List (RuleDef × Nat)) :
    List (Nat × Transition) :=
  rules.filterMap fun r => if r.1.fragment then none
    else some (modeStarts.getD r.1.mode 0, .epsilon (ruleStarts.getD r.2 0))

theorem tokenEdges_run {modeStarts ruleStarts : Array Nat} (rules : List (RuleDef × Nat))
    (modeTable : net.modeStarts = modeStarts) (ruleTable : net.ruleStarts = ruleStarts) :
    (rules.forM fun (r, i) => do
      if !r.fragment then
        let net ← get
        join (net.modeStarts.getD r.mode 0) (net.ruleStart i) : Layout Unit).run net =
      .ok ((), net.addEdges (tokenEdges modeStarts ruleStarts rules)) := by
  induction rules generalizing net with
  | nil => rfl
  | cons r rules ih =>
    rw [List.forM, bind_ok]
    cases fragment : r.1.fragment with
    | true =>
      refine ⟨(), net, ?_, ?_⟩
      · simp only [fragment]
        rfl
      · simpa [tokenEdges, fragment] using ih modeTable ruleTable
    | false =>
      let edge : Nat × Transition :=
        (modeStarts.getD r.1.mode 0, .epsilon (ruleStarts.getD r.2 0))
      refine ⟨(), Decode.addEdge net edge, ?_, ?_⟩
      · simp only [fragment, edge, ← modeTable, ← ruleTable]
        rfl
      · have later := @ih (Decode.addEdge net edge) modeTable ruleTable
        simpa [tokenEdges, fragment, edge] using later

theorem getD_map_range {k i : Nat} (f : Nat → Nat) (inside : i < k) :
    ((Array.range k).map f).getD i 0 = f i := by
  simp [Array.getD, inside]

theorem edgesFrom_tokenEdges {k m mode : Nat} (rules : List (RuleDef × Nat))
    (moded : ∀ r ∈ rules, r.1.mode < m) (known : ∀ r ∈ rules, r.2 < k) :
    Network.edgesFrom (2 * k + mode) (tokenEdges ((Array.range m).map (2 * k + ·))
      ((Array.range k).map (2 * ·)) rules) =
      ((rules.filter fun r => !r.1.fragment && r.1.mode == mode).map (·.2)).map
        fun r => .epsilon (2 * r) := by
  induction rules with
  | nil => rfl
  | cons r rules ih =>
    have later := ih (fun r' member => moded r' (by simp [member]))
      fun r' member => known r' (by simp [member])
    have inMode : r.1.mode < m := moded r (by simp)
    have inRules : r.2 < k := known r (by simp)
    have modeAt := getD_map_range (2 * k + ·) inMode
    have ruleAt := getD_map_range (2 * ·) inRules
    simp only [tokenEdges, Network.edgesFrom] at later ⊢
    cases fragment : r.1.fragment with
    | true => simpa [fragment] using later
    | false =>
      rw [List.filterMap_cons_some (by rw [fragment, modeAt, ruleAt]; rfl)]
      by_cases here : r.1.mode = mode
      · rw [List.filterMap_cons_some (by rw [here, if_pos rfl]), later]
        simp [fragment, here]
      · rw [List.filterMap_cons_none (by rw [if_neg (by omega)]), later]
        simp [here]

theorem edgesFrom_tokenEdges_of_lt {k m n : Nat} (rules : List (RuleDef × Nat)) (below : n < 2 * k)
    (moded : ∀ r ∈ rules, r.1.mode < m) (ruleStarts : Array Nat) :
    Network.edgesFrom n (tokenEdges ((Array.range m).map (2 * k + ·)) ruleStarts rules) = [] := by
  refine List.filterMap_eq_nil_iff.2 fun e member => if_neg ?_
  obtain ⟨r, among, edge⟩ := List.mem_filterMap.1 member
  split at edge
  · cases edge
  · have inMode := moded r among
    cases edge
    rw [getD_map_range (2 * k + ·) inMode]
    omega

/-! ## The bodies of the rules -/

/-- The body of a rule is laid out between its ends, in every network that differs from the present one
outside the states of the body only. -/
structure Standing (net : Network) (g : Grammar) (rule : Nat) (body : Element) (seg : Segment)
    (lo hi : Nat) : Prop where
  inside : 2 * g.rules.length ≤ lo ∧ hi ≤ net.states.size
  laid : ∀ final, Agree lo hi [seg.right] net final → final.Laid g rule body seg lo hi
  left : lo ≤ seg.left ∧ seg.left < hi
  right : lo ≤ seg.right ∧ seg.right < hi
  starts : net.out (2 * rule) = [.epsilon seg.left]
  stops : net.out seg.right = [.epsilon (2 * rule + 1)]
  owner : ∀ n, lo ≤ n → n < hi → (net.state n).rule = some rule
  inner : ∀ n, lo ≤ n → n < hi → (net.state n).kind.isInner = true

/-- A later step that leaves the states of the body and the start of the rule alone. -/
theorem Standing.later {rule : Nat} {body : Element} {seg : Segment} {lo hi : Nat}
    (standing : Standing net g rule body seg lo hi) (size : net.states.size ≤ net'.states.size)
    (start : net'.out (2 * rule) = net.out (2 * rule))
    (same : ∀ n, lo ≤ n → n < hi → net'.state n = net.state n)
    (ruleStarts : net'.ruleStarts = net.ruleStarts) : Standing net' g rule body seg lo hi := by
  have sameOut : ∀ n, lo ≤ n → n < hi → net'.out n = net.out n := by
    intro n above below
    rw [Network.out, same n above below, Network.out]
  refine ⟨⟨standing.inside.1, Nat.le_trans standing.inside.2 size⟩, ?_, standing.left, standing.right,
    start.trans standing.starts, ?_, ?_, ?_⟩
  · intro final agree
    refine standing.laid final ⟨fun n above below free => ?_, agree.ruleStarts.trans ruleStarts⟩
    rw [agree.out n above below free, sameOut n above below]
  · rw [sameOut _ standing.right.1 standing.right.2, standing.stops]
  · intro n above below
    rw [same n above below]
    exact standing.owner n above below
  · intro n above below
    rw [same n above below]
    exact standing.inner n above below

/-- The bodies of the first `k` rules are laid out. -/
structure Bodies (g : Grammar) (types : Array Int) (m k : Nat) (entries : Nat → List Transition)
    (net : Network) : Prop where
  frame : Frame g types g.rules.length m net
  modeOut : ∀ i < m, net.out (2 * g.rules.length + i) = entries i
  stopOut : ∀ r < g.rules.length, net.out (2 * r + 1) = []
  startOut : ∀ r, k ≤ r → r < g.rules.length → net.out (2 * r) = []
  body : ∀ i < k, ∀ r, g.rules[i]? = some r → ∃ seg lo hi, Standing net g i r.body seg lo hi
  cover : ∀ n < net.states.size, n < 2 * g.rules.length + m ∨
    ∃ i r seg lo hi, g.rules[i]? = some r ∧ i < k ∧ Standing net g i r.body seg lo hi ∧ lo ≤ n ∧ n < hi

theorem Bodies.step {m k : Nat} {entries : Nat → List Transition} {r : RuleDef} {u : Unit}
    (bodies : Bodies g types m k entries net) (found : g.rules[k]? = some r)
    (run : (ruleBody g (r, k)).run net = .ok (u, net')) : Bodies g types m (k + 1) entries net' := by
  obtain ⟨below, -⟩ := List.getElem?_eq_some_iff.1 found
  have frame := bodies.frame
  have frameSize := frame.size
  obtain ⟨seg, mid, elementRun, joinRun⟩ := bind_ok.1 run
  have placed := element_placed g k r.body elementRun
  have midFrame := frame.grown placed.grown
  have startIs : mid.ruleStart k = 2 * k := by
    rw [Network.ruleStart, midFrame.ruleStarts, getD_map_range _ below]
  have stopIs : (mid.ruleStop? k).getD 0 = 2 * k + 1 := by
    simp [Network.ruleStop?, midFrame.ruleStops, below]
  let first := Decode.addEdge mid (2 * k, .epsilon seg.left)
  let second := Decode.addEdge first (seg.right, .epsilon (2 * k + 1))
  have result : (Except.ok ((), second) : Except BuildError (Unit × Network)) = .ok (u, net') := by
    have joined : (Except.ok ((), Decode.addEdge
        (Decode.addEdge mid (mid.ruleStart k, .epsilon seg.left))
        (seg.right, .epsilon ((mid.ruleStop? k).getD 0))) :
        Except BuildError (Unit × Network)) = .ok (u, net') := joinRun
    rwa [startIs, stopIs] at joined
  rw [← (Prod.mk.inj (Except.ok.inj result)).2]
  have size := placed.grown.size
  have left := placed.left
  have right := placed.right
  have secondSize : second.states.size = mid.states.size := by simp [second, first]
  have state : ∀ n, n ≠ 2 * k → n ≠ seg.right → second.state n = mid.state n := by
    intro n notStart notRight
    rw [Network.addEdge_state_of_ne _ _ notRight, Network.addEdge_state_of_ne _ _ notStart]
  have startOut : second.out (2 * k) = [.epsilon seg.left] := by
    rw [Network.addEdge_out, if_neg (by simp only []; omega), Network.addEdge_out,
      if_pos ⟨rfl, by omega⟩, placed.grown.old_out (by omega),
      bodies.startOut k (Nat.le_refl k) below]
    rfl
  have rightOut : second.out seg.right = [.epsilon (2 * k + 1)] := by
    rw [Network.addEdge_out, if_pos ⟨rfl, by simpa [first] using right.2⟩, Network.addEdge_out,
      if_neg (by simp only []; omega), placed.ends]
    rfl
  have out : ∀ n, n ≠ 2 * k → n ≠ seg.right → second.out n = mid.out n := by
    intro n notStart notRight
    rw [Network.out, state n notStart notRight, Network.out]
  have oldOut : ∀ n < net.states.size, n ≠ 2 * k → second.out n = net.out n := by
    intro n old notStart
    rw [out n notStart (by omega), placed.grown.old_out old]
  have kept : ∀ n, (second.state n).rule = (mid.state n).rule ∧
      (second.state n).kind = (mid.state n).kind := by
    intro n
    have keepsRule (net : Network) (e : Nat × Transition) :=
      net.modifyState_keeps e.1 (·.addTransition e.2) (·.rule) (fun _ => rfl) n
    have keepsKind (net : Network) (e : Nat × Transition) :=
      net.modifyState_keeps e.1 (·.addTransition e.2) (·.kind) (fun _ => rfl) n
    exact ⟨(keepsRule first _).trans (keepsRule mid _), (keepsKind first _).trans (keepsKind mid _)⟩
  have new : Standing second g k r.body seg net.states.size mid.states.size := by
    refine ⟨⟨by omega, by omega⟩, ?_, left, right, startOut, rightOut, ?_, ?_⟩
    · intro final agree
      refine placed.holds final ⟨fun n above below free => ?_, agree.ruleStarts⟩
      rw [agree.out n above below free, out n (by omega) (by simpa using free)]
    · intro n above below
      rw [(kept n).1, placed.grown.owner n above below]
    · intro n above below
      rw [(kept n).2, placed.grown.inner n above below]
  have old : ∀ {i r seg lo hi}, i < k → Standing net g i r seg lo hi →
      Standing second g i r seg lo hi := by
    intro i r' seg' lo hi earlier standing
    refine standing.later (by omega) (oldOut _ (by omega) (by omega)) ?_
      placed.grown.ruleStarts
    intro n above below
    have inside := standing.inside
    rw [state n (by omega) (by omega), placed.grown.old n (by omega)]
  refine ⟨(midFrame.addEdge _).addEdge _, ?_, ?_, ?_, ?_, ?_⟩
  · intro i inside
    rw [oldOut _ (by omega) (by omega), bodies.modeOut i inside]
  · intro i inside
    rw [oldOut _ (by omega) (by omega), bodies.stopOut i inside]
  · intro i later inside
    rw [oldOut _ (by omega) (by omega), bodies.startOut i (by omega) inside]
  · intro i inside r' found'
    rcases Nat.lt_or_ge i k with earlier | here
    · obtain ⟨seg', lo, hi, standing⟩ := bodies.body i earlier r' found'
      exact ⟨seg', lo, hi, old earlier standing⟩
    · obtain rfl : i = k := by omega
      obtain rfl : r = r' := Option.some.inj (found.symm.trans found')
      exact ⟨seg, _, _, new⟩
  · intro n inside
    rcases Nat.lt_or_ge n net.states.size with early | late
    · rcases bodies.cover n early with low | ⟨i, r', seg', lo, hi, found', earlier, standing, within⟩
      · exact .inl low
      · exact .inr ⟨i, r', seg', lo, hi, found', by omega, old earlier standing, within⟩
    · exact .inr ⟨k, r, seg, _, _, found, by omega, new, late, by omega⟩

/-! ## The whole grammar -/

theorem Bare.setTypes {k m : Nat} (bare : Bare g types k m net) (types' : Array Int) :
    Bare g types' k m { net with ruleTypes := types' } :=
  ⟨⟨bare.frame.kind, bare.frame.maxTokenType, rfl, bare.frame.size, bare.frame.number, bare.frame.ruleStarts,
    bare.frame.ruleStops, bare.frame.startState, bare.frame.stopState, bare.frame.modeStarts,
    bare.frame.modeState⟩, bare.size, bare.out⟩

theorem Bare.addModes {k m : Nat} {names : List String} {u : Unit} (bare : Bare g types k m net)
    (run : (names.forM fun _ => modeStart).run net = .ok (u, net')) :
    Bare g types k (m + names.length) net' := by
  induction names generalizing net m with
  | nil => cases run; exact bare
  | cons name names ih =>
    obtain ⟨_, mid, first, rest⟩ := bind_ok.1 run
    have all := ih (bare.addMode first) rest
    have length : m + 1 + names.length = m + (name :: names).length := by
      simp only [List.length_cons]
      omega
    rwa [length] at all

/-- The bodies can be laid out once the states outside them stand. -/
theorem Bare.bodies {m : Nat} (bare : Bare g types g.rules.length m net) :
    Bodies g types m 0 (fun _ => []) net :=
  ⟨bare.frame, fun _ _ => bare.out _, fun _ _ => bare.out _, fun _ _ _ => bare.out _,
    fun _ none => absurd none (Nat.not_lt_zero _), fun n inside => .inl (by rw [← bare.size]; exact inside)⟩

theorem zipIdx_known {r : RuleDef × Nat} (member : r ∈ g.rules.zipIdx) :
    r.1 ∈ g.rules ∧ r.2 < g.rules.length := by
  obtain ⟨i, bound, rfl⟩ := List.mem_iff_getElem.1 member
  rw [List.length_zipIdx] at bound
  rw [List.getElem_zipIdx]
  exact ⟨List.getElem_mem bound, by simpa using bound⟩

theorem modes_run {u : Unit} (moded : g.Moded) (lexer : g.isLexer = true)
    (bare : Bare g types g.rules.length 0 net) (run : (modes g).run net = .ok (u, net')) :
    Bodies g g.tokenTypes.toArray g.modes.length 0
      (fun m => (g.tokenRules m).map fun r => .epsilon (2 * r)) net' := by
  obtain ⟨-, below⟩ := moded lexer
  obtain ⟨_, typed, typesRun, rest⟩ := bind_ok.1 run
  cases typesRun
  obtain ⟨_, entered, modesRun, joinRun⟩ := bind_ok.1 rest
  have bareModes := (bare.setTypes g.tokenTypes.toArray).addModes modesRun
  rw [Nat.zero_add] at bareModes
  have frame := bareModes.frame
  have size := bareModes.size
  rw [tokenEdges_run _ frame.modeStarts frame.ruleStarts] at joinRun
  cases joinRun
  have modedIdx : ∀ r ∈ g.rules.zipIdx, r.1.mode < g.modes.length :=
    fun r member => below _ (zipIdx_known member).1
  have out : ∀ n < entered.states.size, _ := fun n inside =>
    Network.addEdges_out entered (tokenEdges ((Array.range g.modes.length).map
      (2 * g.rules.length + ·)) ((Array.range g.rules.length).map (2 * ·)) g.rules.zipIdx) inside
  have low : ∀ n < 2 * g.rules.length, (entered.addEdges (tokenEdges ((Array.range g.modes.length).map
      (2 * g.rules.length + ·)) ((Array.range g.rules.length).map (2 * ·)) g.rules.zipIdx)).out n =
      [] := by
    intro n inside
    rw [out n (by omega), bareModes.out, edgesFrom_tokenEdges_of_lt _ inside modedIdx]
    rfl
  refine ⟨frame.addEdges _, ?_, fun r inside => low _ (by omega), fun r _ inside => low _ (by omega),
    fun _ none => absurd none (Nat.not_lt_zero _), fun n inside => .inl ?_⟩
  · intro i inside
    rw [out _ (by omega), bareModes.out,
      edgesFrom_tokenEdges _ modedIdx fun r member => (zipIdx_known member).2]
    rfl
  · rw [Network.addEdges_size, size] at inside
    exact inside

/-- With all bodies in place the network is complete; what is left to do is to recompute which states
consume nothing, and that changes nothing else. -/
theorem Bodies.laidOut {m : Nat} {entries : Nat → List Transition}
    (bodies : Bodies g types m g.rules.length entries net)
    (typed : types = if g.isLexer then g.tokenTypes.toArray else #[])
    (modes : m = if g.isLexer then g.modes.length else 0)
    (enters : ∀ i < m, entries i = (g.tokenRules i).map fun r => .epsilon (2 * r)) :
    ({ net with states := net.states.map State.refresh } : Network).LaidOut g := by
  have number := net.mapStates_keeps State.refresh (·.number) fun _ => rfl
  have owner := net.mapStates_keeps State.refresh (·.rule) fun _ => rfl
  have kind := net.mapStates_keeps State.refresh (·.kind) fun _ => rfl
  have out (n : Nat) :
      ({ net with states := net.states.map State.refresh } : Network).out n = net.out n :=
    net.mapStates_keeps State.refresh (·.transitions) (fun _ => rfl) n
  have frame := bodies.frame
  have modeCount : net.modeStarts.size = m := by simp [frame.modeStarts]
  have body {i : Nat} {r : RuleDef} {seg : Segment} {lo hi : Nat}
      (standing : Standing net g i r.body seg lo hi) :
      ({ net with states := net.states.map State.refresh } : Network).BodyAt g i r.body seg lo hi := by
    refine ⟨standing.laid _ ⟨fun n _ _ _ => out n, rfl⟩, standing.left, standing.right,
      (out _).trans standing.starts, (out _).trans standing.stops, ?_, ?_⟩
    · intro n above below
      rw [owner]
      exact standing.owner n above below
    · intro n above below
      rw [kind]
      exact standing.inner n above below
  refine ⟨frame.kind, frame.maxTokenType, ?_, frame.ruleStarts, frame.ruleStops, ?_, ?_,
    frame.ruleTypes.trans typed, ?_, ?_, ?_, ?_⟩
  · intro n inside
    rw [number]
    exact frame.number n (by simpa using inside)
  · intro r inside
    rw [kind, owner]
    exact frame.startState r inside
  · intro r inside
    rw [kind, owner, out]
    exact ⟨(frame.stopState r inside).1, (frame.stopState r inside).2, bodies.stopOut r inside⟩
  · rw [← modes]
    exact frame.modeStarts
  · intro i inside
    replace inside : i < m := modeCount ▸ inside
    rw [kind, owner, out]
    exact ⟨(frame.modeState i inside).1, (frame.modeState i inside).2,
      (bodies.modeOut i inside).trans (enters i inside)⟩
  · intro i r found
    obtain ⟨inside, -⟩ := List.getElem?_eq_some_iff.1 found
    obtain ⟨seg, lo, hi, standing⟩ := bodies.body i inside r found
    exact ⟨seg, lo, hi, body standing⟩
  · intro n inside
    rcases bodies.cover n (by simpa using inside) with low | ⟨i, r, seg, lo, hi, found, -, standing, within⟩
    · exact .inl (by simpa [modeCount] using low)
    · exact .inr ⟨i, r, seg, lo, hi, found, body standing, within⟩

end Layout

open Layout in
/-- The steps of the layout, from the network without states. -/
theorem Grammar.layOut_run {g : Grammar} {net : Network} (run : g.layOut = .ok net) :
    ∃ ended entered filled u v w,
      (g.rules.zipIdx.forM ruleEnds : Layout Unit).run { kind := g.kind, maxTokenType := g.maxTokenType } =
        .ok (u, ended) ∧
      (if g.isLexer then Layout.modes g else pure () : Layout Unit).run ended = .ok (v, entered) ∧
      (g.rules.zipIdx.forM (ruleBody g) : Layout Unit).run entered = .ok (w, filled) ∧
      net = { filled with states := filled.states.map State.refresh } := by
  rw [Grammar.layOut] at run
  obtain ⟨⟨u, final⟩, whole, returned⟩ := except_bind_ok.1 run
  cases returned
  obtain ⟨_, ended, endsRun, afterEnds⟩ := bind_ok.1 whole
  cases lexer : g.isLexer with
  | true =>
    simp only [lexer, if_true] at afterEnds
    obtain ⟨_, entered, modesRun, rest⟩ := bind_ok.1 afterEnds
    obtain ⟨_, filled, bodiesRun, refreshRun⟩ := bind_ok.1 rest
    cases refreshRun
    exact ⟨ended, entered, filled, _, _, _, endsRun, modesRun, bodiesRun, rfl⟩
  | false =>
    simp only [lexer, Bool.false_eq_true, if_false] at afterEnds
    obtain ⟨_, filled, bodiesRun, refreshRun⟩ := bind_ok.1 afterEnds
    cases refreshRun
    exact ⟨ended, ended, filled, _, _, _, endsRun, rfl, bodiesRun, rfl⟩

open Layout in
/-- Laying out a grammar gives its network. -/
theorem Grammar.layOut_laidOut {g : Grammar} {net : Network} (moded : g.Moded)
    (run : g.layOut = .ok net) : net.LaidOut g := by
  obtain ⟨ended, entered, filled, _, _, _, endsRun, modesRun, bodiesRun, rfl⟩ := layOut_run run
  have bare : Bare g #[] g.rules.length 0 ended := by
    have all := forM_zipIdx (P := fun k net => Bare g #[] k 0 net) g.rules 0 (bare_empty g)
      (fun i r m m' u' _ inv ran => inv.addRule ran) endsRun
    rwa [Nat.zero_add] at all
  have complete {types : Array Int} {m : Nat} {entries : Nat → List Transition}
      (bodies : Bodies g types m 0 entries entered) :
      Bodies g types m g.rules.length entries filled := by
    have all := forM_zipIdx (P := fun k net => Bodies g types m k entries net) g.rules 0 bodies
      (fun i r n n' u' found inv ran => by
        rw [Nat.zero_add] at inv ran ⊢
        exact inv.step found ran) bodiesRun
    rwa [Nat.zero_add] at all
  cases lexer : g.isLexer with
  | true =>
    rw [lexer, if_pos rfl] at modesRun
    exact (complete (modes_run moded lexer bare modesRun)).laidOut (by simp [lexer]) (by simp [lexer])
      fun _ _ => rfl
  | false =>
    rw [lexer] at modesRun
    cases modesRun
    exact (complete bare.bodies).laidOut (by simp [lexer]) (by simp [lexer])
      fun _ none => absurd none (Nat.not_lt_zero _)

end AdaptiveLL
