import AdaptiveLL.Proofs.Grammar.Outfitting

/-!
# The kinds of the states around a rule

How an element lies in a network (`Laid`) says nothing of the kinds of its states, and a state that fits its
kind (`Fits`) may have another one as well. Two kinds are needed exactly where a parser treats left-recursive
rules: that of the start of a rule, which is marked when the rule is left-recursive, and those of the states
around a loop with which a rule ends (`Grammar.layOut_kinds`).
-/

set_option autoImplicit false

namespace AdaptiveLL

namespace Network

/-- The states of a loop that begin with the start of its block. -/
structure Looped (net : Network) (m : Nat) : Prop where
  block : (net.state m).kind = .blockStart .star (some (m + 1))
  entry : (net.state (m + 2)).kind = .starLoopEntry (some (m + 3)) false
  stop : (net.state (m + 4)).kind = .loopEnd (some (m + 3))

theorem Looped.of_same {net net' : Network} {m : Nat} (looped : net.Looped m)
    (kind : ∀ n, m ≤ n → n ≤ m + 4 → (net'.state n).kind = (net.state n).kind) : net'.Looped m :=
  ⟨(kind m (by omega) (by omega)).trans looped.block, (kind _ (by omega) (by omega)).trans looped.entry,
    (kind _ (by omega) (by omega)).trans looped.stop⟩

end Network

namespace Layout

open Network

variable {g : Grammar} {rule : Nat} {net net' : Network} {seg : Segment}

/-! ## The start of a rule -/

theorem ruleEnds_kind {r : RuleDef} {k : Nat} {u : Unit} (run : (ruleEnds (r, k)).run net = .ok (u, net')) :
    net'.states.size = net.states.size + 2 ∧ (∀ n < net.states.size, net'.state n = net.state n) ∧
      (net'.state net.states.size).kind = .ruleStart (some (net.states.size + 1)) r.leftRecursive := by
  let made : State := { number := net.states.size, rule := some k, kind := .ruleStart none r.leftRecursive }
  let stop : State := { number := (net.push made).states.size, rule := some k, kind := .ruleStop }
  let both := ((net.push made).push stop).modifyState net.states.size
    ({ · with kind := .ruleStart (some (net.push made).states.size) r.leftRecursive })
  have result : net' = { both with
      ruleStarts := net.ruleStarts.push net.states.size
      ruleStops := net.ruleStops.push (some (net.push made).states.size) } := by
    cases run
    rfl
  have madeSize : (net.push made).states.size = net.states.size + 1 := push_size net made
  have size : both.states.size = net.states.size + 2 := by
    rw [modifyState_size, push_size, madeSize]
  rw [result]
  refine ⟨size, fun n old => ?_, ?_⟩
  · change both.state n = net.state n
    rw [modifyState_state_of_ne _ _ (by omega), push_state_of_ne _ _ (by omega), push_state_of_ne _ _ (by omega)]
  · change (both.state net.states.size).kind = _
    rw [modifyState_state_same _ _ (by rw [push_size]; omega), madeSize]

/-! ## Loops -/

theorem addEdges_nonGreedy (net : Network) (edges : List (Nat × Transition)) (n : Nat) :
    ((net.addEdges edges).state n).nonGreedy = (net.state n).nonGreedy := by
  rcases Nat.lt_or_ge n net.states.size with inside | outside
  · rw [addEdges_state _ _ inside]
  · rw [state_of_le outside, state_of_le (by rwa [addEdges_size])]

theorem starLoop_looped {greedy : Bool} {segs : List Segment}
    (run : (starLoop rule greedy segs).run net = .ok (seg, net')) :
    ∃ m, seg = ⟨m + 2, m + 4⟩ ∧ m + 5 = net'.states.size ∧ net'.Looped m ∧
      (net'.state (m + 2)).nonGreedy = !greedy := by
  obtain ⟨b, mid, blockRun, run⟩ := bind_ok.1 run
  have blockKind := (block_kinds blockRun).1
  rw [block_eq] at blockRun
  obtain ⟨rfl, same⟩ := Prod.mk.inj (Except.ok.inj blockRun)
  have size : mid.states.size = net.states.size + 2 := by
    rw [← same, addEdges_size, blockStates_size]
  let entered := ((mid.addState (some rule) (.starLoopEntry none false)).2.defineDecision
    mid.states.size).2.modifyState mid.states.size ({ · with nonGreedy := !greedy })
  let backed := (entered.addState (some rule) .starLoopBack).2
  let ended := (backed.addState (some rule) (.loopEnd (some entered.states.size))).2
  let linked := ended.modifyState mid.states.size
    ({ · with kind := .starLoopEntry (some entered.states.size) false })
  let edges := (inOrder greedy [.epsilon net.states.size] [.epsilon backed.states.size]).map
      (fun t => (mid.states.size, t)) ++
    [(net.states.size + 1, .epsilon entered.states.size), (entered.states.size, .epsilon mid.states.size)]
  have enteredSize : entered.states.size = net.states.size + 3 := by simp [entered, size]
  have backedSize : backed.states.size = net.states.size + 4 := by simp [backed, enteredSize]
  have endedSize : ended.states.size = net.states.size + 5 := by simp [ended, backedSize]
  have result : (Except.ok (⟨mid.states.size, backed.states.size⟩, linked.addEdges edges) :
      Except BuildError (Segment × Network)) = .ok (seg, net') := by
    rw [← run]
    cases greedy <;> rfl
  obtain ⟨rfl, rfl⟩ := Prod.mk.inj (Except.ok.inj result)
  have kind (n : Nat) := (addEdges_kind linked edges n).1
  have marked : ((linked.addEdges edges).state (net.states.size + 2)).nonGreedy = !greedy := by
    rw [addEdges_nonGreedy, ← size, modifyState_state_same _ _ (by omega), addState_state_of_ne _ _ _ (by omega),
      addState_state_of_ne _ _ _ (by omega), modifyState_state_same _ _ (by simp)]
  refine ⟨net.states.size, by rw [size, backedSize], ?_, ⟨?_, ?_, ?_⟩, marked⟩
  · rw [addEdges_size, modifyState_size, endedSize]
  · rw [kind, modifyState_state_of_ne _ _ (by omega), addState_state_of_ne _ _ _ (by omega),
      addState_state_of_ne _ _ _ (by omega), modifyState_state_of_ne _ _ (by omega), ← blockKind]
    exact congrArg State.kind ((modifyState_state_of_ne _ _ (by omega)).trans
      (addState_state_of_ne _ _ _ (by omega)))
  · rw [kind, ← size, modifyState_state_same _ _ (by omega), enteredSize]
  · rw [kind, modifyState_state_of_ne _ _ (by omega), ← backedSize, addState_state_new, enteredSize]

/-- A loop with which a sequence ends keeps its states when the parts are joined. -/
theorem seq_looped {e body : Element} {greedy : Bool}
    (run : (element g rule (.seq [e, .repeated .star greedy body])).run net = .ok (seg, net')) :
    ∃ m, seg.right = m + 4 ∧ m + 5 = net'.states.size ∧ net'.Looped m := by
  rw [element] at run
  obtain ⟨segs, parted, partsRun, run⟩ := bind_ok.1 run
  obtain ⟨first, mid, -, partsRun⟩ := bind_ok.1 partsRun
  obtain ⟨later, last, loopRun, returned⟩ := bind_ok.1 partsRun
  obtain ⟨loop, ended, loopRun, nothing⟩ := bind_ok.1 loopRun
  cases nothing
  cases returned
  obtain ⟨_, joined, joinRun, returned⟩ := bind_ok.1 run
  rw [joinAll_run] at joinRun
  obtain ⟨-, rfl⟩ := Prod.mk.inj (Except.ok.inj joinRun)
  cases returned
  obtain ⟨segs, between, -, around⟩ := element_repeated loopRun
  obtain ⟨m, rfl, size, looped, -⟩ := starLoop_looped around
  exact ⟨m, rfl, by rw [addEdges_size, size], looped.of_same fun n _ _ => (addEdges_kind _ _ n).1⟩

/-! ## The whole grammar -/

/-- The kinds of the starts of the first `k` rules. -/
def Started (g : Grammar) (k : Nat) (net : Network) : Prop := ∀ i < k, ∀ r, g.rules[i]? = some r →
  (net.state (2 * i)).kind = .ruleStart (some (2 * i + 1)) r.leftRecursive

/-- The loops with which the first `k` rules end. -/
def EndsInLoops (g : Grammar) (k : Nat) (net : Network) : Prop :=
  ∀ i < k, ∀ r e greedy body, g.rules[i]? = some r → r.body = .seq [e, .repeated .star greedy body] →
    ∃ m, net.out (m + 4) = [.epsilon (2 * i + 1)] ∧ net.Looped m

theorem Started.addRule {types : Array Int} {k : Nat} {r : RuleDef} {u : Unit} (started : Started g k net)
    (bare : Bare g types k 0 net) (found : g.rules[k]? = some r)
    (run : (ruleEnds (r, k)).run net = .ok (u, net')) : Started g (k + 1) net' := by
  obtain ⟨-, old, kind⟩ := ruleEnds_kind run
  have size : net.states.size = 2 * k := bare.size
  intro i inside r' found'
  rcases Nat.lt_or_ge i k with earlier | here
  · rw [old _ (by omega)]
    exact started i earlier r' found'
  · obtain rfl : i = k := by omega
    obtain rfl : r = r' := Option.some.inj (found.symm.trans found')
    rw [← size, kind]

/-- The body of a rule is laid out on new states and joined with the ends of the rule. -/
theorem ruleBody_joins {types : Array Int} {m k : Nat} {entries : Nat → List Transition} {r : RuleDef} {u : Unit}
    (bodies : Bodies g types m k entries net) (found : g.rules[k]? = some r)
    (run : (ruleBody g (r, k)).run net = .ok (u, net')) :
    ∃ seg mid, (element g k r.body).run net = .ok (seg, mid) ∧
      net' = mid.addEdges [(2 * k, .epsilon seg.left), (seg.right, .epsilon (2 * k + 1))] ∧
      net'.out (2 * k) = [.epsilon seg.left] ∧ net'.out seg.right = [.epsilon (2 * k + 1)] := by
  obtain ⟨seg, mid, elementRun, joinRun⟩ := bind_ok.1 run
  have placed := element_placed g k r.body elementRun
  have frame := bodies.frame.grown placed.grown
  obtain ⟨below, -⟩ := List.getElem?_eq_some_iff.1 found
  have size := bodies.frame.size
  have grows := placed.grown.size
  have right := placed.right
  have startIs : mid.ruleStart k = 2 * k := by
    rw [Network.ruleStart, frame.ruleStarts, getD_map_range _ below]
  have stopIs : (mid.ruleStop? k).getD 0 = 2 * k + 1 := by
    simp [Network.ruleStop?, frame.ruleStops, below]
  have result : net' = mid.addEdges [(2 * k, .epsilon seg.left), (seg.right, .epsilon (2 * k + 1))] := by
    have joined : (Except.ok ((), Decode.addEdge (Decode.addEdge mid (mid.ruleStart k, .epsilon seg.left))
        (seg.right, .epsilon ((mid.ruleStop? k).getD 0))) : Except BuildError (Unit × Network)) = .ok (u, net') :=
      joinRun
    rw [startIs, stopIs] at joined
    exact (Prod.mk.inj (Except.ok.inj joined)).2.symm
  refine ⟨seg, mid, elementRun, result, ?_, ?_⟩
  · rw [result, addEdges_out _ _ (by omega), placed.grown.old_out (by omega),
      bodies.startOut k (Nat.le_refl k) below, edgesFrom_cons, if_pos rfl, edgesFrom_cons, if_neg (by omega)]
    rfl
  · rw [result, addEdges_out _ _ (by omega), placed.ends, edgesFrom_cons, if_neg (by omega), edgesFrom_cons,
      if_pos rfl]
    rfl

/-- A state that has transitions already gets no other when the body of a rule is added: the start of the rule
has none, and the end of the body is new. -/
theorem ruleBody_keeps {types : Array Int} {m k n : Nat} {entries : Nat → List Transition} {r : RuleDef} {u : Unit}
    (bodies : Bodies g types m k entries net) (found : g.rules[k]? = some r)
    (run : (ruleBody g (r, k)).run net = .ok (u, net')) (leaves : net.out n ≠ []) :
    net'.out n = net.out n := by
  obtain ⟨seg, mid, elementRun, rfl, -⟩ := ruleBody_joins bodies found run
  have placed := element_placed g k r.body elementRun
  obtain ⟨below, -⟩ := List.getElem?_eq_some_iff.1 found
  have grows := placed.grown.size
  have right := placed.right
  have old : n < net.states.size := by
    by_contra outside
    exact leaves (out_of_le (Nat.not_lt.1 outside))
  have notStart : 2 * k ≠ n := by
    rintro rfl
    exact leaves (bodies.startOut k (Nat.le_refl k) below)
  rw [addEdges_out _ _ (by omega), placed.grown.old_out old, edgesFrom_cons, if_neg notStart, edgesFrom_cons,
    if_neg (by omega)]
  exact List.append_nil _

theorem body_kinds {types : Array Int} {m k : Nat} {entries : Nat → List Transition} {r : RuleDef} {u : Unit}
    (bodies : Bodies g types m k entries net) (found : g.rules[k]? = some r)
    (started : Started g g.rules.length net) (loops : EndsInLoops g k net)
    (run : (ruleBody g (r, k)).run net = .ok (u, net')) :
    Started g g.rules.length net' ∧ EndsInLoops g (k + 1) net' := by
  obtain ⟨seg, mid, elementRun, result, -, stops⟩ := ruleBody_joins bodies found run
  have keeps {n : Nat} := ruleBody_keeps (n := n) bodies found run
  have placed := element_placed g k r.body elementRun
  have size := bodies.frame.size
  have kind (n : Nat) : (net'.state n).kind = (mid.state n).kind := by
    rw [result]
    exact (addEdges_kind mid _ n).1
  refine ⟨fun i inside r' found' => ?_, fun i inside r' e greedy body found' shape => ?_⟩
  · rw [kind, placed.grown.old _ (by omega)]
    exact started i inside r' found'
  · rcases Nat.lt_or_ge i k with earlier | here
    · obtain ⟨m, leaves, looped⟩ := loops i earlier r' e greedy body found' shape
      have inner : m + 4 < net.states.size := by
        by_contra outside
        rw [out_of_le (Nat.not_lt.1 outside)] at leaves
        cases leaves
      refine ⟨m, (keeps (by rw [leaves]; simp)).trans leaves, looped.of_same fun n _ _ => ?_⟩
      rw [kind, placed.grown.old n (by omega)]
    · obtain rfl : i = k := by omega
      obtain rfl : r = r' := Option.some.inj (found.symm.trans found')
      rw [shape] at elementRun
      obtain ⟨m, rightIs, ends, looped⟩ := seq_looped elementRun
      exact ⟨m, rightIs ▸ stops, looped.of_same fun n _ _ => kind n⟩

end Layout

open Layout Network in
/-- The start of a rule is marked when the rule is left-recursive, and a rule that ends in a loop has its
states around its end. -/
theorem Grammar.layOut_kinds {g : Grammar} {net : Network} (parser : g.isLexer = false)
    (run : g.layOut = .ok net) : Started g g.rules.length net ∧ EndsInLoops g g.rules.length net := by
  obtain ⟨ended, entered, filled, _, _, _, endsRun, modesRun, bodiesRun, rfl⟩ := layOut_run run
  rw [parser] at modesRun
  cases modesRun
  have starts : Bare g #[] g.rules.length 0 ended ∧ Started g g.rules.length ended := by
    have all := forM_zipIdx (P := fun k net => Bare g #[] k 0 net ∧ Started g k net) g.rules 0
      ⟨bare_empty g, nofun⟩ (fun i r m m' u' found inv ran => by
        rw [Nat.zero_add] at inv ran ⊢
        exact ⟨inv.1.addRule ran, inv.2.addRule inv.1 found ran⟩) endsRun
    rwa [Nat.zero_add] at all
  have all := forM_zipIdx (P := fun k net => Bodies g #[] 0 k (fun _ => []) net ∧
      Started g g.rules.length net ∧ EndsInLoops g k net) g.rules 0 ⟨starts.1.bodies, starts.2, nofun⟩
    (fun i r m m' u' found inv ran => by
      rw [Nat.zero_add] at inv ran ⊢
      exact ⟨inv.1.step found ran, body_kinds inv.1 found inv.2.1 inv.2.2 ran⟩) bodiesRun
  rw [Nat.zero_add] at all
  have kind := filled.mapStates_keeps State.refresh (·.kind) fun _ => rfl
  refine ⟨fun i inside r found => (kind _).trans (all.2.1 i inside r found),
    fun i inside r e greedy body found shape => ?_⟩
  obtain ⟨m, leaves, looped⟩ := all.2.2 i inside r e greedy body found shape
  exact ⟨m, (filled.mapStates_keeps State.refresh (·.transitions) (fun _ => rfl) _).trans leaves,
    looped.of_same fun n _ _ => kind n⟩

end AdaptiveLL
