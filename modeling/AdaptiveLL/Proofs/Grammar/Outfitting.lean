import AdaptiveLL.Proofs.Grammar.Furnishing

/-!
# The outfit of a whole grammar

The start and stop states of the rules and the entries of the modes are furnished when they are added;
then each body furnishes its states. In the end the network is equipped and every state fits
(`Grammar.layOut_outfitted`).
-/

set_option autoImplicit false

namespace AdaptiveLL

namespace Layout

open Network

variable {g : Grammar} {types : Array Int} {net net' : Network}

/-- The network is equipped, and all its states fit. -/
structure Outfitted (g : Grammar) (net : Network) : Prop where
  equipped : net.Equipped g
  fits : ∀ n < net.states.size, net.Fits n

/-- What leaves the decisions, the actions, and the kinds, decisions and transitions of the states alone
leaves the outfit alone. -/
theorem Outfitted.of_same (outfitted : Outfitted g net) (size : net'.states.size = net.states.size)
    (decisions : net'.decisions = net.decisions) (actions : net'.actions = net.actions)
    (kind : ∀ n, (net'.state n).kind = (net.state n).kind)
    (decision : ∀ n, (net'.state n).decision = (net.state n).decision)
    (out : ∀ n, net'.out n = net.out n) : Outfitted g net' := by
  refine ⟨outfitted.equipped.of_same decisions actions kind decision out, fun n inside => ?_⟩
  rw [size] at inside
  exact (outfitted.fits n inside).of_same (fun m _ => kind m) (decision n) (.inl (out n))

/-- An old state goes on fitting behind new ones. -/
theorem Fits.push {n : Nat} (fits : net.Fits n) (s : State) (empty : s.transitions = [])
    (old : n < net.states.size) : (net.push s).Fits n :=
  fits.of_same (fun _ => push_kind net s) (by rw [push_state_of_ne _ _ (Nat.ne_of_lt old)])
    (.inl (push_out net empty n))

/-- The ends of a rule. -/
theorem Outfitted.addRule {r : RuleDef} {k : Nat} {u : Unit} (outfitted : Outfitted g net)
    (run : (ruleEnds (r, k)).run net = .ok (u, net')) : Outfitted g net' := by
  let made : State := { number := net.states.size, rule := some k, kind := .ruleStart none r.leftRecursive }
  let start : State := { made with kind := .ruleStart (some (net.push made).states.size) r.leftRecursive }
  let stop : State := { number := (net.push made).states.size, rule := some k, kind := .ruleStop }
  let both := (net.push start).push stop
  have linked : ((net.push made).push stop).modifyState net.states.size
      ({ · with kind := .ruleStart (some (net.push made).states.size) r.leftRecursive }) = both := by
    rw [push_modify_of_lt _ _ (by simp), push_modify]
  have size : (net.push made).states.size = net.states.size + 1 := push_size net made
  have result : net' = { both with
      ruleStarts := net.ruleStarts.push net.states.size
      ruleStops := net.ruleStops.push (some (net.push made).states.size) } := by
    rw [← linked]
    cases run
    rfl
  have startSize : (net.push start).states.size = net.states.size + 1 := push_size net start
  have startIs : both.state net.states.size = start := by
    rw [push_state_of_ne _ _ (by omega), push_state_new]
  have stopIs : both.state (net.states.size + 1) = stop := by
    rw [← startSize, push_state_new]
  have fits : Outfitted g both := by
    refine ⟨(outfitted.equipped.push rfl rfl).push rfl rfl, fun n inside => ?_⟩
    rw [push_size, startSize] at inside
    rcases Nat.lt_or_ge n net.states.size with old | new
    · exact Fits.push (Fits.push (outfitted.fits n old) start rfl old) stop rfl (by omega)
    · obtain rfl | rfl : n = net.states.size ∨ n = net.states.size + 1 := by omega
      · have kind : (both.state net.states.size).kind =
            .ruleStart (some (net.states.size + 1)) r.leftRecursive := by
          rw [startIs]
          simp only [start, size]
        exact .ruleStart kind (by rw [stopIs])
      · exact .ruleStop (by rw [stopIs])
  rw [result]
  exact fits.of_same rfl rfl rfl (fun _ => rfl) (fun _ => rfl) fun _ => rfl

/-- The entry of a mode. -/
theorem Outfitted.addMode {u : Unit} (outfitted : Outfitted g net)
    (run : modeStart.run net = .ok (u, net')) : Outfitted g net' := by
  let made : State := { number := net.states.size, rule := none, kind := .tokenStart }
  let entry : State := { made with decision := some net.decisions.size }
  let entered : Network := { net.push entry with decisions := net.decisions.push net.states.size }
  have result : net' = { entered with modeStarts := net.modeStarts.push net.states.size } := by
    have decided : net' = { ((net.push made).defineDecision net.states.size).2 with
        modeStarts := net.modeStarts.push net.states.size } := by
      cases run
      rfl
    rwa [push_defineDecision] at decided
  have entryIs : entered.state net.states.size = entry := push_state_new net entry
  have fits : Outfitted g entered := by
    refine ⟨outfitted.equipped.pushDecided rfl rfl rfl, fun n inside => ?_⟩
    replace inside : n < (net.push entry).states.size := inside
    rw [push_size] at inside
    rcases Nat.lt_or_ge n net.states.size with old | new
    · exact (Fits.push (outfitted.fits n old) entry rfl old).of_same (fun _ _ => rfl) rfl (.inl rfl)
    · obtain rfl : n = net.states.size := by omega
      exact .tokenStart (by rw [entryIs]) (by rw [entryIs]; rfl)
  rw [result]
  exact fits.of_same rfl rfl rfl (fun _ => rfl) (fun _ => rfl) fun _ => rfl

theorem Outfitted.addModes {names : List String} {u : Unit} (outfitted : Outfitted g net)
    (run : (names.forM fun _ => modeStart).run net = .ok (u, net')) : Outfitted g net' := by
  induction names generalizing net with
  | nil => cases run; exact outfitted
  | cons name names ih =>
    obtain ⟨_, mid, first, rest⟩ := bind_ok.1 run
    exact ih (outfitted.addMode first) rest

/-- Free transitions that leave entries, and passages that have waited for them. -/
theorem Outfitted.addEdges {edges : List (Nat × Transition)} (outfitted : Outfitted g net)
    (free : ∀ e ∈ edges, e.2.label = .epsilon none)
    (sources : ∀ n < net.states.size, edgesFrom n edges = [] ∨ (net.state n).kind.isEntry = true ∨
      (net.state n).kind.isPassage = true ∧ (net.out n ++ edgesFrom n edges).length ≤ 1) :
    Outfitted g (net.addEdges edges) := by
  refine ⟨outfitted.equipped.addEdges fun e member => ?_, fun n inside => ?_⟩
  · rw [free e member]
    rfl
  · rw [addEdges_size] at inside
    have fits := outfitted.fits n inside
    have kinds (m : Nat) (_ : (net.state m).kind ≠ .invalid) := (addEdges_kind net edges m).1
    have decision := (addEdges_kind net edges n).2
    rcases sources n inside with none' | entry | ⟨passage, one⟩
    · refine fits.of_same kinds decision (.inl ?_)
      rw [addEdges_out _ _ inside, none', List.append_nil]
    · exact fits.of_entry kinds decision entry
    · refine fits.of_same kinds decision (.inr ⟨passage, ?_⟩)
      rwa [addEdges_out _ _ inside]

/-- The body of a rule. -/
theorem Outfitted.addBody {m k : Nat} {r : RuleDef} {u : Unit} (outfitted : Outfitted g net)
    (frame : Frame g types g.rules.length m net) (small : SmallRule g k)
    (admitted : ∀ leaf ∈ r.body.leaves, g.Admits leaf)
    (run : (ruleBody g (r, k)).run net = .ok (u, net')) : Outfitted g net' := by
  obtain ⟨seg, mid, elementRun, joinRun⟩ := bind_ok.1 run
  have placed := element_placed g k r.body elementRun
  have furnished := element_furnished small r.body admitted elementRun
  have midOutfit : Outfitted g mid := by
    refine ⟨furnished.equipped outfitted.equipped, fun n inside => ?_⟩
    rcases Nat.lt_or_ge n net.states.size with old | new
    · exact (outfitted.fits n old).of_same (fun _ => placed.grown.kind_eq) (by rw [placed.grown.old n old])
        (.inl (placed.grown.old_out old))
    · exact furnished.fits n new inside
  have midFrame := frame.grown placed.grown
  have startIs : mid.ruleStart k = 2 * k := by
    rw [Network.ruleStart, midFrame.ruleStarts, getD_map_range _ small.known]
  let edges := [(mid.ruleStart k, Transition.epsilon seg.left),
    (seg.right, .epsilon ((mid.ruleStop? k).getD 0))]
  have result : net' = mid.addEdges edges := by
    cases joinRun
    rfl
  have frameSize := frame.size
  have right := placed.right.1
  have known := small.known
  have isEntry : (mid.state (2 * k)).kind.isEntry = true := by
    have isStart := (midFrame.startState k known).1
    cases kind : (mid.state (2 * k)).kind with
    | ruleStart _ _ => rfl
    | _ => simp [kind, StateKind.isRuleStart] at isStart
  rw [result]
  refine midOutfit.addEdges (by simp [edges, Transition.epsilon]) fun n inside => ?_
  simp only [edges, startIs, edgesFrom_cons]
  by_cases isStart : 2 * k = n
  · exact .inr (.inl (isStart ▸ isEntry))
  · by_cases isRight : seg.right = n
    · refine .inr (.inr ⟨isRight ▸ furnished.passages seg.right (by simp), ?_⟩)
      rw [if_neg isStart, if_pos isRight, ← isRight, placed.ends]
      simp [edgesFrom]
    · exact .inl (by simp [isStart, isRight, edgesFrom])

/-- The entries of the modes and the ways from them into the token rules. -/
theorem Outfitted.addLexer {u : Unit} (moded : g.Moded) (lexer : g.isLexer = true)
    (outfitted : Outfitted g net) (bare : Bare g types g.rules.length 0 net)
    (run : (Layout.modes g).run net = .ok (u, net')) : Outfitted g net' := by
  obtain ⟨-, below⟩ := moded lexer
  obtain ⟨_, typed, typesRun, rest⟩ := bind_ok.1 run
  cases typesRun
  obtain ⟨_, entered, modesRun, joinRun⟩ := bind_ok.1 rest
  have bareModes := (bare.setTypes g.tokenTypes.toArray).addModes modesRun
  rw [Nat.zero_add] at bareModes
  have frame := bareModes.frame
  have size := bareModes.size
  have typedOutfit : Outfitted g { net with ruleTypes := g.tokenTypes.toArray } :=
    outfitted.of_same rfl rfl rfl (fun _ => rfl) (fun _ => rfl) fun _ => rfl
  have enteredOutfit := typedOutfit.addModes modesRun
  rw [tokenEdges_run _ frame.modeStarts frame.ruleStarts] at joinRun
  cases joinRun
  have modedIdx : ∀ r ∈ g.rules.zipIdx, r.1.mode < g.modes.length :=
    fun r member => below _ (zipIdx_known member).1
  refine enteredOutfit.addEdges (fun e member => ?_) fun n inside => ?_
  · obtain ⟨r, -, edge⟩ := List.mem_filterMap.1 member
    split at edge
    · cases edge
    · cases edge
      rfl
  · rcases Nat.lt_or_ge n (2 * g.rules.length) with early | late
    · exact .inl (edgesFrom_tokenEdges_of_lt _ early modedIdx _)
    · obtain ⟨m, inModes, rfl⟩ : ∃ m < g.modes.length, n = 2 * g.rules.length + m :=
        ⟨n - 2 * g.rules.length, by omega, by omega⟩
      refine .inr (.inl ?_)
      rw [(frame.modeState m inModes).1]
      rfl

end Layout

open Layout in
/-- Laying out a grammar furnishes its network. -/
theorem Grammar.layOut_outfitted {g : Grammar} {net : Network} (moded : g.Moded)
    (representable : g.Representable) (small : ∀ rule < g.rules.length, SmallRule g rule)
    (run : g.layOut = .ok net) : Outfitted g net := by
  obtain ⟨ended, entered, filled, _, _, _, endsRun, modesRun, bodiesRun, rfl⟩ := layOut_run run
  have start : Outfitted g { kind := g.kind, maxTokenType := g.maxTokenType } := by
    refine ⟨⟨by simp, fun n d decision => ?_, fun n t member => ?_, by simp⟩, by simp⟩
    · rw [Network.state_of_le (Nat.zero_le _)] at decision
      cases decision
    · rw [Network.out_of_le (Nat.zero_le _)] at member
      cases member
  obtain ⟨bare, endedOutfit⟩ : Bare g #[] g.rules.length 0 ended ∧ Outfitted g ended := by
    have all := forM_zipIdx (P := fun k net => Bare g #[] k 0 net ∧ Outfitted g net) g.rules 0
      ⟨bare_empty g, start⟩ (fun i r m m' u' _ inv ran => ⟨inv.1.addRule ran, inv.2.addRule ran⟩) endsRun
    rwa [Nat.zero_add] at all
  have complete {types : Array Int} {m : Nat} {entries : Nat → List Transition}
      (bodies : Bodies g types m 0 entries entered) (outfitted : Outfitted g entered) :
      Outfitted g filled := by
    have all := forM_zipIdx (P := fun k net => Bodies g types m k entries net ∧ Outfitted g net) g.rules 0
      ⟨bodies, outfitted⟩ (fun i r n n' u' found inv ran => by
        rw [Nat.zero_add] at inv ran ⊢
        obtain ⟨inside, -⟩ := List.getElem?_eq_some_iff.1 found
        exact ⟨inv.1.step found ran, inv.2.addBody inv.1.frame (small i inside)
          (fun _ => representable.admits (List.mem_of_getElem? found)) ran⟩) bodiesRun
    exact all.2
  have filledOutfit : Outfitted g filled := by
    cases lexer : g.isLexer with
    | true =>
      rw [lexer, if_pos rfl] at modesRun
      exact complete (modes_run moded lexer bare modesRun) (endedOutfit.addLexer moded lexer bare modesRun)
    | false =>
      rw [lexer] at modesRun
      cases modesRun
      exact complete bare.bodies endedOutfit
  exact filledOutfit.of_same (by simp) rfl rfl
    (filled.mapStates_keeps State.refresh (·.kind) fun _ => rfl)
    (filled.mapStates_keeps State.refresh (·.decision) fun _ => rfl)
    (filled.mapStates_keeps State.refresh (·.transitions) fun _ => rfl)

end AdaptiveLL
