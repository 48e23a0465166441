import AdaptiveLL.Proofs.Grammar.Equipment

/-!
# What each element furnishes

A step of the layout furnishes the states that it adds: their kinds fit what they hold, and the network
stays equipped. The states that wait for a transition to what follows are passages, which may have one
transition and no decision (`Furnished`). There is one lemma for each construct, and an induction over
the element puts them together.
-/

set_option autoImplicit false

namespace AdaptiveLL

namespace Layout

open Network

variable {g : Grammar} {rule : Nat} {base net net' : Network}

/-! ## Steps that furnish states -/

/-- A step from `net` to `net'` has furnished the states that it added. Those at which something can be
joined are passages. -/
structure Furnished (g : Grammar) (net net' : Network) (ends : List Nat) : Prop where
  equipped : net.Equipped g → net'.Equipped g
  fits : ∀ n, net.states.size ≤ n → n < net'.states.size → net'.Fits n
  passages : ∀ n ∈ ends, (net'.state n).kind.isPassage = true

theorem furnished_refl (g : Grammar) (net : Network) : Furnished g net net [] :=
  ⟨id, fun _ above below => absurd below (Nat.not_lt.2 above), by simp⟩

theorem Grown.kind_eq (grown : Grown rule net net') {n : Nat} (valid : (net.state n).kind ≠ .invalid) :
    (net'.state n).kind = (net.state n).kind := by
  rw [grown.old]
  by_contra outside
  exact valid (by rw [state_of_le (Nat.not_lt.1 outside)])

theorem Furnished.trans {net₁ net₂ : Network} {ends₁ ends₂ : List Nat}
    (first : Furnished g net net₁ ends₁) (old : ∀ n ∈ ends₁, n < net₁.states.size)
    (grown : Grown rule net₁ net₂) (second : Furnished g net₁ net₂ ends₂) :
    Furnished g net net₂ (ends₁ ++ ends₂) := by
  refine ⟨second.equipped ∘ first.equipped, fun n above below => ?_, fun n member => ?_⟩
  · rcases Nat.lt_or_ge n net₁.states.size with early | late
    · exact (first.fits n above early).of_same (fun m => grown.kind_eq) (by rw [grown.old n early])
        (.inl (grown.old_out early))
    · exact second.fits n late below
  · rcases List.mem_append.1 member with early | late
    · rw [grown.old n (old n early)]
      exact first.passages n early
    · exact second.passages n late

theorem addEdges_kind (net : Network) (edges : List (Nat × Transition)) (n : Nat) :
    ((net.addEdges edges).state n).kind = (net.state n).kind ∧
      ((net.addEdges edges).state n).decision = (net.state n).decision := by
  rcases Nat.lt_or_ge n net.states.size with inside | outside
  · rw [addEdges_state _ _ inside]
    exact ⟨rfl, rfl⟩
  · rw [state_of_le outside, state_of_le (by rwa [addEdges_size])]
    exact ⟨rfl, rfl⟩

/-- Passages that wait for a transition get one. -/
theorem Furnished.addEdges {net₁ : Network} {ends ends' : List Nat} (furnished : Furnished g net net₁ ends)
    {edges : List (Nat × Transition)} (remain : ∀ n ∈ ends', n ∈ ends)
    (free : ∀ e ∈ edges, e.2.label = .epsilon none)
    (waiting : ∀ n < net₁.states.size, edgesFrom n edges = [] ∨
      n ∈ ends ∧ net₁.out n = [] ∧ (edgesFrom n edges).length ≤ 1) :
    Furnished g net (net₁.addEdges edges) ends' := by
  refine ⟨fun equipped => (furnished.equipped equipped).addEdges fun e member => ?_,
    fun n above below => ?_, fun n member => ?_⟩
  · rw [free e member]
    rfl
  · rw [addEdges_size] at below
    refine (furnished.fits n above below).of_same (fun m _ => (addEdges_kind _ _ m).1)
      (addEdges_kind _ _ n).2 ?_
    rw [addEdges_out _ _ below]
    rcases waiting n below with none' | ⟨open', empty, one⟩
    · rw [none', List.append_nil]
      exact .inl rfl
    · rw [empty]
      exact .inr ⟨furnished.passages n open', one⟩
  · rw [(addEdges_kind _ _ n).1]
    exact furnished.passages n (remain n member)

/-- Two basic states, of which the first has a transition. -/
theorem pair_furnished {t : Nat → Transition} {seg : Segment}
    (run : (pair rule t).run net = .ok (seg, net'))
    (fits : g.LabelFits net.actions.size (t (net.states.size + 1)).label) :
    Furnished g net net' [seg.right] := by
  let left : State := { number := net.states.size, rule := some rule, kind := .basic }
  let right : State := { number := (net.push left).states.size, rule := some rule, kind := .basic }
  have size : (net.push left).states.size = net.states.size + 1 := push_size net left
  have result : (pair rule t).run net = .ok (⟨net.states.size, (net.push left).states.size⟩,
      Decode.addEdge ((net.push left).push right) (net.states.size, t (net.push left).states.size)) := rfl
  rw [size] at result
  rw [result] at run
  cases run
  let both := (net.push left).push right
  have kindLeft : (both.state net.states.size).kind = .basic := by
    rw [push_state_of_ne _ _ (by omega), push_state_new]
  have kindRight : (both.state (net.states.size + 1)).kind = .basic := by
    rw [← size, push_state_new]
  have empty (n : Nat) : both.out n = net.out n := by rw [push_out _ rfl, push_out _ rfl]
  have kept (n : Nat) := (addEdges_kind both [(net.states.size, t (net.states.size + 1))] n).1
  have bothSize : both.states.size = net.states.size + 2 := by simp [both]
  refine ⟨fun equipped => ?_, fun n above below => ?_, fun n member => ?_⟩
  · have equippedBoth : both.Equipped g := (equipped.push rfl rfl).push rfl rfl
    have one : ∀ e ∈ [(net.states.size, t (net.states.size + 1))],
        g.LabelFits both.actions.size e.2.label := by
      intro e member
      obtain rfl := List.mem_singleton.1 member
      exact fits
    exact equippedBoth.addEdges one
  · have inside : n < both.states.size := Nat.lt_of_lt_of_eq below (addEdge_size both _)
    have one : ((both.addEdges [(net.states.size, t (net.states.size + 1))]).out n).length ≤ 1 := by
      rw [addEdges_out _ _ inside, empty, out_of_le above, List.nil_append]
      exact List.length_filterMap_le _ _
    refine .basic ((kept n).trans ?_) one
    obtain rfl | rfl : n = net.states.size ∨ n = net.states.size + 1 := by omega
    · exact kindLeft
    · exact kindRight
  · obtain rfl := List.mem_singleton.1 member
    have kind := (kept (net.states.size + 1)).trans kindRight
    exact (congrArg StateKind.isPassage kind).trans rfl

/-! ## Sequences -/

theorem length_edgesFrom (n : Nat) (edges : List (Nat × Transition)) :
    (edgesFrom n edges).length = (edges.map (·.1)).count n := by
  induction edges with
  | nil => rfl
  | cons e edges ih =>
    simp only [edgesFrom] at ih ⊢
    by_cases same : e.1 = n
    · simp [same, ih]
    · simp [same, ih]

theorem joinEdges_sublist (segs : List Segment) :
    ((joinEdges segs).map (·.1)).Sublist (segs.map (·.right)) := by
  fun_induction joinEdges segs with
  | case1 a b rest ih => simpa using ih.cons_cons a.right
  | case2 => exact List.nil_sublist _

theorem joinEdges_free {segs : List Segment} {e : Nat × Transition} (member : e ∈ joinEdges segs) :
    e.2.label = .epsilon none := by
  fun_induction joinEdges segs with
  | case1 a b rest ih =>
    rcases List.mem_cons.1 member with rfl | later
    · rfl
    · exact ih later
  | case2 => cases member

theorem joinAll_furnished {a : Segment} {rest : List Segment} {net₁ net₂ : Network}
    {P : Network → Prop} {u : Unit} (placed : PlacedAll rule net net₁ (a :: rest) P)
    (furnished : Furnished g net net₁ ((a :: rest).map (·.right)))
    (run : (joinAll (a :: rest)).run net₁ = .ok (u, net₂)) :
    Furnished g net net₂ [lastRight a rest] := by
  rw [joinAll_run] at run
  cases run
  refine furnished.addEdges (fun n member => ?_) (fun e => joinEdges_free) fun n _ => ?_
  · obtain ⟨last, among, isLast⟩ := lastRight_mem a rest
    rw [List.mem_singleton.1 member, ← isLast]
    exact List.mem_map_of_mem among
  · by_cases member : n ∈ (a :: rest).map (·.right)
    · refine .inr ⟨member, ?_, ?_⟩
      · obtain ⟨s, among, rfl⟩ := List.mem_map.1 member
        exact placed.ends s among
      · rw [length_edgesFrom]
        exact Nat.le_trans ((joinEdges_sublist _).count_le n) (List.nodup_iff_count_le_one.1 placed.apart n)
    · exact .inl (edgesFrom_join_of_not_mem member)

theorem char_lt (c : Char) : c.toNat < 1114112 := by
  rcases c.valid with low | ⟨-, high⟩
  · exact Nat.lt_of_lt_of_le low (by decide)
  · exact high

/-- The characters of a literal, behind a passage. -/
theorem chars_furnished {cs : List Char} {last right : Nat} {net₁ net₂ : Network}
    (furnished : Furnished g net net₁ [last]) (isLast : net₁.states.size = last + 1)
    (open' : net₁.out last = []) (run : (chars rule last cs).run net₁ = .ok (right, net₂)) :
    Furnished g net net₂ [right] := by
  induction cs generalizing last net₁ with
  | nil =>
    cases run
    exact furnished
  | cons c cs ih =>
    obtain ⟨seg, mid, atomRun, run⟩ := bind_ok.1 run
    rw [atom_eq, edge_eq] at atomRun
    have small := char_lt c
    have char := pair_furnished (g := g) atomRun (Grammar.labelFits_atom (by omega) (by omega))
    obtain ⟨rfl, grown, size, leaves, ends⟩ := pair_run atomRun
    obtain ⟨_, joined, joinRun, run⟩ := bind_ok.1 run
    have joinedIs : joined = mid.addEdges [(last, .epsilon net₁.states.size)] := by
      cases joinRun
      rfl
    have both := furnished.trans (by simp [isLast]) grown char
    have edgesAt (n : Nat) : edgesFrom n [(last, .epsilon net₁.states.size)] =
        if last = n then [.epsilon net₁.states.size] else [] := by
      by_cases same : last = n <;> simp [edgesFrom, same]
    have linked : Furnished g net joined [net₁.states.size + 1] := by
      rw [joinedIs]
      refine both.addEdges (by simp) (by simp [Transition.epsilon]) fun n _ => ?_
      rw [edgesAt]
      split
      · rename_i same
        refine .inr ⟨by simp [same], ?_, by simp⟩
        rw [← same, grown.old_out (by omega), open']
      · exact .inl rfl
    refine ih linked ?_ ?_ run
    · rw [joinedIs, addEdges_size, size]
    · rw [joinedIs, addEdges_out _ _ (by omega), ends, edgesAt, if_neg (by omega)]
      rfl

/-! ## Blocks and loops -/

/-- The states of a block; with several alternatives its start owns a decision. -/
def blockStates (rule : Nat) (kind : BlockKind) (several : Bool) (net : Network) : Network :=
  { (net.push { number := net.states.size, rule := some rule
                kind := .blockStart kind (some (net.states.size + 1))
                decision := if several then some net.decisions.size else none }).push
      { number := net.states.size + 1, rule := some rule, kind := .blockEnd (some net.states.size) } with
    decisions := if several then net.decisions.push net.states.size else net.decisions }

theorem block_eq (kind : BlockKind) (alts : List Segment) (net : Network) :
    (block rule kind alts).run net = .ok (⟨net.states.size, net.states.size + 1⟩,
      (blockStates rule kind (alts.length > 1) net).addEdges
        (sideEdges net.states.size (net.states.size + 1) alts)) := by
  let start : State :=
    { number := net.states.size, rule := some rule, kind := .blockStart kind none }
  let second : Network := if alts.length > 1 then ((net.push start).defineDecision net.states.size).2
    else net.push start
  let stop : State :=
    { number := second.states.size, rule := some rule, kind := .blockEnd (some net.states.size) }
  let third := (second.push stop).modifyState net.states.size
    ({ · with kind := .blockStart kind (some second.states.size) })
  have size : second.states.size = net.states.size + 1 := by
    simp only [second]
    split <;> simp
  have states : third = blockStates rule kind (alts.length > 1) net := by
    have inside : net.states.size < second.states.size := by omega
    have changed : third = (second.modifyState net.states.size
        ({ · with kind := .blockStart kind (some second.states.size) })).push stop :=
      push_modify_of_lt second stop inside _
    rw [changed]
    simp only [blockStates, ← size]
    by_cases several : alts.length > 1
    · have secondIs : second = { net.push { start with decision := some net.decisions.size } with
          decisions := net.decisions.push net.states.size } := by
        rw [← push_defineDecision]
        exact if_pos several
      have marked := push_modify net { start with decision := some net.decisions.size }
        ({ · with kind := .blockStart kind (some second.states.size) })
      simp only [several, decide_true, if_true]
      refine Eq.trans ?_ (congrArg (fun marked : Network =>
        { marked.push stop with decisions := net.decisions.push net.states.size }) marked)
      simp only [secondIs]
      rfl
    · have secondIs : second = net.push start := if_neg several
      have marked := push_modify net start
        ({ · with kind := .blockStart kind (some second.states.size) })
      simp only [several, decide_false, Bool.false_eq_true, if_false]
      refine Eq.trans ?_ (congrArg (fun marked : Network => marked.push stop) marked)
      simp only [secondIs]
  have sides := sides_run net.states.size second.states.size alts third
  have run : (block rule kind alts).run net = .ok (⟨net.states.size, second.states.size⟩,
      third.addEdges (sideEdges net.states.size second.states.size alts)) := by
    rw [block, bind_ok]
    refine ⟨net.states.size, net.push start, rfl, ?_⟩
    simp only [third, second, stop] at sides ⊢
    by_cases several : alts.length > 1
    · simp only [if_pos several] at sides ⊢
      exact bind_ok.2 ⟨(), _, rfl, bind_ok.2 ⟨_, _, rfl, bind_ok.2 ⟨(), _, rfl,
        bind_ok.2 ⟨(), _, sides, rfl⟩⟩⟩⟩
    · simp only [if_neg several] at sides ⊢
      exact bind_ok.2 ⟨_, _, rfl, bind_ok.2 ⟨(), _, rfl, bind_ok.2 ⟨(), _, sides, rfl⟩⟩⟩
  rw [run, size, states]

theorem blockStates_size (rule : Nat) (kind : BlockKind) (several : Bool) (net : Network) :
    (blockStates rule kind several net).states.size = net.states.size + 2 := by
  simp [blockStates, Network.push]

theorem blockStates_old (rule : Nat) (kind : BlockKind) (several : Bool) (net : Network) {n : Nat}
    (old : n < net.states.size) : (blockStates rule kind several net).state n = net.state n := by
  let start : State :=
    { number := net.states.size, rule := some rule, kind := .blockStart kind (some (net.states.size + 1))
      decision := if several then some net.decisions.size else none }
  change ((net.push start).push _).state n = net.state n
  rw [push_state_of_ne _ _ (by simp only [push_size]; omega), push_state_of_ne _ _ (by omega)]

theorem blockStates_start (rule : Nat) (kind : BlockKind) (several : Bool) (net : Network) :
    (blockStates rule kind several net).state net.states.size =
      { number := net.states.size, rule := some rule, kind := .blockStart kind (some (net.states.size + 1))
        decision := if several then some net.decisions.size else none } := by
  let start : State :=
    { number := net.states.size, rule := some rule, kind := .blockStart kind (some (net.states.size + 1))
      decision := if several then some net.decisions.size else none }
  change ((net.push start).push _).state net.states.size = start
  rw [push_state_of_ne _ _ (by simp only [push_size]; omega), push_state_new]

theorem blockStates_stop (rule : Nat) (kind : BlockKind) (several : Bool) (net : Network) :
    (blockStates rule kind several net).state (net.states.size + 1) =
      { number := net.states.size + 1, rule := some rule, kind := .blockEnd (some net.states.size) } := by
  let start : State :=
    { number := net.states.size, rule := some rule, kind := .blockStart kind (some (net.states.size + 1))
      decision := if several then some net.decisions.size else none }
  change ((net.push start).push _).state (net.states.size + 1) = _
  rw [← push_size net start, push_state_new]

/-- The kinds of the two states of a block. -/
theorem block_kinds {construct : BlockKind} {alts : List Segment} {seg : Segment}
    (run : (block rule construct alts).run net = .ok (seg, net')) :
    (net'.state net.states.size).kind = .blockStart construct (some (net.states.size + 1)) ∧
      (net'.state (net.states.size + 1)).kind = .blockEnd (some net.states.size) := by
  rw [block_eq] at run
  cases run
  rw [(addEdges_kind _ _ _).1, (addEdges_kind _ _ _).1, blockStates_start, blockStates_stop]
  exact ⟨rfl, rfl⟩

theorem equipped_blockStates (equipped : net.Equipped g) (kind : BlockKind) (several : Bool) :
    (blockStates rule kind several net).Equipped g := by
  cases several with
  | true => exact (equipped.pushDecided rfl rfl rfl).push rfl rfl
  | false => exact (equipped.push rfl rfl).push rfl rfl

theorem sideEdges_free {start stop : Nat} {alts : List Segment} {e : Nat × Transition}
    (member : e ∈ sideEdges start stop alts) : e.2.label = .epsilon none := by
  obtain ⟨a, -, side⟩ := List.mem_flatMap.1 member
  simp only [List.mem_cons, List.not_mem_nil, or_false] at side
  rcases side with rfl | rfl <;> rfl

theorem waysIn_free {segs : List Segment} {t : Transition} (member : t ∈ waysIn segs) :
    t.label = .epsilon none := by
  obtain ⟨s, -, rfl⟩ := List.mem_map.1 member
  rfl

/-- What a block furnishes: its two states, and its alternatives with a way to its end. -/
theorem block_furnished {construct : BlockKind} {segs : List Segment} {seg : Segment} {net₁ net₂ : Network}
    {P : Network → Prop} (placed : PlacedAll rule net net₁ segs P)
    (furnished : Furnished g net net₁ (segs.map (·.right)))
    (run : (block rule construct segs).run net₁ = .ok (seg, net₂)) :
    Furnished g net net₂ [seg.right] := by
  obtain ⟨-, -, -, enters, ends, led⟩ := block_run placed.grown placed.right run
  rw [block_eq] at run
  cases run
  let framed := blockStates rule construct (segs.length > 1) net₁
  let edges := sideEdges net₁.states.size (net₁.states.size + 1) segs
  have kind (n : Nat) : ((framed.addEdges edges).state n).kind = (framed.state n).kind :=
    (addEdges_kind framed edges n).1
  have decision (n : Nat) : ((framed.addEdges edges).state n).decision = (framed.state n).decision :=
    (addEdges_kind framed edges n).2
  have startIs := blockStates_start rule construct (segs.length > 1) net₁
  have stopIs := blockStates_stop rule construct (segs.length > 1) net₁
  refine ⟨fun equipped => ?_, fun n above below => ?_, fun n member => ?_⟩
  · refine (equipped_blockStates (furnished.equipped equipped) _ _).addEdges fun e member => ?_
    rw [sideEdges_free member]
    rfl
  · rw [addEdges_size, blockStates_size] at below
    rcases Nat.lt_or_ge n net₁.states.size with old | new
    · have same := blockStates_old rule construct (segs.length > 1) net₁ old
      refine (furnished.fits n above old).of_same (fun m valid => ?_) ((decision n).trans (by rw [same])) ?_
      · rw [kind, blockStates_old]
        by_contra outside
        exact valid (by rw [state_of_le (Nat.not_lt.1 outside)])
      · rw [led n old]
        by_cases member : n ∈ segs.map (·.right)
        · obtain ⟨s, among, rfl⟩ := List.mem_map.1 member
          rw [placed.ends s among]
          refine .inr ⟨furnished.passages _ member, ?_⟩
          simpa using List.nodup_iff_count_le_one.1 placed.apart s.right
        · rw [List.count_eq_zero_of_not_mem member]
          exact .inl (by simp)
    · obtain rfl | rfl : n = net₁.states.size ∨ n = net₁.states.size + 1 := by omega
      · refine .blockStart ((kind _).trans (by rw [startIs])) ((kind _).trans (by rw [stopIs])) ?_ ?_
        · rw [enters, decision, startIs]
          by_cases several : segs.length > 1
          · exact .inr (by simp [several])
          · exact .inl (by simpa [waysIn] using several)
        · rw [enters]
          exact fun t => waysIn_free
      · refine .blockEnd rfl ((kind _).trans (by rw [stopIs])) ((kind _).trans (by rw [startIs])) ?_
        rw [ends]
        exact Nat.zero_le 1
  · obtain rfl := List.mem_singleton.1 member
    have isEnd := (kind (net₁.states.size + 1)).trans (by rw [stopIs])
    exact (congrArg StateKind.isPassage isEnd).trans rfl

/-- What a loop furnishes around its block: new states, and a way on from the end of the block. -/
theorem loop_furnished {mid linked : Network} {edges : List (Nat × Transition)} {stop right : Nat}
    (furnished : Furnished g net mid [stop]) (empty : mid.out stop = [])
    (old : ∀ n < mid.states.size, linked.state n = mid.state n)
    (equipped : mid.Equipped g → linked.Equipped g) (free : ∀ e ∈ edges, e.2.label = .epsilon none)
    (sources : ∀ n < mid.states.size,
      edgesFrom n edges = [] ∨ n = stop ∧ (edgesFrom n edges).length ≤ 1)
    (new : ∀ n, mid.states.size ≤ n → n < linked.states.size → (linked.addEdges edges).Fits n)
    (passage : (linked.state right).kind.isPassage = true) :
    Furnished g net (linked.addEdges edges) [right] := by
  refine ⟨fun before => (equipped (furnished.equipped before)).addEdges fun e member => ?_,
    fun n above below => ?_, fun n member => ?_⟩
  · rw [free e member]
    rfl
  · rw [addEdges_size] at below
    rcases Nat.lt_or_ge n mid.states.size with early | late
    · refine (furnished.fits n above early).of_same (fun m valid => ?_) ?_ ?_
      · rw [(addEdges_kind _ _ m).1, old]
        by_contra outside
        exact valid (by rw [state_of_le (Nat.not_lt.1 outside)])
      · rw [(addEdges_kind _ _ n).2, old n early]
      · have before : linked.out n = mid.out n := by rw [Network.out, old n early, Network.out]
        rw [addEdges_out _ _ below, before]
        rcases sources n early with none' | ⟨rfl, one⟩
        · rw [none', List.append_nil]
          exact .inl rfl
        · rw [empty, List.nil_append]
          exact .inr ⟨furnished.passages n (by simp), one⟩
    · exact new n late below
  · rw [List.mem_singleton.1 member, (addEdges_kind _ _ right).1]
    exact passage

theorem inOrder_free {greedy : Bool} {a b : Nat} {t : Transition}
    (member : t ∈ inOrder greedy [.epsilon a] [.epsilon b]) : t.label = .epsilon none := by
  have : t = .epsilon a ∨ t = .epsilon b := by cases greedy <;> simpa [inOrder, or_comm] using member
  rcases this with rfl | rfl <;> rfl

theorem inOrder_length (greedy : Bool) (a b : Nat) :
    (inOrder greedy [Transition.epsilon a] [.epsilon b]).length = 2 := by
  cases greedy <;> rfl

theorem plusLoop_furnished {greedy : Bool} {segs : List Segment} {seg : Segment} {net₁ net₂ : Network}
    {P : Network → Prop} (placed : PlacedAll rule net net₁ segs P)
    (furnished : Furnished g net net₁ (segs.map (·.right)))
    (run : (plusLoop rule greedy segs).run net₁ = .ok (seg, net₂)) :
    Furnished g net net₂ [seg.right] := by
  obtain ⟨b, mid, blockRun, run⟩ := bind_ok.1 run
  have block := block_furnished placed furnished blockRun
  obtain ⟨rfl, -, size, -, ends, -⟩ := block_run placed.grown placed.right blockRun
  let made : State := { number := mid.states.size, rule := some rule, kind := .plusLoopBack }
  let back : State := { made with decision := some mid.decisions.size, nonGreedy := !greedy }
  let backed : Network := { mid.push back with decisions := mid.decisions.push mid.states.size }
  let stop : State := { number := backed.states.size, rule := some rule
                        kind := .loopEnd (some mid.states.size) }
  let linked := backed.push stop
  let edges := (net₁.states.size + 1, .epsilon mid.states.size) ::
    (inOrder greedy [.epsilon net₁.states.size] [.epsilon backed.states.size]).map
      (fun t => (mid.states.size, t))
  have backedSize : backed.states.size = mid.states.size + 1 := push_size mid back
  have result : (Except.ok (⟨net₁.states.size, backed.states.size⟩, linked.addEdges edges) :
      Except BuildError (Segment × Network)) = .ok (seg, net₂) := by
    have marked := push_decided mid made greedy
    have whole : (Except.ok (⟨net₁.states.size, backed.states.size⟩, linked.addEdges edges) :
        Except BuildError (Segment × Network)) = (do
          join (net₁.states.size + 1) mid.states.size
          choice mid.states.size net₁.states.size backed.states.size greedy
          return ⟨net₁.states.size, backed.states.size⟩ : Layout Segment).run linked := by
      cases greedy <;> rfl
    rw [whole, ← run]
    simp only [linked, stop]
    rw [show backed = _ from marked.symm]
    rfl
  cases result
  have linkedSize : linked.states.size = mid.states.size + 2 := by
    rw [push_size, backedSize]
  have backIs : linked.state mid.states.size = back := by
    rw [push_state_of_ne _ _ (by omega)]
    exact push_state_new mid back
  have stopIs : linked.state (mid.states.size + 1) = stop := by
    rw [← backedSize]
    exact push_state_new backed stop
  have old (n : Nat) (early : n < mid.states.size) : linked.state n = mid.state n := by
    rw [push_state_of_ne _ _ (by omega)]
    exact push_state_of_ne mid back (by omega)
  have edgesAt (n : Nat) : edgesFrom n edges =
      if net₁.states.size + 1 = n then [.epsilon (net₁.states.size + 2)] else
      if net₁.states.size + 2 = n then inOrder greedy [.epsilon net₁.states.size]
        [.epsilon (net₁.states.size + 3)] else [] := by
    simp only [edges, edgesFrom_map, edgesFrom_cons, size, backedSize]
    by_cases isStop : net₁.states.size + 1 = n
    · simp [isStop, show net₁.states.size + 2 ≠ n by omega]
    · simp [isStop]
  refine loop_furnished block ends old (fun before => ?_) ?_ ?_ ?_ ?_
  · exact (before.pushDecided rfl rfl rfl).push rfl rfl
  · intro e member
    simp only [edges, List.mem_cons, List.mem_map] at member
    rcases member with rfl | ⟨t, here, rfl⟩
    · rfl
    · exact inOrder_free here
  · intro n early
    rw [edgesAt]
    by_cases isStop : net₁.states.size + 1 = n
    · exact .inr ⟨isStop.symm, by simp [isStop]⟩
    · exact .inl (by rw [if_neg isStop, if_neg (by omega)])
  · intro n late below
    have kind := (addEdges_kind linked edges n).1
    have decision := (addEdges_kind linked edges n).2
    obtain rfl | rfl : n = mid.states.size ∨ n = mid.states.size + 1 := by omega
    · refine .plusLoopBack (kind.trans (by rw [backIs])) (by rw [decision, backIs]; rfl) fun t member => ?_
      rw [Network.addEdges_out _ _ below, Network.out, backIs, edgesAt, if_neg (by omega),
        if_pos (by omega)] at member
      exact inOrder_free ((List.mem_append.1 member).resolve_left List.not_mem_nil)
    · refine .loopEnd rfl (kind.trans (by rw [stopIs])) ?_
      rw [Network.addEdges_out _ _ below, Network.out, stopIs, edgesAt, if_neg (by omega),
        if_neg (by omega)]
      exact Nat.zero_le 1
  · rw [backedSize, stopIs]
    rfl

theorem starLoop_furnished {greedy : Bool} {segs : List Segment} {seg : Segment} {net₁ net₂ : Network}
    {P : Network → Prop} (placed : PlacedAll rule net net₁ segs P)
    (furnished : Furnished g net net₁ (segs.map (·.right)))
    (run : (starLoop rule greedy segs).run net₁ = .ok (seg, net₂)) :
    Furnished g net net₂ [seg.right] := by
  obtain ⟨b, mid, blockRun, run⟩ := bind_ok.1 run
  have block := block_furnished placed furnished blockRun
  obtain ⟨rfl, -, size, -, ends, -⟩ := block_run placed.grown placed.right blockRun
  let made : State := { number := mid.states.size, rule := some rule, kind := .starLoopEntry none false }
  let decided : State := { made with decision := some mid.decisions.size, nonGreedy := !greedy }
  let entered : Network := { mid.push decided with decisions := mid.decisions.push mid.states.size }
  let back : State := { number := entered.states.size, rule := some rule, kind := .starLoopBack }
  let backed := entered.push back
  let stop : State := { number := backed.states.size, rule := some rule
                        kind := .loopEnd (some entered.states.size) }
  let linked := (backed.push stop).modifyState mid.states.size
    ({ · with kind := .starLoopEntry (some entered.states.size) false })
  let edges := (inOrder greedy [.epsilon net₁.states.size] [.epsilon backed.states.size]).map
      (fun t => (mid.states.size, t)) ++
    [(net₁.states.size + 1, .epsilon entered.states.size),
      (entered.states.size, .epsilon mid.states.size)]
  have enteredSize : entered.states.size = mid.states.size + 1 := push_size mid decided
  have backedSize : backed.states.size = mid.states.size + 2 := by
    rw [push_size, enteredSize]
  have result : (Except.ok (⟨mid.states.size, backed.states.size⟩, linked.addEdges edges) :
      Except BuildError (Segment × Network)) = .ok (seg, net₂) := by
    have marked := push_decided mid made greedy
    have whole : (Except.ok (⟨mid.states.size, backed.states.size⟩, linked.addEdges edges) :
        Except BuildError (Segment × Network)) = (do
          choice mid.states.size net₁.states.size backed.states.size greedy
          join (net₁.states.size + 1) entered.states.size
          join entered.states.size mid.states.size
          return ⟨mid.states.size, backed.states.size⟩ : Layout Segment).run linked := by
      cases greedy <;> rfl
    rw [whole, ← run]
    simp only [linked, stop, backed, back]
    rw [show entered = _ from marked.symm]
    rfl
  cases result
  have linkedSize : linked.states.size = mid.states.size + 3 := by
    rw [modifyState_size, push_size, backedSize]
  have entryIs : linked.state mid.states.size =
      { decided with kind := .starLoopEntry (some (mid.states.size + 1)) false } := by
    simp only [linked]
    rw [modifyState_state_same _ _ (by rw [push_size]; omega), push_state_of_ne _ _ (by omega),
      push_state_of_ne _ _ (by omega), enteredSize]
    exact congrArg (fun s : State => { s with kind := .starLoopEntry (some (mid.states.size + 1)) false })
      (push_state_new mid decided)
  have backIs : linked.state (mid.states.size + 1) = back := by
    rw [modifyState_state_of_ne _ _ (by omega), push_state_of_ne _ _ (by omega), ← enteredSize]
    exact push_state_new entered back
  have stopIs : linked.state (mid.states.size + 2) = stop := by
    rw [modifyState_state_of_ne _ _ (by omega), ← backedSize]
    exact push_state_new backed stop
  have old (n : Nat) (early : n < mid.states.size) : linked.state n = mid.state n := by
    rw [modifyState_state_of_ne _ _ (by omega), push_state_of_ne _ _ (by omega),
      push_state_of_ne _ _ (by omega)]
    exact push_state_of_ne mid decided (by omega)
  have edgesAt (n : Nat) : edgesFrom n edges =
      (if net₁.states.size + 2 = n then inOrder greedy [.epsilon net₁.states.size]
        [.epsilon (net₁.states.size + 4)] else []) ++
      if net₁.states.size + 1 = n then [.epsilon (net₁.states.size + 3)] else
      if net₁.states.size + 3 = n then [.epsilon (net₁.states.size + 2)] else [] := by
    simp only [edges, edgesFrom_append, edgesFrom_map, edgesFrom_cons, size, enteredSize, backedSize]
    by_cases isStop : net₁.states.size + 1 = n
    · simp [isStop, show net₁.states.size + 3 ≠ n by omega, edgesFrom]
    · simp [isStop, edgesFrom]
  refine loop_furnished block ends old (fun before => ?_) ?_ ?_ ?_ ?_
  · have pushed := ((before.pushDecided (s := decided) rfl rfl rfl).push (s := back) rfl rfl).push
      (s := stop) rfl rfl
    exact pushed.modify _ _ (fun _ => rfl) (fun _ _ => rfl) fun _ _ member => .inl member
  · intro e member
    simp only [edges, List.mem_append, List.mem_cons, List.mem_map, List.not_mem_nil, or_false] at member
    rcases member with ⟨t, here, rfl⟩ | rfl | rfl
    · exact inOrder_free here
    · rfl
    · rfl
  · intro n early
    rw [edgesAt, if_neg (by omega), List.nil_append]
    by_cases isStop : net₁.states.size + 1 = n
    · exact .inr ⟨isStop.symm, by simp [isStop]⟩
    · exact .inl (by rw [if_neg isStop, if_neg (by omega)])
  · intro n late below
    have kind (m : Nat) := (addEdges_kind linked edges m).1
    have decision (m : Nat) := (addEdges_kind linked edges m).2
    obtain rfl | rfl | rfl : n = mid.states.size ∨ n = mid.states.size + 1 ∨ n = mid.states.size + 2 := by
      omega
    · refine .starLoopEntry ((kind _).trans (by rw [entryIs])) ((kind _).trans (by rw [backIs])) ?_
        (by rw [decision, entryIs]; rfl)
      rw [Network.addEdges_out _ _ below, Network.out, entryIs, edgesAt, if_pos size.symm,
        if_neg (by omega), if_neg (by omega), List.append_nil]
      exact inOrder_length _ _ _
    · have enters := (kind mid.states.size).trans (by rw [entryIs])
      refine .starLoopBack rfl ((kind _).trans (by rw [backIs])) ?_ enters
      rw [Network.addEdges_out _ _ below, Network.out, backIs, edgesAt, if_neg (by omega),
        if_neg (by omega), if_pos (by omega), size]
      rfl
    · refine .loopEnd rfl ((kind _).trans (by rw [stopIs]; simp only [stop, enteredSize])) ?_
      rw [Network.addEdges_out _ _ below, Network.out, stopIs, edgesAt, if_neg (by omega),
        if_neg (by omega), if_neg (by omega)]
      exact Nat.zero_le 1
  · rw [backedSize, stopIs]
    rfl

theorem optionalBlock_furnished {greedy : Bool} {segs : List Segment} {seg : Segment}
    {net₁ net₂ : Network} {P : Network → Prop} (placed : PlacedAll rule net net₁ segs P)
    (furnished : Furnished g net net₁ (segs.map (·.right)))
    (run : (optionalBlock rule greedy segs).run net₁ = .ok (seg, net₂)) :
    Furnished g net net₂ [seg.right] := by
  obtain ⟨b, mid, blockRun, run⟩ := bind_ok.1 run
  have block := block_furnished placed furnished blockRun
  obtain ⟨rfl, -, size, -, ends, -⟩ := block_run placed.grown placed.right blockRun
  let start := net₁.states.size
  let decided : Network := if (mid.state start).decision.isNone then (mid.defineDecision start).2 else mid
  let addExit (s : State) : State :=
    if greedy then s.addTransition (.epsilon (start + 1)) else s.insertTransition 0 (.epsilon (start + 1))
  let marked := decided.modifyState start ({ · with nonGreedy := !greedy })
  have result : (Except.ok (⟨start, start + 1⟩, marked.modifyState start addExit) :
      Except BuildError (Segment × Network)) = .ok (seg, net₂) := by
    rw [← run]
    symm
    rw [bind_ok]
    refine ⟨mid, mid, rfl, ?_⟩
    by_cases undecided : (mid.state net₁.states.size).decision.isNone
    · simp only [marked, decided, start, if_pos undecided]
      rfl
    · simp only [marked, decided, start, if_neg undecided]
      rfl
  cases result
  obtain ⟨startKind, stopKind⟩ := block_kinds blockRun
  have bound : start < mid.states.size := by omega
  have decidedSize : decided.states.size = mid.states.size := by
    simp only [decided]
    split <;> simp
  have decidedOther (n : Nat) (other : n ≠ start) : decided.state n = mid.state n := by
    simp only [decided]
    split
    · exact modifyState_state_of_ne mid _ other
    · rfl
  have decidedStart : (decided.state start).kind = (mid.state start).kind ∧
      (decided.state start).decision.isSome = true := by
    simp only [decided]
    split
    · rw [show (mid.defineDecision start).2.state start = _ from modifyState_state_same mid _ bound]
      exact ⟨rfl, rfl⟩
    · rename_i isDecided
      exact ⟨rfl, Option.isSome_iff_ne_none.2 (by simpa using isDecided)⟩
  have other (n : Nat) (apart : n ≠ start) : (marked.modifyState start addExit).state n = mid.state n := by
    rw [modifyState_state_of_ne _ _ apart, modifyState_state_of_ne _ _ apart, decidedOther n apart]
  have exitKind (s : State) : (addExit s).kind = s.kind ∧ (addExit s).decision = s.decision := by
    simp only [addExit]
    split <;> exact ⟨rfl, rfl⟩
  have same : ((marked.modifyState start addExit).state start).kind = (mid.state start).kind ∧
      ((marked.modifyState start addExit).state start).decision.isSome = true := by
    have inside : start < decided.states.size := by omega
    rw [modifyState_state_same _ _ (by rwa [modifyState_size]), (exitKind _).1, (exitKind _).2,
      modifyState_state_same _ _ inside]
    exact decidedStart
  have kind (n : Nat) : ((marked.modifyState start addExit).state n).kind = (mid.state n).kind := by
    by_cases here : n = start
    · rw [here, same.1]
    · rw [other n here]
  have isAdded {s : State} {t : Transition} (member : t ∈ (addExit s).transitions) :
      t ∈ s.transitions ∨ t = .epsilon (start + 1) := by
    simp only [addExit] at member
    cases greedy
    · simpa [State.insertTransition, or_comm] using member
    · simpa [State.addTransition] using member
  have leaves : ∀ t ∈ (marked.modifyState start addExit).out start, t.label = .epsilon none := by
    intro t member
    have inside : start < decided.states.size := by omega
    rw [Network.out, modifyState_state_same _ _ (by rwa [modifyState_size])] at member
    rcases isAdded member with old | rfl
    · rw [modifyState_state_same _ _ inside] at old
      have decidedOut : decided.out start = mid.out start := by
        simp only [decided]
        split
        · exact mid.defineDecision_out start start
        · rfl
      have old : t ∈ mid.out start := decidedOut ▸ old
      cases block.fits start placed.grown.size bound with
      | blockStart _ _ _ free => exact free t old
      | ruleStart kindIs | ruleStop kindIs | tokenStart kindIs | basic kindIs | blockEnd _ kindIs
      | starLoopEntry kindIs | starLoopBack _ kindIs | plusLoopBack kindIs | loopEnd _ kindIs =>
        cases startKind.symm.trans kindIs
    · rfl
  refine ⟨fun before => ?_, fun n above below => ?_, fun n member => ?_⟩
  · have equippedDecided : decided.Equipped g := by
      simp only [decided]
      split
      · rename_i undecided
        exact (block.equipped before).defineDecision bound (by simpa using undecided)
          (by rw [startKind]; rfl)
      · exact block.equipped before
    have equippedMarked : marked.Equipped g := equippedDecided.modify start ({ · with nonGreedy := !greedy })
      (fun _ => rfl) (fun _ isDecision => isDecision) fun _ _ member => .inl member
    refine equippedMarked.modify start addExit (fun s => (exitKind s).2)
      (fun s isDecision => by rw [(exitKind s).1]; exact isDecision) fun s t member => ?_
    exact (isAdded member).imp_right fun isExit => by rw [isExit]; rfl
  · rw [modifyState_size, modifyState_size, decidedSize] at below
    by_cases here : n = start
    · subst here
      exact .blockStart ((kind _).trans startKind) ((kind _).trans stopKind) (.inr same.2) leaves
    · refine (block.fits n above below).of_same (fun m _ => kind m) (by rw [other n here]) (.inl ?_)
      rw [Network.out, other n here, Network.out]
  · rw [List.mem_singleton.1 member, kind]
    exact block.passages (start + 1) (List.mem_singleton.2 rfl)

theorem repetition_furnished {q : Quantifier} {greedy : Bool} {segs : List Segment} {seg : Segment}
    {net₁ net₂ : Network} {P : Network → Prop} (placed : PlacedAll rule net net₁ segs P)
    (furnished : Furnished g net net₁ (segs.map (·.right)))
    (run : (repetition rule q greedy segs).run net₁ = .ok (seg, net₂)) :
    Furnished g net net₂ [seg.right] := by
  cases q with
  | optional => exact optionalBlock_furnished placed furnished run
  | star => exact starLoop_furnished placed furnished run
  | plus => exact plusLoop_furnished placed furnished run

/-! ## Leaves -/

/-- A rule of a grammar with small numbers of rules and tokens. -/
structure SmallRule (g : Grammar) (rule : Nat) : Prop where
  known : rule < g.rules.length
  few : g.rules.length ≤ 65535
  types : g.isLexer = false → ∀ name type, g.vocabulary.tokenType name = some type → type < 2147483648

section

variable {seg : Segment}

theorem edge_furnished {label : Label} (run : (edge rule label).run net = .ok (seg, net'))
    (fits : g.LabelFits net.actions.size label) : Furnished g net net' [seg.right] := by
  rw [edge_eq] at run
  exact pair_furnished run fits

/-- An action of a lexer gets its place in the table before its edge. -/
theorem lexerAction_furnished {a : LexerAction} (known : rule < g.rules.length)
    (lexer : g.isLexer = true)
    (custom : g.SmallActions → ∀ rule index, a = .custom rule index → rule < 2147483648 ∧ index < 2147483648)
    (run : (lexerAction rule a).run net = .ok (seg, net')) : Furnished g net net' [seg.right] := by
  obtain ⟨_, _, found, run⟩ := bind_ok.1 run
  cases found
  cases place : net.actions.findIdx? (· == a) with
  | some i =>
    simp only [place] at run
    refine edge_furnished run ⟨known, i, rfl, ?_⟩
    rw [if_pos lexer]
    exact (Array.findIdx?_eq_some_iff_getElem.1 place).1
  | none =>
    simp only [place] at run
    let listed : Network := { net with actions := net.actions.push a }
    have fits : g.LabelFits listed.actions.size (.action rule (some net.actions.size) false) :=
      ⟨known, net.actions.size, rfl, by simp [listed, lexer]⟩
    have edge : Furnished g listed net' [seg.right] := edge_furnished run fits
    refine ⟨fun equipped => edge.equipped ⟨equipped.decides, equipped.decision, fun n t member => ?_,
      fun b member => ?_⟩, edge.fits, edge.passages⟩
    · exact (equipped.labels n t member).mono (by simp [listed])
    · rcases List.mem_append.1 (by rwa [Array.toList_push] at member) with old | new
      · exact equipped.actions b old
      · obtain rfl := List.mem_singleton.1 new
        exact ⟨lexer, custom⟩

/-- A token of a parser. -/
theorem tokenType_furnished {name : String} (small : SmallRule g rule) (parser : g.isLexer = false)
    (run : (do atom rule (← tokenType g rule name) : Layout Segment).run net = .ok (seg, net')) :
    Furnished g net net' [seg.right] := by
  obtain ⟨type, _, typeRun, atomRun⟩ := bind_ok.1 run
  obtain ⟨isType, rfl⟩ := tokenType_ok typeRun
  have below := small.types parser name type isType
  exact edge_furnished atomRun (Grammar.labelFits_atom (by omega) (by omega))

/-- The characters of a literal, behind a new state. -/
theorem literal_furnished {text : List Char}
    (run : (do
      let left ← addState rule .basic
      return ⟨left, ← chars rule left text⟩ : Layout Segment).run net = .ok (seg, net')) :
    Furnished g net net' [seg.right] := by
  obtain ⟨left, first, stateRun, afterState⟩ := bind_ok.1 run
  obtain ⟨right, _, charsRun, returned⟩ := bind_ok.1 afterState
  cases stateRun
  cases returned
  let new : State := { number := net.states.size, rule := some rule, kind := .basic }
  have kind : ((net.push new).state net.states.size).kind = .basic := by rw [push_state_new]
  have empty : (net.push new).out net.states.size = [] := by
    rw [push_out _ rfl, out_of_le (Nat.le_refl _)]
  have furnished : Furnished g net (net.push new) [net.states.size] := by
    refine ⟨fun equipped => equipped.push rfl rfl, fun n above below => ?_, fun n member => ?_⟩
    · obtain rfl : n = net.states.size := by
        rw [push_size] at below
        omega
      exact .basic kind (by rw [empty]; exact Nat.zero_le 1)
    · rw [List.mem_singleton.1 member, kind]
      rfl
  exact chars_furnished furnished (push_size net new) empty charsRun

theorem leaf_furnished {e : Element} (small : SmallRule g rule) (admitted : g.Admits e)
    (run : (leaf g rule e).run net = .ok (seg, net')) : Furnished g net net' [seg.right] := by
  cases e with
  | symbol v => exact edge_furnished run (Grammar.labelFits_atom admitted.1.1 admitted.1.2)
  | token name =>
    rw [leaf] at run
    cases lexer : g.isLexer with
    | true => simp only [lexer, if_true] at run; cases run
    | false =>
      simp only [lexer, Bool.false_eq_true, if_false] at run
      exact tokenType_furnished small lexer run
  | literal text =>
    rw [leaf] at run
    cases lexer : g.isLexer with
    | true =>
      simp only [lexer, if_true] at run
      exact literal_furnished run
    | false =>
      simp only [lexer, Bool.false_eq_true, if_false] at run
      exact tokenType_furnished small lexer run
  | range lo hi =>
    rw [leaf, range_eq] at run
    by_cases reversed : hi < lo
    · simp only [reversed, if_true] at run; cases run
    · simp only [reversed, if_false] at run
      exact edge_furnished run (Grammar.labelFits_range admitted.1.1 admitted.1.2)
  | set s => exact edge_furnished run admitted.1
  | notSet s => exact edge_furnished run admitted.1
  | wildcard => exact edge_furnished run trivial
  | eof => exact edge_furnished run (Grammar.labelFits_atom (by decide) (by decide))
  | rule name precedence =>
    obtain ⟨callee, _, indexRun, run⟩ := bind_ok.1 run
    cases found : g.ruleIndex name with
    | error e => rw [found] at indexRun; cases indexRun
    | ok found' =>
      rw [found] at indexRun
      cases indexRun
      have pairRun : (pair rule fun right =>
          ⟨net.ruleStart callee, .rule callee precedence right⟩).run net = .ok (seg, net') := run
      exact pair_furnished pairRun trivial
  | predicate pred ctx =>
    exact edge_furnished run ⟨small.known, admitted.1, fun unguarded => Bool.noConfusion (admitted.2.2 unguarded)⟩
  | precedence p =>
    rw [leaf] at run
    cases lexer : g.isLexer with
    | true => simp only [lexer, if_true] at run; cases run
    | false =>
      simp only [lexer, Bool.false_eq_true, if_false] at run
      exact edge_furnished run ⟨lexer, fun unguarded => Bool.noConfusion (admitted.2.2 unguarded)⟩
  | action i =>
    rw [leaf] at run
    cases lexer : g.isLexer with
    | true =>
      simp only [lexer, if_true] at run
      refine lexerAction_furnished small.known lexer (fun custom owner index same => ?_) run
      cases same
      have known := small.known
      have few := small.few
      exact ⟨by omega, admitted.2.1 custom lexer⟩
    | false =>
      simp only [lexer, Bool.false_eq_true, if_false] at run
      refine edge_furnished run ⟨small.known, i, rfl, ?_⟩
      rw [if_neg (by simp [lexer])]
      exact admitted.1
  | command a =>
    rw [leaf] at run
    cases lexer : g.isLexer with
    | true =>
      simp only [lexer, Bool.not_true, Bool.false_eq_true, if_false] at run
      exact lexerAction_furnished small.known lexer admitted.2.1 run
    | false => simp only [lexer, Bool.not_false, if_true] at run; cases run
  | seq es => exact edge_furnished run rfl
  | alt es => exact edge_furnished run rfl
  | repeated q greedy body => exact edge_furnished run rfl

/-! ## All elements -/

theorem Furnished.cons {segs : List Segment} {net₁ net₂ : Network} {P Q : Network → Prop}
    (first : Furnished g net net₁ [seg.right]) (placed : Placed rule net net₁ seg P)
    (rest : Furnished g net₁ net₂ (segs.map (·.right))) (placedRest : PlacedAll rule net₁ net₂ segs Q) :
    Furnished g net net₂ ((seg :: segs).map (·.right)) := by
  refine first.trans (fun n member => ?_) placedRest.grown rest
  rw [List.mem_singleton.1 member]
  exact placed.right.2

mutual

/-- Laying out an element furnishes its states. -/
theorem element_furnished (small : SmallRule g rule) (e : Element) {net net' : Network} {seg : Segment}
    (admitted : ∀ leaf ∈ e.leaves, g.Admits leaf)
    (run : (element g rule e).run net = .ok (seg, net')) : Furnished g net net' [seg.right] := by
  match e with
  | .seq es =>
    obtain ⟨segs, mid, partsRun, joinRun⟩ := bind_ok.1 run
    have placed := elements_placed g rule es partsRun
    have parts := elements_furnished small es admitted partsRun
    cases segs with
    | nil =>
      obtain ⟨rfl, rfl⟩ := elements_nil partsRun
      exact edge_furnished joinRun rfl
    | cons first rest =>
      obtain ⟨_, joined, joinedRun, returned⟩ := bind_ok.1 joinRun
      have whole := joinAll_furnished placed parts joinedRun
      cases returned
      rwa [getLast?_right]
  | .alt es =>
    rw [element] at run
    by_cases none : es.isEmpty
    · simp only [none, if_true] at run
      cases run
    · simp only [none, Bool.false_eq_true, if_false] at run
      obtain ⟨segs, mid, partsRun, blockRun⟩ := bind_ok.1 run
      have placed := elements_placed g rule es partsRun
      have parts := elements_furnished small es admitted partsRun
      match segs with
      | [] => exact block_furnished placed parts blockRun
      | [only] =>
        cases blockRun
        exact parts
      | a :: b :: rest => exact block_furnished placed parts blockRun
  | .repeated q greedy body =>
    obtain ⟨segs, mid, partsRun, aroundRun⟩ := element_repeated run
    have placed := elements_placed g rule body.branches partsRun
    have parts := elements_furnished small body.branches
      (by rw [Element.leaves_branches]; exact admitted) partsRun
    exact repetition_furnished placed parts aroundRun
  | .symbol _ | .token _ | .literal _ | .range _ _ | .set _ | .notSet _ | .wildcard | .eof | .rule _ _
  | .predicate _ _ | .precedence _ | .action _ | .command _ =>
    rw [element] at run
    exact leaf_furnished small (admitted _ (by simp [Element.leaves])) run
    all_goals simp
termination_by sizeOf e
decreasing_by
  · simp
  · simp
  · exact sizeOf_branches q greedy body

theorem elements_furnished (small : SmallRule g rule) (es : List Element) {net net' : Network} {segs : List Segment}
    (admitted : ∀ leaf ∈ Element.leavesAll es, g.Admits leaf)
    (run : (elements g rule es).run net = .ok (segs, net')) :
    Furnished g net net' (segs.map (·.right)) := by
  match es with
  | [] =>
    cases run
    exact furnished_refl g net
  | e :: rest =>
    rw [elements, bind_ok] at run
    obtain ⟨s, mid, firstRun, restRun⟩ := run
    obtain ⟨ss, last, restRun, returned⟩ := bind_ok.1 restRun
    cases returned
    have first := element_furnished small e
      (fun leaf member => admitted leaf (List.mem_append_left _ member)) firstRun
    have later := elements_furnished small rest
      (fun leaf member => admitted leaf (List.mem_append_right _ member)) restRun
    exact first.cons (element_placed g rule e firstRun) later (elements_placed g rule rest restRun)
termination_by sizeOf es
decreasing_by
  all_goals simp
  all_goals omega

end

end

end Layout

end AdaptiveLL
