import AdaptiveLL.Proofs.Grammar.Kinds

/-!
# Loops behind a text

A token is often a text, then a loop, then whatever ends it. The words of a network say of each decision
whether it prefers to stop early, so a lexer that is to stop at the first end relies on the layout having
marked the loop. Where the loop lies follows from the length of the text (`Grammar.layOut_enters`).
-/

set_option autoImplicit false

namespace AdaptiveLL

namespace Network

variable {net : Network} {g : Grammar} {rule : Nat}

theorem Spelled.right_eq {cs : List Char} {left right : Nat} (spelled : net.Spelled cs left right) :
    right = left + 2 * cs.length := by
  induction spelled with
  | nil n => rfl
  | cons joined edge later ih =>
    rw [ih, List.length_cons]
    omega

/-- The text of a lexer takes two states for each character, and one more. -/
theorem Laid.text {text : String} {seg : Segment} {lo hi : Nat} (lexer : g.isLexer = true)
    (laid : net.Laid g rule (.literal text) seg lo hi) :
    seg = ⟨lo, lo + 2 * text.toList.length⟩ ∧ hi = lo + 2 * text.toList.length + 1 ∧
      net.Spelled text.toList lo (lo + 2 * text.toList.length) := by
  cases laid with
  | leaf labelled edge =>
    cases labelled with
    | literal parser known => rw [lexer] at parser; cases parser
  | literal _ spelled =>
    obtain rfl := spelled.right_eq
    exact ⟨rfl, rfl, spelled⟩

/-- The state is a decision that is marked as greedy or not. -/
structure Prefers (net : Network) (n : Nat) (greedy : Bool) : Prop where
  decides : (net.state n).kind.isDecision = true
  marked : (net.state n).nonGreedy = !greedy

theorem Prefers.of_same {net' : Network} {n : Nat} {greedy : Bool} (prefers : net.Prefers n greedy)
    (kind : (net'.state n).kind = (net.state n).kind)
    (nonGreedy : (net'.state n).nonGreedy = (net.state n).nonGreedy) : net'.Prefers n greedy :=
  ⟨kind ▸ prefers.decides, nonGreedy.trans prefers.marked⟩

theorem Prefers.addEdges {n : Nat} {greedy : Bool} (prefers : net.Prefers n greedy)
    (edges : List (Nat × Transition)) : (net.addEdges edges).Prefers n greedy :=
  prefers.of_same (Layout.addEdges_kind net edges n).1 (Layout.addEdges_nonGreedy net edges n)

end Network

namespace Layout

open Network

variable {g : Grammar} {rule : Nat} {net net' : Network} {seg : Segment}

/-! ## One rule -/

theorem star_prefers {greedy : Bool} {body : Element}
    (run : (element g rule (.repeated .star greedy body)).run net = .ok (seg, net')) :
    net'.Prefers seg.left greedy ∧ seg.left < net'.states.size := by
  obtain ⟨segs, between, -, around⟩ := element_repeated run
  obtain ⟨m, rfl, size, looped, marked⟩ := starLoop_looped around
  exact ⟨⟨by rw [looped.entry]; rfl, marked⟩, by simp only []; omega⟩

/-- In a sequence the text leads to the entry of the loop behind it. -/
theorem seq_enters {text : String} {greedy : Bool} {body : Element} {rest : List Element}
    (lexer : g.isLexer = true)
    (run : (element g rule (.seq (.literal text :: .repeated .star greedy body :: rest))).run net =
      .ok (seg, net')) :
    seg.left = net.states.size ∧ ∃ n, net'.out (net.states.size + 2 * text.toList.length) = [.epsilon n] ∧
      net'.Prefers n greedy := by
  rw [element] at run
  obtain ⟨segs, parted, partsRun, run⟩ := bind_ok.1 run
  have parts := elements_placed g rule _ partsRun
  obtain ⟨textSeg, mid, textRun, partsRun⟩ := bind_ok.1 partsRun
  obtain ⟨later, last, laterRun, returned⟩ := bind_ok.1 partsRun
  obtain ⟨loopSeg, ended, loopRun, laterRun⟩ := bind_ok.1 laterRun
  obtain ⟨others, final, restRun, returned'⟩ := bind_ok.1 laterRun
  cases returned'
  cases returned
  obtain ⟨_, joined, joinRun, returned⟩ := bind_ok.1 run
  have placed := joinAll_placed parts joinRun
  cases returned
  have textPlaced := element_placed g rule _ textRun
  obtain ⟨rfl, -, -⟩ := (textPlaced.holds mid ⟨fun _ _ _ _ => rfl, rfl⟩).text lexer
  obtain ⟨prefers, inside⟩ := star_prefers loopRun
  have restPlaced := elements_placed g rule rest restRun
  -- Neither the elements behind the loop nor the joins between the parts touch its entry.
  have kept : parted.Prefers loopSeg.left greedy :=
    prefers.of_same (by rw [restPlaced.grown.old _ inside]) (by rw [restPlaced.grown.old _ inside])
  obtain ⟨-, chained⟩ := placed.holds net' ⟨fun _ _ _ _ => rfl, rfl⟩
  cases chained with
  | cons joins rest =>
    refine ⟨rfl, loopSeg.left, joins, ?_⟩
    rw [joinAll_run] at joinRun
    obtain ⟨-, rfl⟩ := Prod.mk.inj (Except.ok.inj joinRun)
    exact kept.addEdges _

/-! ## The whole grammar -/

/-- Where one of the first `k` rules begins with a text and a loop, its start leads to the text and the text
to the entry of the loop, which is marked. -/
def EntersLoops (g : Grammar) (k : Nat) (net : Network) : Prop :=
  ∀ i < k, ∀ r text greedy body rest, g.rules[i]? = some r →
    r.body = .seq (.literal text :: .repeated .star greedy body :: rest) →
    ∃ lo n, net.out (2 * i) = [.epsilon lo] ∧ net.out (lo + 2 * text.toList.length) = [.epsilon n] ∧
      net.Prefers n greedy

theorem body_enters {types : Array Int} {m k : Nat} {entries : Nat → List Transition} {r : RuleDef} {u : Unit}
    (lexer : g.isLexer = true) (bodies : Bodies g types m k entries net) (found : g.rules[k]? = some r)
    (enters : EntersLoops g k net) (run : (ruleBody g (r, k)).run net = .ok (u, net')) :
    EntersLoops g (k + 1) net' := by
  obtain ⟨seg, mid, elementRun, result, starts, -⟩ := ruleBody_joins bodies found run
  have placed := element_placed g k r.body elementRun
  intro i inside r' text greedy body rest found' shape
  rcases Nat.lt_or_ge i k with earlier | here
  · obtain ⟨lo, n, startOut, textOut, prefers⟩ := enters i earlier r' text greedy body rest found' shape
    have old : n < net.states.size := by
      by_contra outside
      have decides := prefers.decides
      rw [state_of_le (Nat.not_lt.1 outside)] at decides
      cases decides
    refine ⟨lo, n, ?_, ?_, ?_⟩
    · exact (ruleBody_keeps bodies found run (by rw [startOut]; simp)).trans startOut
    · exact (ruleBody_keeps bodies found run (by rw [textOut]; simp)).trans textOut
    · have grown : mid.Prefers n greedy :=
        prefers.of_same (by rw [placed.grown.old n old]) (by rw [placed.grown.old n old])
      rw [result]
      exact grown.addEdges _
  · obtain rfl : i = k := by omega
    obtain rfl : r = r' := Option.some.inj (found.symm.trans found')
    rw [shape] at elementRun
    obtain ⟨left, n, textOut, prefers⟩ := seq_enters lexer elementRun
    refine ⟨net.states.size, n, left ▸ starts, ?_, result ▸ prefers.addEdges _⟩
    obtain ⟨below, -⟩ := List.getElem?_eq_some_iff.1 found
    have size := bodies.frame.size
    have textInside : net.states.size + 2 * text.toList.length < mid.states.size := by
      by_contra outside
      rw [out_of_le (Nat.not_lt.1 outside)] at textOut
      cases textOut
    have notEnd : seg.right ≠ net.states.size + 2 * text.toList.length := by
      intro same
      rw [← same, placed.ends] at textOut
      cases textOut
    rw [result, addEdges_out _ _ textInside, textOut, edgesFrom_cons, if_neg (by omega), edgesFrom_cons,
      if_neg notEnd]
    rfl

end Layout

open Layout Network in
/-- A rule of a lexer that begins with a text and a loop has the marked entry of the loop behind the text. -/
theorem Grammar.layOut_enters {g : Grammar} {net : Network} (moded : g.Moded) (lexer : g.isLexer = true)
    (run : g.layOut = .ok net) : EntersLoops g g.rules.length net := by
  obtain ⟨ended, entered, filled, _, _, _, endsRun, modesRun, bodiesRun, rfl⟩ := layOut_run run
  rw [lexer, if_pos rfl] at modesRun
  have bare : Bare g #[] g.rules.length 0 ended := by
    have all := forM_zipIdx (P := fun k net => Bare g #[] k 0 net) g.rules 0 (bare_empty g)
      (fun i r m m' u' _ inv ran => inv.addRule ran) endsRun
    rwa [Nat.zero_add] at all
  have all := forM_zipIdx (P := fun k net => Bodies g g.tokenTypes.toArray g.modes.length k
      (fun m => (g.tokenRules m).map fun r => .epsilon (2 * r)) net ∧ EntersLoops g k net) g.rules 0
    ⟨modes_run moded lexer bare modesRun, nofun⟩
    (fun i r m m' u' found inv ran => by
      rw [Nat.zero_add] at inv ran ⊢
      exact ⟨inv.1.step found ran, body_enters lexer inv.1 found inv.2 ran⟩) bodiesRun
  rw [Nat.zero_add] at all
  have out := filled.mapStates_keeps State.refresh (·.transitions) fun _ => rfl
  have kind := filled.mapStates_keeps State.refresh (·.kind) fun _ => rfl
  have nonGreedy := filled.mapStates_keeps State.refresh (·.nonGreedy) fun _ => rfl
  intro i inside r text greedy body rest found shape
  obtain ⟨lo, n, startOut, textOut, prefers⟩ := all.2 i inside r text greedy body rest found shape
  exact ⟨lo, n, (out _).trans startOut, (out _).trans textOut, prefers.of_same (kind n) (nonGreedy n)⟩

end AdaptiveLL
