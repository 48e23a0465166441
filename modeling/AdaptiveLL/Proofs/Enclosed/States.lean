import AdaptiveLL.Proofs.Grammar.Entries
import AdaptiveLL.Proofs.Grammar.Language

/-!
# The states of a rule that encloses

A comment or a string is often a rule of three parts: a text that opens it, any symbols but as few as
possible, and a text that closes it. Its states follow from where the opening text begins and ends
(`Encloses`); the decision of the loop has the way to the closing text first. The lexer that is read from
the words of a grammar has these states for every such rule (`Grammar.compile_delimits`).
-/

set_option autoImplicit false

namespace AdaptiveLL

/-- A text, any symbols but as few as possible, and another text. -/
def Element.enclosing (opening closing : String) : Element :=
  .seq [.literal opening, .repeated .star false .wildcard, .literal closing]

namespace Network

variable {net base : Network} {g : Grammar} {r lo n : Nat} {opening closing : List Char}

/-- The states of a rule that encloses. The opening text lies from `lo` to `n`, the loop around any symbol on
the states behind it, and then the closing text. -/
structure Encloses (net : Network) (r : Nat) (opening closing : List Char) (lo n : Nat) : Prop where
  starts : net.out (2 * r) = [.epsilon lo]
  opens : net.Spelled opening lo n
  enters : net.out n = [.epsilon (n + 5)]
  decides : net.out (n + 5) = [.epsilon (n + 7), .epsilon (n + 3)]
  takes : net.out (n + 3) = [.epsilon (n + 1)]
  any : net.out (n + 1) = [⟨n + 2, .wildcard⟩]
  taken : net.out (n + 2) = [.epsilon (n + 4)]
  ends : net.out (n + 4) = [.epsilon (n + 6)]
  returns : net.out (n + 6) = [.epsilon (n + 5)]
  leaves : net.out (n + 7) = [.epsilon (n + 8)]
  closes : net.Spelled closing (n + 8) (n + 8 + 2 * closing.length)
  stops : net.out (n + 8 + 2 * closing.length) = [.epsilon (2 * r + 1)]
  inner : ∀ s, lo ≤ s → s ≤ n + 8 + 2 * closing.length → net.isStop s = false

namespace Spelled

theorem congr {cs : List Char} {left right : Nat} {net' : Network} (spelled : net.Spelled cs left right)
    (same : ∀ s, left ≤ s → s < right → net'.out s = net.out s) : net'.Spelled cs left right := by
  induction spelled with
  | nil n => exact .nil n
  | cons joined edge later ih =>
    have right := later.right_eq
    refine .cons ?_ ?_ (ih fun s above below => same s (by omega) below)
    · rw [same _ (Nat.le_refl _) (by omega), joined]
    · rw [same _ (by omega) (by omega), edge]

/-- Each character has two states, the first of which asks for nothing. -/
theorem at_index {cs : List Char} {left right j : Nat} {c : Char} (spelled : net.Spelled cs left right)
    (found : cs[j]? = some c) : net.out (left + 2 * j) = [.epsilon (left + 2 * j + 1)] ∧
      net.out (left + 2 * j + 1) = [⟨left + 2 * (j + 1), Layout.atomLabel c.toNat⟩] := by
  induction spelled generalizing j with
  | nil n => cases found
  | @cons c' cs left right joined edge later ih =>
    cases j with
    | zero =>
      cases found
      exact ⟨joined, edge⟩
    | succ j =>
      have shift : left + 2 + 2 * j = left + 2 * (j + 1) := by omega
      have shift' : left + 2 + 2 * (j + 1) = left + 2 * (j + 1 + 1) := by omega
      rw [← shift, ← shift']
      exact ih found

end Spelled

/-! ## As laid out -/

theorem BodyAt.encloses {seg : Segment} {hi : Nat} {opening closing : String} (lexer : g.isLexer = true)
    (body : net.BodyAt g r (.enclosing opening closing) seg lo hi) :
    net.Encloses r opening.toList closing.toList lo (lo + 2 * opening.toList.length) := by
  obtain ⟨laid, -, -, starts, stops, -, inner⟩ := body
  cases laid with
  | leaf labelled => cases labelled
  | seq parts chained =>
    cases parts with | cons first rest =>
    obtain ⟨rfl, rfl, opens⟩ := first.text lexer
    cases rest with | cons second rest =>
    cases second with
    | leaf labelled => cases labelled
    | repeated loopParts around =>
    cases loopParts with | cons any nothing =>
    cases nothing
    cases any with | leaf labelled taken =>
    cases labelled
    cases around with | star takes ends stopped returns decides =>
    cases rest with | cons third rest =>
    obtain ⟨rfl, rfl, closes⟩ := third.text lexer
    cases rest
    cases chained with | cons enters chained =>
    cases chained with | cons leaves chained =>
    cases chained
    exact {
      starts, opens, enters, decides, takes, leaves, closes, stops, returns
      any := taken
      taken := ends _ (List.mem_singleton.2 rfl)
      ends := stopped
      inner := fun s above below => isStop_of_inner (inner s above (Nat.lt_succ_of_le below)) }

/-! ## As read back -/

theorem LaidOut.isStop_of_leaves {s : Nat} (laid : base.LaidOut g) (leaves : base.out s ≠ []) :
    base.isStop s = false := by
  have inside : s < base.states.size := by
    by_contra outside
    exact leaves (out_of_le (Nat.not_lt.1 outside))
  rcases laid.states_cases inside with ⟨r, known, rfl | rfl⟩ | ⟨mode, known, rfl⟩ |
    ⟨i, r, seg, lo, hi, found, body, low, high⟩
  · exact laid.isStop_start known
  · exact absurd (laid.stopState r known).2.2 leaves
  · exact laid.isStop_entry known
  · exact isStop_of_inner (body.inner s low high)

section

variable {actions : Array LexerAction} (restored : ({ base with actions } : Network).Restored net)
include restored

theorem Restored.out_eq {s : Nat} {ts : List Transition} (laid : base.LaidOut g) (out : base.out s = ts)
    (leaves : ts ≠ []) : net.out s = ts :=
  (restored.out s (laid.isStop_of_leaves (out ▸ leaves))).1.trans out

theorem Restored.encloses (laid : base.LaidOut g) (encloses : base.Encloses r opening closing lo n) :
    net.Encloses r opening closing lo n := by
  have out {s : Nat} {ts : List Transition} (out : base.out s = ts) (leaves : ts ≠ []) : net.out s = ts :=
    restored.out_eq laid out leaves
  have inner (s : Nat) (above : lo ≤ s) (below : s ≤ n + 8 + 2 * closing.length) : base.isStop s = false :=
    encloses.inner s above below
  have after := encloses.opens.right_eq
  exact {
    starts := out encloses.starts (by simp)
    opens := encloses.opens.congr fun s above below => (restored.out s (inner s above (by omega))).1
    enters := out encloses.enters (by simp)
    decides := out encloses.decides (by simp)
    takes := out encloses.takes (by simp)
    any := out encloses.any (by simp)
    taken := out encloses.taken (by simp)
    ends := out encloses.ends (by simp)
    returns := out encloses.returns (by simp)
    leaves := out encloses.leaves (by simp)
    closes := encloses.closes.congr fun s above below => (restored.out s (inner s (by omega) (by omega))).1
    stops := out encloses.stops (by simp)
    inner := fun s above below => (restored.isRuleStop s).trans (inner s above below) }

theorem Restored.prefers {s : Nat} {greedy : Bool} (prefers : base.Prefers s greedy) :
    net.Prefers s greedy := by
  have unmarked (k : StateKind) : k.unmarked.isDecision = k.isDecision := by cases k <;> rfl
  refine ⟨?_, (restored.nonGreedy s).trans prefers.marked⟩
  rw [← unmarked, restored.stateKind, unmarked]
  exact prefers.decides

end

/-- The entry of a mode leads to one rule only, which encloses and prefers to stop early. -/
structure Delimits (net : Network) (mode r : Nat) (opening closing : List Char) (lo n : Nat) : Prop
    extends Encloses net r opening closing lo n where
  entry : net.out (net.modeStarts.getD mode 0) = [.epsilon (2 * r)]
  begins : net.isStop (2 * r) = false
  prefers : net.Prefers (n + 5) false
  stop : net.isStop (2 * r + 1) = true
  owner : (net.state (2 * r + 1)).rule = some r
  /-- The end of a rule has transitions that return to its callers only. -/
  returnsOnly : ∀ t ∈ net.out (2 * r + 1), ∃ k, t.move = .free k
  refreshed : ∀ s, (net.state s).epsilonOnly =
    (!(net.out s).isEmpty && (net.out s).all (·.label.isEpsilon))

end Network

open Network in
/-- The network that is read from the words of a grammar has the states of every rule that encloses. -/
theorem Grammar.compile_delimits {g : Grammar} {compiled : CompiledGrammar} {net : Network} {verify : Bool}
    {mode r : Nat} {d : RuleDef} {opening closing : String} (assembled : g.Assembled)
    (representable : g.Representable) (lexer : g.isLexer = true) (run : g.compile = .ok compiled)
    (decoded : decode compiled.words verify = .ok net) (known : mode < g.modes.length)
    (alone : g.tokenRules mode = [r]) (found : g.rules[r]? = some d)
    (shape : d.body = .enclosing opening closing) :
    ∃ lo n, net.Delimits mode r opening.toList closing.toList lo n := by
  obtain ⟨built, refreshed⟩ := Grammar.compile_built assembled run decoded
  obtain ⟨base, derived, actions, layout, laid, -, -, -, -, restored⟩ :=
    compile_derived assembled representable run decoded
  have inRules : r < g.rules.length := (List.getElem?_eq_some_iff.1 found).1
  have inModes : mode < base.modeStarts.size := by
    rw [laid.numModes, if_pos lexer]
    exact known
  obtain ⟨seg, lo, hi, body⟩ := laid.body r d found
  rw [shape] at body
  have encloses := body.encloses lexer
  obtain ⟨lo', n', starts, enters, prefers⟩ :=
    Grammar.layOut_enters assembled.moded lexer layout r inRules d opening false .wildcard _ found shape
  -- The text begins where the rule starts, and leads to one state only.
  obtain rfl : lo' = lo := by
    have same := starts.symm.trans encloses.starts
    simpa [Transition.epsilon] using same
  obtain rfl : n' = lo' + 2 * opening.toList.length + 5 := by
    have same := enters.symm.trans encloses.enters
    simpa [Transition.epsilon] using same
  have entry : net.out (net.modeStarts.getD mode 0) = [.epsilon (2 * r)] := by
    rw [restored.modeStarts]
    change net.out (base.modeStarts.getD mode 0) = _
    rw [laid.modeStart_eq inModes]
    apply restored.out_eq laid _ (by simp)
    rw [(laid.modeState mode inModes).2.2, alone]
    rfl
  have stop : net.isStop (2 * r + 1) = true := (restored.isRuleStop _).trans (laid.isStop_stop inRules)
  exact ⟨lo', lo' + 2 * opening.toList.length, {
    toEncloses := restored.encloses laid encloses
    entry, stop, refreshed
    begins := (restored.isRuleStop _).trans (laid.isStop_start inRules)
    prefers := restored.prefers prefers
    owner := (restored.rule _).trans (laid.stopState r inRules).2.1
    returnsOnly := fun t member => built.returns _ stop t.move (List.mem_map_of_mem member) }⟩

end AdaptiveLL
