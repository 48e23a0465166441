import AdaptiveLL.Proofs.Grammar.Ranking
import AdaptiveLL.Proofs.Grammar.Rules

/-!
# Networks of compiled grammars

A grammar is checked, laid out, written as words and read back from them. `Built` is what all later
arguments know of the network that comes out of this: how the rules and modes lie in it, and that
within a rule no run that consumes nothing comes back to where it was. The latter is what the check of
the loops is for.
-/

set_option autoImplicit false

namespace AdaptiveLL

/-- The state behind a move, within the same rule. -/
def Move.next : Move → Nat
  | .free m => m
  | .consume m => m
  | .call _ _ follow => follow

namespace Network

variable {net net' : Network} {g : Grammar} {known : Array Bool}

/-! ## Rules and modes in a network -/

/-- The network of a compiled grammar. -/
structure Built (net : Network) (g : Grammar) : Prop where
  kind : net.kind = g.kind
  numRules : net.numRules = g.rules.length
  numModes : net.modeStarts.size = if g.isLexer then g.modes.length else 0
  ruleTypes : g.isLexer = true → ∀ r < net.numRules, net.ruleTypes.getD r 0 = g.tokenTypes.getD r 0
  startRule : ∀ r < net.numRules, (net.state (net.ruleStart r)).rule = some r
  /-- The entry of a mode leads to the token rules of the mode, in order. -/
  entry : ∀ mode < net.modeStarts.size, net.isStop (net.modeStarts.getD mode 0) = false ∧
    net.moves (net.modeStarts.getD mode 0) = (g.tokenRules mode).map fun r => .free (net.ruleStart r)
  /-- A move within a rule stays in the rule. -/
  owner : ∀ n r, (net.state n).rule = some r → net.isStop n = false → ∀ move ∈ net.moves n,
    (net.state move.next).rule = some r
  calls : net.CallsStarts
  /-- The end of a rule has free moves only. -/
  returns : ∀ n, net.isStop n = true → ∀ move ∈ net.moves n, ∃ m, move = .free m
  /-- A state has one move, or all its moves are free. -/
  oneWay : ∀ n, net.isStop n = false → (∃ move, net.moves n = [move]) ∨
    ∀ move ∈ net.moves n, ∃ m, move = .free m
  /-- No run within a rule that consumes nothing comes back to where it was. -/
  circleFree : ∀ n, ¬ Relation.TransGen (net.Glides net.Passes) n n

/-! ## The laid out network -/

theorem isStop_of_inner {n : Nat} (inner : (net.state n).kind.isInner = true) : net.isStop n = false := by
  unfold isStop
  cases kind : (net.state n).kind with
  | ruleStop => simp [kind, StateKind.isInner] at inner
  | _ => rfl

namespace LaidOut

theorem ruleStart_eq (laid : net.LaidOut g) {r : Nat} (inside : r < g.rules.length) :
    net.ruleStart r = 2 * r := by
  rw [ruleStart, laid.ruleStarts]
  exact Layout.getD_map_range (2 * ·) inside

theorem numRules (laid : net.LaidOut g) : net.numRules = g.rules.length := by
  rw [Network.numRules, laid.ruleStarts]
  simp

theorem numModes (laid : net.LaidOut g) :
    net.modeStarts.size = if g.isLexer then g.modes.length else 0 := by
  rw [laid.modeStarts]
  simp

theorem modeStart_eq (laid : net.LaidOut g) {mode : Nat} (inside : mode < net.modeStarts.size) :
    net.modeStarts.getD mode 0 = 2 * g.rules.length + mode := by
  rw [laid.numModes] at inside
  rw [laid.modeStarts]
  exact Layout.getD_map_range (2 * g.rules.length + ·) inside

/-- A state is the start or the stop of a rule, the entry of a mode, or it lies in a body. -/
theorem states_cases (laid : net.LaidOut g) {n : Nat} (inside : n < net.states.size) :
    (∃ r < g.rules.length, n = 2 * r ∨ n = 2 * r + 1) ∨
      (∃ mode < net.modeStarts.size, n = 2 * g.rules.length + mode) ∨
      ∃ i r seg lo hi, g.rules[i]? = some r ∧ net.BodyAt g i r.body seg lo hi ∧ lo ≤ n ∧ n < hi := by
  rcases laid.cover n inside with early | body
  · rcases Nat.lt_or_ge n (2 * g.rules.length) with isEnd | isMode
    · exact .inl ⟨n / 2, by omega, by omega⟩
    · exact .inr (.inl ⟨n - 2 * g.rules.length, by omega, by omega⟩)
  · exact .inr (.inr body)

theorem isStop_start (laid : net.LaidOut g) {r : Nat} (inside : r < g.rules.length) :
    net.isStop (2 * r) = false := by
  have kind := (laid.startState r inside).1
  unfold isStop
  cases same : (net.state (2 * r)).kind with
  | ruleStop => simp [same, StateKind.isRuleStart] at kind
  | _ => rfl

theorem isStop_stop (laid : net.LaidOut g) {r : Nat} (inside : r < g.rules.length) :
    net.isStop (2 * r + 1) = true := by
  rw [isStop, (laid.stopState r inside).1]
  rfl

theorem isStop_entry (laid : net.LaidOut g) {mode : Nat} (inside : mode < net.modeStarts.size) :
    net.isStop (2 * g.rules.length + mode) = false := by
  rw [isStop, (laid.modeState mode inside).1]
  rfl

/-- What leaves a state: nothing but a free transition into the body of the rule, those into the token
rules of the mode, those that stay in the body, or the one that ends the rule. -/
theorem out_cases (laid : net.LaidOut g) {n : Nat} {t : Transition} (member : t ∈ net.out n) :
    (∃ i r seg lo hi, g.rules[i]? = some r ∧ net.BodyAt g i r.body seg lo hi ∧ n = 2 * i ∧
      net.out n = [.epsilon seg.left] ∧ t = .epsilon seg.left) ∨
    (∃ mode < net.modeStarts.size, n = 2 * g.rules.length + mode ∧
      net.out n = (g.tokenRules mode).map (fun r => .epsilon (2 * r)) ∧
      ∃ r ∈ g.tokenRules mode, t = .epsilon (2 * r)) ∨
    ∃ i r seg lo hi, g.rules[i]? = some r ∧ net.BodyAt g i r.body seg lo hi ∧ lo ≤ n ∧ n < hi ∧
      ((n ≠ seg.right ∧ net.Within g lo hi n) ∨
        (n = seg.right ∧ net.out n = [.epsilon (2 * i + 1)] ∧ t = .epsilon (2 * i + 1))) := by
  have inside : n < net.states.size := by
    by_contra outside
    rw [out_of_le (Nat.not_lt.1 outside)] at member
    cases member
  rcases laid.states_cases inside with ⟨i, known, rfl | rfl⟩ | ⟨mode, known, rfl⟩ |
    ⟨i, r, seg, lo, hi, found, body, low, high⟩
  · obtain ⟨r, found⟩ : ∃ r, g.rules[i]? = some r := ⟨_, List.getElem?_eq_getElem known⟩
    obtain ⟨seg, lo, hi, body⟩ := laid.body i r found
    rw [body.starts, List.mem_singleton] at member
    exact .inl ⟨i, r, seg, lo, hi, found, body, rfl, body.starts, member⟩
  · rw [(laid.stopState i known).2.2] at member
    cases member
  · have out := (laid.modeState mode known).2.2
    rw [out] at member
    obtain ⟨r, among, rfl⟩ := List.mem_map.1 member
    exact .inr (.inl ⟨mode, known, rfl, out, r, among, rfl⟩)
  · refine .inr (.inr ⟨i, r, seg, lo, hi, found, body, low, high, ?_⟩)
    by_cases isEnd : n = seg.right
    · subst isEnd
      rw [body.stops, List.mem_singleton] at member
      exact .inr ⟨rfl, body.stops, member⟩
    · exact .inl ⟨isEnd, body.laid.inside.within n low high isEnd⟩

theorem call_out (laid : net.LaidOut g) {n r follow : Nat} {p : Int} {t : Transition}
    (member : t ∈ net.out n) (label : t.label = .rule r p follow) :
    r < g.rules.length ∧ t.target = net.ruleStart r := by
  rcases laid.out_cases member with ⟨i, _, seg, _, _, -, -, -, -, rfl⟩ | ⟨mode, -, -, -, r', -, rfl⟩ |
    ⟨i, _, seg, lo, hi, -, body, -, -, ⟨-, within⟩ | ⟨-, -, rfl⟩⟩
  · cases label
  · cases label
  · obtain ⟨known, target, -⟩ := (within.stays t member).call r p follow label
    exact ⟨known, target⟩
  · cases label

theorem writable (laid : net.LaidOut g) {words : List Word} (encoded : net.encode = .ok words) :
    net.Writable := by
  have few : g.rules.length < 0xFFFF := by
    obtain ⟨_, -, rest⟩ := except_bind_ok.1 encoded
    obtain ⟨_, -, rest⟩ := except_bind_ok.1 rest
    obtain ⟨_, -, rest⟩ := except_bind_ok.1 rest
    obtain ⟨_, -, rest⟩ := except_bind_ok.1 rest
    obtain ⟨_, rules, -⟩ := except_bind_ok.1 rest
    obtain ⟨_, count, -⟩ := except_bind_ok.1 rules
    have := (Encode.index_ok count).2
    rwa [laid.numRules] at this
  refine ⟨fun n inside => ?_, laid.number, ?_⟩
  · rcases laid.states_cases inside with ⟨r, known, rfl | rfl⟩ | ⟨mode, known, rfl⟩ |
      ⟨i, r, seg, lo, hi, -, body, low, high⟩
    · intro invalid
      have := (laid.startState r known).1
      simp [invalid, StateKind.isRuleStart] at this
    · rw [(laid.stopState r known).1]
      simp
    · rw [(laid.modeState mode known).1]
      simp
    · intro invalid
      have := body.inner n low high
      simp [invalid, StateKind.isInner] at this
  · intro n t member r p follow label
    obtain ⟨known, target⟩ := laid.call_out member label
    rw [target, laid.ruleStart_eq known]
    omega

end LaidOut

/-! ## No circles within a rule -/

/-- The start of a rule that is marked as one that can match nothing. -/
def Marked (net : Network) (g : Grammar) (known : Array Bool) (n : Nat) : Prop :=
  ∃ r < g.rules.length, n = net.ruleStart r ∧ known.getD r false = true

namespace LaidOut

theorem call_move (laid : net.LaidOut g) {n r start follow : Nat}
    (move : .call r start follow ∈ net.moves n) : r < g.rules.length ∧ start = net.ruleStart r := by
  obtain ⟨t, member, same⟩ := List.mem_map.1 move
  obtain ⟨p, label, rfl⟩ := Transition.of_move_call same
  exact laid.call_out member label

/-- The ranks of the bodies, when a rule can be passed over only if it is marked. -/
theorem body_rank (laid : net.LaidOut g)
    (checked : ∀ r ∈ g.rules, g.checkLoops known r.name r.body = .ok ()) {i : Nat} {r : RuleDef}
    {seg : Segment} {lo hi : Nat} (found : g.rules[i]? = some r)
    (body : net.BodyAt g i r.body seg lo hi) :
    net.HasRank (net.Marked g known) (g.nullable known r.body = .ok true) seg lo hi := by
  refine (body.laid.ranked (fun r' inside marked => ?_)
    (checked r (List.mem_of_getElem? found))).rank
  obtain ⟨r'', inside', same, isKnown⟩ := marked
  rw [laid.ruleStart_eq inside, laid.ruleStart_eq inside'] at same
  rwa [show r' = r'' by omega]

/-- A rule that can be passed over is marked, since the states from which it can be passed are late. -/
theorem marked_of_passes (laid : net.LaidOut g) (closed : g.MarksClosed known)
    (checked : ∀ r ∈ g.rules, g.checkLoops known r.name r.body = .ok ()) {n : Nat}
    (passes : net.Passes n) :
    (∀ i < g.rules.length, n = 2 * i → known.getD i false = true) ∧
    ∀ i r seg lo hi rank late, g.rules[i]? = some r → net.BodyAt g i r.body seg lo hi →
      net.Ranking (net.Marked g known) lo hi [seg.right] rank late → lo ≤ n → n < hi → late n := by
  induction passes with
  | @stop n isStop =>
    refine ⟨fun i inside same => ?_, fun i r seg lo hi rank late found body ranking low high => ?_⟩
    · rw [same, laid.isStop_start inside] at isStop
      cases isStop
    · rw [isStop_of_inner (body.inner n low high)] at isStop
      cases isStop
  | @free n m inner move rest ih =>
    refine ⟨fun i inside same => ?_, fun i r seg lo hi rank late found body ranking low high => ?_⟩
    · obtain ⟨r, found⟩ : ∃ r, g.rules[i]? = some r := ⟨_, List.getElem?_eq_getElem inside⟩
      obtain ⟨seg, lo, hi, body⟩ := laid.body i r found
      obtain ⟨rank, late, ranking, isNullable⟩ := (laid.body_rank checked found body).ranked
      subst same
      obtain rfl : m = seg.left := by simpa [moves, body.starts] using move
      exact closed i r found (isNullable
        (ih.2 i r seg lo hi rank late found body ranking body.left.1 body.left.2))
    · by_cases isEnd : n = seg.right
      · exact ranking.ends n (by simp [isEnd])
      · have glide : net.Glides (net.Marked g known) n m := .free inner move
        have stays := ranking.stays n m low high (by simpa using isEnd) glide
        exact ranking.back n m low high (by simpa using isEnd) glide
          (ih.2 i r seg lo hi rank late found body ranking stays.1 stays.2)
  | @call n r' start follow inner move through rest ihThrough ihRest =>
    obtain ⟨inside', rfl⟩ := laid.call_move move
    have marked : net.Marked g known (net.ruleStart r') :=
      ⟨r', inside', rfl, ihThrough.1 r' inside' (laid.ruleStart_eq inside')⟩
    refine ⟨fun i inside same => ?_, fun i r seg lo hi rank late found body ranking low high => ?_⟩
    · obtain ⟨seg, lo, hi, body⟩ := laid.body i _ (List.getElem?_eq_getElem inside)
      subst same
      simp [moves, body.starts] at move
    · by_cases isEnd : n = seg.right
      · exact ranking.ends n (by simp [isEnd])
      · have glide : net.Glides (net.Marked g known) n follow := .skip inner move marked
        have stays := ranking.stays n follow low high (by simpa using isEnd) glide
        exact ranking.back n follow low high (by simpa using isEnd) glide
          (ihRest.2 i r seg lo hi rank late found body ranking stays.1 stays.2)

theorem glides_marked (laid : net.LaidOut g) (closed : g.MarksClosed known)
    (checked : ∀ r ∈ g.rules, g.checkLoops known r.name r.body = .ok ()) {n m : Nat}
    (glide : net.Glides net.Passes n m) : net.Glides (net.Marked g known) n m := by
  cases glide with
  | free inner move => exact .free inner move
  | skip inner move passed =>
    obtain ⟨inside, rfl⟩ := laid.call_move move
    exact .skip inner move ⟨_, inside, rfl,
      (laid.marked_of_passes closed checked passed).1 _ inside (laid.ruleStart_eq inside)⟩

/-- From the body of a rule a run leads down in the rank of the body, or out of it to the end of the
rule, where it is stuck. -/
theorem run_falls (laid : net.LaidOut g) {passable : Nat → Prop} {i : Nat} {r : RuleDef} {seg : Segment}
    {lo hi : Nat} {rank : Nat → Nat} {late : Nat → Prop} (found : g.rules[i]? = some r)
    (body : net.BodyAt g i r.body seg lo hi) (ranking : net.Ranking passable lo hi [seg.right] rank late)
    {n m : Nat} (low : lo ≤ n) (high : n < hi) (run : Relation.TransGen (net.Glides passable) n m) :
    (lo ≤ m ∧ m < hi ∧ rank m < rank n) ∨ m = 2 * i + 1 := by
  have step {a b : Nat} (low : lo ≤ a) (high : a < hi) (glide : net.Glides passable a b) :
      (lo ≤ b ∧ b < hi ∧ rank b < rank a) ∨ b = 2 * i + 1 := by
    by_cases isEnd : a = seg.right
    · subst isEnd
      exact .inr (glide.of_epsilon body.stops)
    · have stays := ranking.stays a b low high (by simpa using isEnd) glide
      exact .inl ⟨stays.1, stays.2, ranking.falls a b low high (by simpa using isEnd) glide⟩
  induction run with
  | single glide => exact step low high glide
  | tail run glide ih =>
    rcases ih with ⟨low', high', falls⟩ | rfl
    · rcases step low' high' glide with ⟨low'', high'', falls'⟩ | isStop
      · exact .inl ⟨low'', high'', Nat.lt_trans falls' falls⟩
      · exact .inr isStop
    · exact absurd (laid.isStop_stop (List.getElem?_eq_some_iff.1 found).1) glide.inner

/-- A run from the start of a rule stays in the rule. -/
theorem run_from_start (laid : net.LaidOut g)
    (checked : ∀ r ∈ g.rules, g.checkLoops known r.name r.body = .ok ()) {i m : Nat}
    (inside : i < g.rules.length)
    (run : Relation.TransGen (net.Glides (net.Marked g known)) (2 * i) m) :
    m = 2 * i + 1 ∨ (net.state m).kind.isInner = true := by
  have found := List.getElem?_eq_getElem inside
  obtain ⟨seg, lo, hi, body⟩ := laid.body i _ found
  obtain ⟨rank, late, ranking, -⟩ := (laid.body_rank checked found body).ranked
  obtain ⟨m', glide, rest⟩ := Relation.TransGen.head'_iff.1 run
  obtain rfl := glide.of_epsilon body.starts
  rcases Relation.reflTransGen_iff_eq_or_transGen.1 rest with rfl | later
  · exact .inr (body.inner _ body.left.1 body.left.2)
  · rcases laid.run_falls found body ranking body.left.1 body.left.2 later with ⟨low, high, -⟩ | rfl
    · exact .inr (body.inner m low high)
    · exact .inl rfl

theorem circleFree (laid : net.LaidOut g) (closed : g.MarksClosed known)
    (checked : ∀ r ∈ g.rules, g.checkLoops known r.name r.body = .ok ()) (n : Nat) :
    ¬ Relation.TransGen (net.Glides net.Passes) n n := by
  intro circle
  replace circle : Relation.TransGen (net.Glides (net.Marked g known)) n n :=
    circle.lift id fun _ _ => laid.glides_marked closed checked
  obtain ⟨m, glide, rest⟩ := Relation.TransGen.head'_iff.1 circle
  rcases laid.states_cases glide.lt_size with ⟨i, inside, rfl | rfl⟩ | ⟨mode, inside, rfl⟩ |
    ⟨i, r, seg, lo, hi, found, body, low, high⟩
  · have kind := (laid.startState i inside).1
    rcases laid.run_from_start checked inside circle with same | inner
    · omega
    · cases same : (net.state (2 * i)).kind <;>
        simp [same, StateKind.isRuleStart, StateKind.isInner] at kind inner
  · exact glide.inner (laid.isStop_stop inside)
  · obtain ⟨kind, -, out⟩ := laid.modeState mode inside
    rw [show (g.tokenRules mode).map (fun r => Transition.epsilon (2 * r)) =
      ((g.tokenRules mode).map (2 * ·)).map .epsilon by simp] at out
    obtain ⟨r, among, rfl⟩ := List.mem_map.1 (glide.of_epsilons out)
    have known := Grammar.lt_of_mem_tokenRules among
    rcases Relation.reflTransGen_iff_eq_or_transGen.1 rest with same | later
    · omega
    · rcases laid.run_from_start checked known later with same | inner
      · omega
      · simp [kind, StateKind.isInner] at inner
  · obtain ⟨rank, late, ranking, -⟩ := (laid.body_rank checked found body).ranked
    rcases laid.run_falls found body ranking low high circle with ⟨-, -, falls⟩ | same
    · exact Nat.lt_irrefl _ falls
    · have inner := body.inner n low high
      rw [same, (laid.stopState i (List.getElem?_eq_some_iff.1 found).1).1] at inner
      cases inner

end LaidOut


/-! ## From the laid out network to the one that is read back -/

theorem Within.next {lo hi n : Nat} (within : net.Within g lo hi n) {move : Move}
    (member : move ∈ net.moves n) : lo ≤ move.next ∧ move.next < hi := by
  obtain ⟨t, among, rfl⟩ := List.mem_map.1 member
  have stays := within.stays t among
  by_cases isCall : ∃ r p follow, t.label = .rule r p follow
  · obtain ⟨r, p, follow, label⟩ := isCall
    obtain ⟨-, -, bounds⟩ := stays.call r p follow label
    simpa [Transition.move, label, Move.next] using bounds
  · have plain : ∀ r p follow, t.label ≠ .rule r p follow :=
      fun r p follow label => isCall ⟨r, p, follow, label⟩
    have next : t.move.next = t.target := by
      unfold Transition.move
      split
      · exact absurd (by assumption) (plain _ _ _)
      · split <;> rfl
    rw [next]
    exact stays.other plain

theorem Within.oneWay_moves {lo hi n : Nat} (within : net.Within g lo hi n) :
    (∃ move, net.moves n = [move]) ∨ ∀ move ∈ net.moves n, ∃ m, move = .free m := by
  rcases within.oneWay with ⟨t, alone⟩ | free
  · exact .inl ⟨t.move, by rw [moves, alone, List.map_singleton]⟩
  · refine .inr fun move member => ?_
    obtain ⟨t, among, rfl⟩ := List.mem_map.1 member
    exact ⟨t.target, by simp [Transition.move, free t among, Label.isEpsilon]⟩

theorem LaidOut.built (laid : net.LaidOut g) (closed : g.MarksClosed known)
    (checked : ∀ r ∈ g.rules, g.checkLoops known r.name r.body = .ok ()) : net.Built g := by
  refine ⟨laid.kind, laid.numRules, laid.numModes, ?_, ?_, ?_, ?_, ?_, ?_, ?_,
    laid.circleFree closed checked⟩
  · intro lexer r inside
    rw [laid.ruleTypes, if_pos lexer]
    simp
  · intro r inside
    rw [laid.numRules] at inside
    rw [laid.ruleStart_eq inside]
    exact (laid.startState r inside).2
  · intro mode inside
    rw [laid.modeStart_eq inside]
    refine ⟨laid.isStop_entry inside, ?_⟩
    rw [moves, (laid.modeState mode inside).2.2, List.map_map]
    refine List.map_congr_left fun r member => ?_
    rw [Function.comp, Transition.move_epsilon, laid.ruleStart_eq (Grammar.lt_of_mem_tokenRules member)]
  · intro n r owned inner move member
    obtain ⟨t, among, rfl⟩ := List.mem_map.1 member
    rcases laid.out_cases among with ⟨i, r', seg, lo, hi, found, body, rfl, -, rfl⟩ |
      ⟨mode, known, rfl, -⟩ | ⟨i, r', seg, lo, hi, found, body, low, high, ⟨-, within⟩ | ⟨-, -, rfl⟩⟩
    · rw [(laid.startState i (List.getElem?_eq_some_iff.1 found).1).2] at owned
      exact (body.owner seg.left body.left.1 body.left.2).trans owned
    · rw [(laid.modeState mode known).2.1] at owned
      cases owned
    · have bounds := within.next member
      rw [← owned, body.owner n low high, body.owner _ bounds.1 bounds.2]
    · rw [← owned, body.owner n low high]
      exact (laid.stopState i (List.getElem?_eq_some_iff.1 found).1).2.1
  · intro n r start follow inner move
    rw [laid.numRules]
    exact laid.call_move move
  · intro n isStop move member
    obtain ⟨t, among, rfl⟩ := List.mem_map.1 member
    rcases laid.out_cases among with ⟨_, _, seg, _, _, -, -, -, -, rfl⟩ | ⟨_, -, -, -, r, -, rfl⟩ |
      ⟨_, _, _, lo, hi, -, body, low, high, -⟩
    · exact ⟨seg.left, rfl⟩
    · exact ⟨2 * r, rfl⟩
    · rw [isStop_of_inner (body.inner n low high)] at isStop
      cases isStop
  · intro n inner
    by_cases none : net.moves n = []
    · exact .inr (by simp [none])
    · obtain ⟨move, member⟩ := List.exists_mem_of_ne_nil _ none
      obtain ⟨t, among, rfl⟩ := List.mem_map.1 member
      rcases laid.out_cases among with ⟨i, r', seg, lo, hi, -, -, -, alone, -⟩ |
        ⟨mode, -, -, out, -⟩ | ⟨i, r', seg, lo, hi, -, -, -, -, ⟨-, within⟩ | ⟨-, alone, -⟩⟩
      · exact .inl ⟨_, by rw [moves, alone, List.map_singleton]⟩
      · refine .inr fun move member => ?_
        rw [moves, out, List.map_map] at member
        obtain ⟨r, -, rfl⟩ := List.mem_map.1 member
        exact ⟨2 * r, rfl⟩
      · exact within.oneWay_moves
      · exact .inl ⟨_, by rw [moves, alone, List.map_singleton]⟩

/-- Whatever is consumed is consumed before the end of the rule. -/
theorem LaidOut.consumes (laid : net.LaidOut g) {n m : Nat} (move : .consume m ∈ net.moves n) : net.isStop m = false := by
  obtain ⟨t, member, same⟩ := List.mem_map.1 move
  rcases laid.out_cases member with ⟨_, _, seg, _, _, -, -, -, -, rfl⟩ | ⟨_, -, -, -, r, -, rfl⟩ |
    ⟨_, _, _, lo, hi, -, body, -, -, ⟨-, within⟩ | ⟨-, -, rfl⟩⟩
  · cases same
  · cases same
  · have bounds := within.next move
    exact isStop_of_inner (body.inner m bounds.1 bounds.2)
  · cases same

/-- A state that calls a rule lies in a rule. -/
theorem LaidOut.owned_of_call (laid : net.LaidOut g) {n r start follow : Nat}
    (move : .call r start follow ∈ net.moves n) : ∃ i, (net.state n).rule = some i := by
  obtain ⟨t, member, same⟩ := List.mem_map.1 move
  rcases laid.out_cases member with ⟨_, _, seg, _, _, -, -, -, -, rfl⟩ | ⟨_, -, -, -, r', -, rfl⟩ |
    ⟨i, _, _, lo, hi, -, body, low, high, -⟩
  · cases same
  · cases same
  · exact ⟨i, body.owner n low high⟩

namespace Reread

theorem isStop_eq (reread : net.Reread net') (n : Nat) : net'.isStop n = net.isStop n := by
  rw [Bool.eq_iff_iff, isStop, isStop, Decode.code_ruleStop, Decode.code_ruleStop,
    reread.rules.states.code n]

theorem moves_eq (reread : net.Reread net') {n : Nat} (inner : net'.isStop n = false) :
    net'.moves n = net.moves n := by
  rw [reread.isStop_eq] at inner
  exact reread.moves n inner

theorem ruleStart_eq (reread : net.Reread net') (r : Nat) : net'.ruleStart r = net.ruleStart r := by
  rw [ruleStart, ruleStart, reread.rules.ruleStarts]

theorem passes (reread : net.Reread net') {n : Nat} (passes : net'.Passes n) : net.Passes n := by
  induction passes with
  | stop isStop => exact .stop (by rwa [reread.isStop_eq] at isStop)
  | free inner move rest ih =>
    rw [reread.moves_eq inner] at move
    exact .free (by rwa [reread.isStop_eq] at inner) move ih
  | call inner move through rest ihThrough ihRest =>
    rw [reread.moves_eq inner] at move
    exact .call (by rwa [reread.isStop_eq] at inner) move ihThrough ihRest

theorem glides (reread : net.Reread net') {n m : Nat} (glide : net'.Glides net'.Passes n m) :
    net.Glides net.Passes n m := by
  cases glide with
  | free inner move =>
    rw [reread.moves_eq inner] at move
    exact .free (by rwa [reread.isStop_eq] at inner) move
  | skip inner move passed =>
    rw [reread.moves_eq inner] at move
    exact .skip (by rwa [reread.isStop_eq] at inner) move (reread.passes passed)

/-- Whatever is known of a built network is known of the one that is read back from its words. -/
theorem built (reread : net.Reread net') (built : net.Built g) : net'.Built g := by
  have count : net'.numRules = net.numRules := by rw [numRules, numRules, reread.rules.ruleStarts]
  have owner := reread.rules.states.rule
  have inner {n : Nat} (inner : net'.isStop n = false) : net.isStop n = false := by
    rwa [reread.isStop_eq] at inner
  refine ⟨reread.rules.kind.trans built.kind, count.trans built.numRules,
    by rw [reread.modeStarts, built.numModes], ?_, ?_, ?_, ?_, ?_, ?_, ?_, ?_⟩
  · intro lexer r inside
    rw [count] at inside
    rw [← built.ruleTypes lexer r inside]
    refine reread.rules.ruleTypes ?_ r inside
    rwa [isLexer, built.kind]
  · intro r inside
    rw [owner, reread.ruleStart_eq]
    exact built.startRule r (count ▸ inside)
  · intro mode inside
    rw [reread.modeStarts] at inside ⊢
    obtain ⟨notStop, entry⟩ := built.entry mode inside
    have notStop' : net'.isStop (net.modeStarts.getD mode 0) = false := by
      rwa [reread.isStop_eq]
    refine ⟨notStop', ?_⟩
    rw [reread.moves_eq notStop', entry]
    exact List.map_congr_left fun r _ => by rw [reread.ruleStart_eq]
  · intro n r owned notStop move member
    rw [owner] at owned ⊢
    rw [reread.moves_eq notStop] at member
    exact built.owner n r owned (inner notStop) move member
  · intro n r start follow notStop move
    rw [reread.moves_eq notStop] at move
    rw [count, reread.ruleStart_eq]
    exact built.calls n r start follow (inner notStop) move
  · intro n isStop
    rw [reread.isStop_eq] at isStop
    exact reread.returns n isStop
  · intro n notStop
    rw [reread.moves_eq notStop]
    exact built.oneWay n (inner notStop)
  · intro n circle
    exact built.circleFree n (circle.lift id fun _ _ => reread.glides)

end Reread

end Network

/-- What the compiler went through: the checks, the layout and the words. -/
theorem Grammar.compile_steps {g : Grammar} {compiled : CompiledGrammar}
    (run : g.compile = .ok compiled) : ∃ known net, g.nullableRules = .ok known ∧
      (∀ r ∈ g.rules, g.checkLoops known r.name r.body = .ok ()) ∧ g.layOut = .ok net ∧
      (∀ a ∈ net.actions.toList, g.checkMode a = .ok ()) ∧ net.encode = .ok compiled.words := by
  unfold Grammar.compile at run
  split at run
  · cases run
  · obtain ⟨known, marked, run⟩ := except_bind_ok.1 run
    obtain ⟨_, checked, run⟩ := except_bind_ok.1 run
    obtain ⟨net, laid, run⟩ := except_bind_ok.1 run
    obtain ⟨_, moded, run⟩ := except_bind_ok.1 run
    refine ⟨known, net, marked, fun r member => ?_, laid, fun a member => ?_, ?_⟩
    · exact except_forM_ok checked r member
    · exact except_forM_ok moded a member
    · split at run
      · cases run
        assumption
      · cases run

/-- The network of a compiled grammar, as it is read back from its words. -/
theorem Grammar.compile_built {g : Grammar} {compiled : CompiledGrammar} {net : Network} {verify : Bool}
    (assembled : g.Assembled) (run : g.compile = .ok compiled)
    (decoded : Network.decode compiled.words verify = .ok net) : net.Built g ∧
      ∀ n, (net.state n).epsilonOnly =
        (!(net.out n).isEmpty && (net.out n).all (·.label.isEpsilon)) := by
  obtain ⟨known, base, marked, checked, layOut, -, encoded⟩ := Grammar.compile_steps run
  have laid := Grammar.layOut_laidOut assembled.moded layOut
  obtain ⟨reread, epsilonOnly⟩ := Network.decode_encode (laid.writable encoded) encoded decoded
  refine ⟨reread.built (laid.built (Grammar.nullableRules_closed marked) checked), fun n => ?_⟩
  rcases Nat.lt_or_ge n base.states.size with inside | outside
  · exact epsilonOnly n inside
  · rw [← reread.rules.states.size] at outside
    rw [Network.state_of_le outside, Network.out_of_le outside]
    rfl

/-- Whatever is consumed is consumed before the end of the rule. -/
theorem Grammar.compile_consumes {g : Grammar} {compiled : CompiledGrammar} {net : Network} {verify : Bool}
    (assembled : g.Assembled) (run : g.compile = .ok compiled)
    (decoded : Network.decode compiled.words verify = .ok net) {n m : Nat} (inner : net.isStop n = false)
    (move : .consume m ∈ net.moves n) : net.isStop m = false := by
  obtain ⟨-, base, -, -, layOut, -, encoded⟩ := Grammar.compile_steps run
  have laid := Grammar.layOut_laidOut assembled.moded layOut
  obtain ⟨reread, -⟩ := Network.decode_encode (laid.writable encoded) encoded decoded
  rw [reread.moves_eq inner] at move
  rw [reread.isStop_eq]
  exact laid.consumes move

/-- A state that calls a rule lies in a rule. -/
theorem Grammar.compile_owned_of_call {g : Grammar} {compiled : CompiledGrammar} {net : Network} {verify : Bool}
    (assembled : g.Assembled) (run : g.compile = .ok compiled)
    (decoded : Network.decode compiled.words verify = .ok net) {n r start follow : Nat} (inner : net.isStop n = false)
    (move : .call r start follow ∈ net.moves n) : ∃ i, (net.state n).rule = some i := by
  obtain ⟨-, base, -, -, layOut, -, encoded⟩ := Grammar.compile_steps run
  have laid := Grammar.layOut_laidOut assembled.moded layOut
  obtain ⟨reread, -⟩ := Network.decode_encode (laid.writable encoded) encoded decoded
  rw [reread.moves_eq inner] at move
  rw [reread.rules.states.rule]
  exact laid.owned_of_call move

end AdaptiveLL
