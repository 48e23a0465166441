import AdaptiveLL.Grammar.Layout
import AdaptiveLL.Proofs.Network.Edges

/-!
# How elements lie in a network

An element of a rule is laid out over an interval of new states. `Laid` says which transitions leave
the states of that interval, all but the right end of the segment: what leaves the right end is added
by whatever surrounds the element. The relation follows the element tree, and nothing in it speaks of
the order in which states and transitions were made, so later arguments about a network go by
induction on it (`Laid.elim`) and never look at the layout again.
-/

set_option autoImplicit false

namespace AdaptiveLL

/-- The alternatives of the body of a repetition. -/
def Element.branches : Element → List Element
  | .alt es => es
  | e => [e]

/-! ## Labels of single edges -/

namespace Layout

/-- The label for one symbol. -/
def atomLabel (v : Int) : Label := if v > 0xFFFF then .set (.singleton v) else .atom v

/-- The label for one symbol of a range. -/
def rangeLabel (lo hi : Int) : Label :=
  if lo = hi then atomLabel lo else if hi > 0xFFFF then .set (.ofRange lo hi) else .range lo hi

theorem atomLabel_plain (v : Int) (r : Nat) (p : Int) (follow : Nat) :
    atomLabel v ≠ .rule r p follow := by
  unfold atomLabel
  split <;> simp

theorem atomLabel_consumes (v : Int) : (atomLabel v).isEpsilon = false := by
  unfold atomLabel
  split <;> rfl

theorem rangeLabel_consumes (lo hi : Int) : (rangeLabel lo hi).isEpsilon = false := by
  unfold rangeLabel
  split
  · exact atomLabel_consumes lo
  · split <;> rfl

theorem rangeLabel_plain (lo hi : Int) (r : Nat) (p : Int) (follow : Nat) :
    rangeLabel lo hi ≠ .rule r p follow := by
  unfold rangeLabel
  split
  · exact atomLabel_plain lo r p follow
  · split <;> simp

end Layout

open Layout in
/-- The elements that are laid out as one edge, with its label. -/
inductive LeafLabel (g : Grammar) (rule : Nat) : Element → Label → Prop
  | symbol (v : Int) : LeafLabel g rule (.symbol v) (atomLabel v)
  | token {name : String} {type : Nat} (known : g.vocabulary.tokenType name = some type) :
      LeafLabel g rule (.token name) (atomLabel type)
  | literal {text : String} {type : Nat} (parser : g.isLexer = false)
      (known : g.vocabulary.tokenType ("'" ++ text ++ "'") = some type) :
      LeafLabel g rule (.literal text) (atomLabel type)
  | range {lo hi : Int} (inhabited : lo ≤ hi) : LeafLabel g rule (.range lo hi) (rangeLabel lo hi)
  | set (s : SymbolSet) : LeafLabel g rule (.set s) (.set s)
  | notSet (s : SymbolSet) : LeafLabel g rule (.notSet s) (.notSet s)
  | wildcard : LeafLabel g rule .wildcard .wildcard
  | eof : LeafLabel g rule .eof (.atom endOfInput)
  | predicate (pred : Nat) (ctx : Bool) :
      LeafLabel g rule (.predicate pred ctx) (.predicate rule pred ctx)
  | precedence (p : Int) : LeafLabel g rule (.precedence p) (.precedence p)
  | action (i place : Nat) : LeafLabel g rule (.action i) (.action rule (some place) false)
  | command (a : LexerAction) (place : Nat) :
      LeafLabel g rule (.command a) (.action rule (some place) false)

theorem LeafLabel.plain {g : Grammar} {rule : Nat} {e : Element} {label : Label}
    (labelled : LeafLabel g rule e label) (r : Nat) (p : Int) (follow : Nat) :
    label ≠ .rule r p follow := by
  cases labelled with
  | symbol v => exact Layout.atomLabel_plain v r p follow
  | token known => exact Layout.atomLabel_plain _ r p follow
  | literal parser known => exact Layout.atomLabel_plain _ r p follow
  | range inhabited => exact Layout.rangeLabel_plain _ _ r p follow
  | _ => simp

theorem Grammar.ruleIndex_lt {g : Grammar} {name : String} {i : Nat}
    (known : g.ruleIndex name = .ok i) : i < g.rules.length := by
  unfold Grammar.ruleIndex at known
  split at known
  · rename_i j found
    cases known
    exact (List.findIdx?_eq_some_iff_getElem.1 found).1
  · cases known

/-! ## Segments of a network -/

/-- Elements with their segments, one behind the other from `lo` up to `hi`. -/
inductive Consecutive (P : Element → Segment → Nat → Nat → Prop) :
    List Element → List Segment → Nat → Nat → Prop
  | nil (lo : Nat) : Consecutive P [] [] lo lo
  | cons {e : Element} {es : List Element} {s : Segment} {ss : List Segment} {lo mid hi : Nat}
      (first : P e s lo mid) (rest : Consecutive P es ss mid hi) :
      Consecutive P (e :: es) (s :: ss) lo hi

theorem Consecutive.imp {P Q : Element → Segment → Nat → Nat → Prop} {es : List Element}
    {segs : List Segment} {lo hi : Nat} (parts : Consecutive P es segs lo hi)
    (imp : ∀ e ∈ es, ∀ seg lo hi, P e seg lo hi → Q e seg lo hi) : Consecutive Q es segs lo hi := by
  induction parts with
  | nil lo => exact .nil lo
  | cons first rest ih =>
    exact .cons (imp _ (by simp) _ _ _ first) (ih fun e member => imp e (by simp [member]))

theorem Consecutive.each {P : Element → Segment → Nat → Nat → Prop} {es : List Element}
    {segs : List Segment} {lo hi : Nat} (parts : Consecutive P es segs lo hi) :
    ∀ e ∈ es, ∃ seg lo hi, P e seg lo hi := by
  induction parts with
  | nil lo => simp
  | cons first rest ih =>
    intro e member
    rcases List.mem_cons.1 member with rfl | later
    · exact ⟨_, _, _, first⟩
    · exact ih e later

namespace Network

/-- The segments are joined from left to right; the whole reaches from the first to the last. -/
inductive Chained (net : Network) : List Segment → Segment → Prop
  | single (s : Segment) : Chained net [s] s
  | cons {a b : Segment} {rest : List Segment} {right : Nat}
      (joined : net.out a.right = [.epsilon b.left])
      (later : Chained net (b :: rest) ⟨b.left, right⟩) :
      Chained net (a :: b :: rest) ⟨a.left, right⟩

/-- The characters are spelled from `left` to `right`, each behind a transition that asks for
nothing. -/
inductive Spelled (net : Network) : List Char → Nat → Nat → Prop
  | nil (n : Nat) : Spelled net [] n n
  | cons {c : Char} {cs : List Char} {n right : Nat} (joined : net.out n = [.epsilon (n + 1)])
      (edge : net.out (n + 1) = [⟨n + 2, Layout.atomLabel c.toNat⟩])
      (later : Spelled net cs (n + 2) right) : Spelled net (c :: cs) n right

/-- Every segment ends at `stop`. -/
def EndAt (net : Network) (segs : List Segment) (stop : Nat) : Prop :=
  ∀ s ∈ segs, net.out s.right = [.epsilon stop]

/-- The ways into segments. -/
def waysIn (segs : List Segment) : List Transition := segs.map fun s => .epsilon s.left

/-- One more round first, or the exit first. -/
def inOrder (greedy : Bool) (round exit : List Transition) : List Transition :=
  if greedy then round ++ exit else exit ++ round

/-- A repetition around the segments of its alternatives, the first of its own states being `mid`. -/
inductive Repeated (net : Network) (greedy : Bool) (segs : List Segment) (mid : Nat) :
    Quantifier → Segment → Nat → Prop
  | optional (enters : net.out mid = inOrder greedy (waysIn segs) [.epsilon (mid + 1)])
      (ends : net.EndAt segs (mid + 1)) : Repeated net greedy segs mid .optional ⟨mid, mid + 1⟩ (mid + 2)
  | star (enters : net.out mid = waysIn segs) (ends : net.EndAt segs (mid + 1))
      (stops : net.out (mid + 1) = [.epsilon (mid + 3)])
      (returns : net.out (mid + 3) = [.epsilon (mid + 2)])
      (decides : net.out (mid + 2) = inOrder greedy [.epsilon mid] [.epsilon (mid + 4)]) :
      Repeated net greedy segs mid .star ⟨mid + 2, mid + 4⟩ (mid + 5)
  | plus (enters : net.out mid = waysIn segs) (ends : net.EndAt segs (mid + 1))
      (stops : net.out (mid + 1) = [.epsilon (mid + 2)])
      (decides : net.out (mid + 2) = inOrder greedy [.epsilon mid] [.epsilon (mid + 3)]) :
      Repeated net greedy segs mid .plus ⟨mid, mid + 3⟩ (mid + 4)

/-- The element lies on the states from `lo` up to `hi`, between the ends of the segment. -/
inductive Laid (net : Network) (g : Grammar) (rule : Nat) : Element → Segment → Nat → Nat → Prop
  | leaf {e : Element} {label : Label} {lo : Nat} (labelled : LeafLabel g rule e label)
      (edge : net.out lo = [⟨lo + 1, label⟩]) : Laid net g rule e ⟨lo, lo + 1⟩ lo (lo + 2)
  | call {name : String} {precedence : Int} {callee lo : Nat} (known : g.ruleIndex name = .ok callee)
      (edge : net.out lo = [⟨net.ruleStart callee, .rule callee precedence (lo + 1)⟩]) :
      Laid net g rule (.rule name precedence) ⟨lo, lo + 1⟩ lo (lo + 2)
  | literal {text : String} {lo right : Nat} (lexer : g.isLexer = true)
      (spelled : net.Spelled text.toList lo right) :
      Laid net g rule (.literal text) ⟨lo, right⟩ lo (right + 1)
  | nothing {lo : Nat} (edge : net.out lo = [.epsilon (lo + 1)]) :
      Laid net g rule (.seq []) ⟨lo, lo + 1⟩ lo (lo + 2)
  | seq {es : List Element} {segs : List Segment} {seg : Segment} {lo hi : Nat}
      (parts : Consecutive (Laid net g rule) es segs lo hi) (chained : net.Chained segs seg) :
      Laid net g rule (.seq es) seg lo hi
  | only {e : Element} {seg : Segment} {lo hi : Nat} (part : Laid net g rule e seg lo hi) :
      Laid net g rule (.alt [e]) seg lo hi
  | alt {es : List Element} {segs : List Segment} {lo mid : Nat} (several : 1 < es.length)
      (parts : Consecutive (Laid net g rule) es segs lo mid)
      (enters : net.out mid = waysIn segs) (ends : net.EndAt segs (mid + 1)) :
      Laid net g rule (.alt es) ⟨mid, mid + 1⟩ lo (mid + 2)
  | repeated {q : Quantifier} {greedy : Bool} {body : Element} {segs : List Segment} {seg : Segment}
      {lo mid hi : Nat} (parts : Consecutive (Laid net g rule) body.branches segs lo mid)
      (around : net.Repeated greedy segs mid q seg hi) :
      Laid net g rule (.repeated q greedy body) seg lo hi

variable {net : Network} {g : Grammar} {rule : Nat}

/-- Induction over a laid out element: what is known of the parts is known of each in its interval. -/
theorem Laid.elim {P : Element → Segment → Nat → Nat → Prop}
    (leaf : ∀ {e label lo}, LeafLabel g rule e label → net.out lo = [⟨lo + 1, label⟩] →
      P e ⟨lo, lo + 1⟩ lo (lo + 2))
    (call : ∀ {name precedence callee lo}, g.ruleIndex name = .ok callee →
      net.out lo = [⟨net.ruleStart callee, .rule callee precedence (lo + 1)⟩] →
      P (.rule name precedence) ⟨lo, lo + 1⟩ lo (lo + 2))
    (literal : ∀ {text lo right}, g.isLexer = true → net.Spelled text.toList lo right →
      P (.literal text) ⟨lo, right⟩ lo (right + 1))
    (nothing : ∀ {lo}, net.out lo = [.epsilon (lo + 1)] → P (.seq []) ⟨lo, lo + 1⟩ lo (lo + 2))
    (seq : ∀ {es segs seg lo hi}, Consecutive P es segs lo hi → net.Chained segs seg →
      P (.seq es) seg lo hi)
    (only : ∀ {e seg lo hi}, P e seg lo hi → P (.alt [e]) seg lo hi)
    (alt : ∀ {es segs lo mid}, 1 < es.length → Consecutive P es segs lo mid →
      net.out mid = waysIn segs → net.EndAt segs (mid + 1) → P (.alt es) ⟨mid, mid + 1⟩ lo (mid + 2))
    (repeated : ∀ {q greedy body segs seg lo mid hi}, Consecutive P body.branches segs lo mid →
      net.Repeated greedy segs mid q seg hi → P (.repeated q greedy body) seg lo hi)
    {e : Element} {seg : Segment} {lo hi : Nat} (laid : Laid net g rule e seg lo hi) :
    P e seg lo hi := by
  refine @Laid.rec net g rule (fun e seg lo hi _ => P e seg lo hi)
    (fun es segs lo hi _ => Consecutive P es segs lo hi) ?_ ?_ ?_ ?_ ?_ ?_ ?_ ?_ ?_ ?_ e seg lo hi laid
  · exact leaf
  · exact call
  · exact literal
  · exact nothing
  · exact fun _ chained parts => seq parts chained
  · exact fun _ part => only part
  · exact fun several _ enters ends parts => alt several parts enters ends
  · exact fun _ around parts => repeated parts around
  · exact Consecutive.nil
  · exact fun _ _ first rest => .cons first rest

/-! ## What leaves a state of an element -/

/-- A transition that stays between `lo` and `hi`: a call names a rule of the grammar and returns
there, any other leads there. -/
structure Stays (net : Network) (g : Grammar) (lo hi : Nat) (t : Transition) : Prop where
  call : ∀ r p follow, t.label = .rule r p follow →
    r < g.rules.length ∧ t.target = net.ruleStart r ∧ lo ≤ follow ∧ follow < hi
  other : (∀ r p follow, t.label ≠ .rule r p follow) → lo ≤ t.target ∧ t.target < hi

/-- A state has one way to go on, or several that ask for nothing. -/
def OneWay (ts : List Transition) : Prop := (∃ t, ts = [t]) ∨ ∀ t ∈ ts, t.label = .epsilon none

/-- The transitions that leave a state stay between `lo` and `hi`, and those that ask for something
stand alone. -/
structure Within (net : Network) (g : Grammar) (lo hi n : Nat) : Prop where
  stays : ∀ t ∈ net.out n, net.Stays g lo hi t
  oneWay : OneWay (net.out n)

theorem Stays.mono {lo hi lo' hi' : Nat} {t : Transition} (stays : net.Stays g lo hi t)
    (low : lo' ≤ lo) (high : hi ≤ hi') : net.Stays g lo' hi' t := by
  refine ⟨fun r p follow same => ?_, fun plain => ?_⟩
  · obtain ⟨known, target, above, below⟩ := stays.call r p follow same
    exact ⟨known, target, by omega, by omega⟩
  · have := stays.other plain
    omega

theorem stays_of_plain {lo hi : Nat} {t : Transition} (plain : ∀ r p follow, t.label ≠ .rule r p follow)
    (low : lo ≤ t.target) (high : t.target < hi) : net.Stays g lo hi t :=
  ⟨fun r p follow same => absurd same (plain r p follow), fun _ => ⟨low, high⟩⟩

theorem Within.mono {lo hi lo' hi' n : Nat} (within : net.Within g lo hi n) (low : lo' ≤ lo)
    (high : hi ≤ hi') : net.Within g lo' hi' n :=
  ⟨fun t member => (within.stays t member).mono low high, within.oneWay⟩

theorem within_plain {lo hi n m : Nat} {label : Label} (out : net.out n = [⟨m, label⟩])
    (plain : ∀ r p follow, label ≠ .rule r p follow) (low : lo ≤ m) (high : m < hi) :
    net.Within g lo hi n := by
  refine ⟨fun t member => ?_, .inl ⟨_, out⟩⟩
  rw [out, List.mem_singleton] at member
  subst member
  exact stays_of_plain plain low high

theorem within_epsilon {lo hi n m : Nat} (out : net.out n = [.epsilon m]) (low : lo ≤ m)
    (high : m < hi) : net.Within g lo hi n :=
  within_plain out (by simp) low high

theorem within_epsilons {lo hi n : Nat} {targets : List Nat}
    (out : net.out n = targets.map .epsilon) (inside : ∀ m ∈ targets, lo ≤ m ∧ m < hi) :
    net.Within g lo hi n := by
  refine ⟨fun t member => ?_, .inr fun t member => ?_⟩
  all_goals
    rw [out] at member
    obtain ⟨m, among, rfl⟩ := List.mem_map.1 member
  · exact stays_of_plain (by simp [Transition.epsilon]) (inside m among).1 (inside m among).2
  · rfl

/-- The transitions of a laid out element stay within its states, which its ends belong to. -/
structure Inside (net : Network) (g : Grammar) (seg : Segment) (lo hi : Nat) : Prop where
  left : lo ≤ seg.left ∧ seg.left < hi
  right : lo ≤ seg.right ∧ seg.right < hi
  within : ∀ n, lo ≤ n → n < hi → n ≠ seg.right → net.Within g lo hi n

theorem inside_all {es : List Element} {segs : List Segment} {lo hi : Nat}
    (parts : Consecutive (fun _ seg lo hi => net.Inside g seg lo hi) es segs lo hi) :
    lo ≤ hi ∧ (∀ s ∈ segs, lo ≤ s.left ∧ s.left < hi ∧ lo ≤ s.right ∧ s.right < hi) ∧
      ∀ n, lo ≤ n → n < hi → (∀ s ∈ segs, n ≠ s.right) → net.Within g lo hi n := by
  induction parts with
  | nil lo => exact ⟨Nat.le_refl _, by simp, fun n above below => by omega⟩
  | cons first rest ih =>
    obtain ⟨rest_le, restEnds, restWithin⟩ := ih
    have left := first.left
    have right := first.right
    refine ⟨by omega, ?_, ?_⟩
    · intro s member
      rcases List.mem_cons.1 member with rfl | later
      · omega
      · have := restEnds s later
        omega
    · rename_i mid hi
      intro n above below apart
      rcases Nat.lt_or_ge n mid with early | late
      · exact (first.within n above early (apart _ (by simp))).mono (Nat.le_refl _) rest_le
      · exact (restWithin n late below fun s later => apart s (by simp [later])).mono (by omega)
          (Nat.le_refl _)

theorem Spelled.inside {cs : List Char} {left right : Nat} (spelled : net.Spelled cs left right) :
    left ≤ right ∧ ∀ n, left ≤ n → n < right → net.Within g left (right + 1) n := by
  induction spelled with
  | nil n => exact ⟨Nat.le_refl n, fun m above below => by omega⟩
  | cons joined edge later ih =>
    rename_i c cs n right
    obtain ⟨le, within⟩ := ih
    refine ⟨by omega, fun m above below => ?_⟩
    rcases Nat.lt_or_ge m (n + 2) with early | late
    · obtain rfl | rfl : m = n ∨ m = n + 1 := by omega
      · exact within_epsilon joined (by omega) (by omega)
      · exact within_plain edge (Layout.atomLabel_plain _) (by omega) (by omega)
    · exact (within m late below).mono (by omega) (Nat.le_refl _)

theorem Chained.inside {es : List Element} {segs : List Segment} {seg : Segment} {lo hi : Nat}
    (chained : net.Chained segs seg)
    (parts : Consecutive (fun _ seg lo hi => net.Inside g seg lo hi) es segs lo hi) :
    net.Inside g seg lo hi := by
  induction chained generalizing es lo with
  | single s =>
    cases parts with
    | cons first rest =>
      cases rest
      exact first
  | cons joined later ih =>
    cases parts with
    | cons first rest =>
      rename_i a b ss right es' e mid
      have inner := ih rest
      have left := first.left
      have right := first.right
      have innerLeft := inner.left
      have innerRight := inner.right
      refine ⟨by simp only []; omega, by simp only [] at innerRight ⊢; omega, ?_⟩
      intro n above below apart
      rcases Nat.lt_or_ge n mid with early | late
      · by_cases isEnd : n = a.right
        · subst isEnd
          exact within_epsilon joined (by simp only [] at innerLeft; omega)
            (by simp only [] at innerLeft; omega)
        · exact (first.within n above early isEnd).mono (Nat.le_refl _) (by omega)
      · exact (inner.within n late below apart).mono (by omega) (Nat.le_refl _)

theorem inOrder_epsilons (greedy : Bool) (round exit : List Nat) :
    inOrder greedy (round.map .epsilon) (exit.map .epsilon) =
      (if greedy then round ++ exit else exit ++ round).map .epsilon := by
  cases greedy <;> simp [inOrder]

theorem Repeated.inside {es : List Element} {segs : List Segment} {seg : Segment} {lo mid hi : Nat}
    {q : Quantifier} {greedy : Bool} (around : net.Repeated greedy segs mid q seg hi)
    (parts : Consecutive (fun _ seg lo hi => net.Inside g seg lo hi) es segs lo mid) :
    net.Inside g seg lo hi := by
  obtain ⟨le, ends, within⟩ := inside_all parts
  have ways : waysIn segs = (segs.map (·.left)).map .epsilon := by simp [waysIn]
  have lefts : ∀ m ∈ segs.map (·.left), lo ≤ m ∧ m < mid := by
    intro m member
    obtain ⟨s, among, rfl⟩ := List.mem_map.1 member
    exact ⟨(ends s among).1, (ends s among).2.1⟩
  have low {stop : Nat} (stops : net.EndAt segs stop) (above : lo ≤ stop) (below : stop < hi)
      (room : mid ≤ hi) : ∀ n, lo ≤ n → n < mid → net.Within g lo hi n := by
    intro n above' below'
    by_cases isEnd : ∃ s ∈ segs, n = s.right
    · obtain ⟨s, among, rfl⟩ := isEnd
      exact within_epsilon (stops s among) above below
    · exact (within n above' below' fun s among same => isEnd ⟨s, among, same⟩).mono
        (Nat.le_refl _) room
  cases around with
  | optional enters stops =>
    refine ⟨by simp only []; omega, by simp only []; omega, fun n above below apart => ?_⟩
    rcases Nat.lt_or_ge n mid with early | late
    · exact low stops (by omega) (by omega) (by omega) n above early
    · obtain rfl : n = mid := by simp only [] at apart; omega
      rw [ways, show [Transition.epsilon (n + 1)] = [n + 1].map .epsilon from rfl,
        inOrder_epsilons] at enters
      refine within_epsilons enters fun m member => ?_
      have : m ∈ segs.map (·.left) ∨ m = n + 1 := by
        cases greedy <;> simpa [or_comm] using member
      rcases this with among | rfl
      · have := lefts m among
        omega
      · omega
  | star enters stops ended returns decides =>
    refine ⟨by simp only []; omega, by simp only []; omega, fun n above below apart => ?_⟩
    rcases Nat.lt_or_ge n mid with early | late
    · exact low stops (by omega) (by omega) (by omega) n above early
    · obtain rfl | rfl | rfl | rfl : n = mid ∨ n = mid + 1 ∨ n = mid + 2 ∨ n = mid + 3 := by
        simp only [] at apart
        omega
      · rw [ways] at enters
        refine within_epsilons enters fun m member => ?_
        have := lefts m member
        omega
      · exact within_epsilon ended (by omega) (by omega)
      · rw [show [Transition.epsilon mid] = [mid].map .epsilon from rfl,
          show [Transition.epsilon (mid + 4)] = [mid + 4].map .epsilon from rfl,
          inOrder_epsilons] at decides
        refine within_epsilons decides fun m member => ?_
        have : m = mid ∨ m = mid + 4 := by
          cases greedy <;> simpa [or_comm] using member
        omega
      · exact within_epsilon returns (by omega) (by omega)
  | plus enters stops ended decides =>
    refine ⟨by simp only []; omega, by simp only []; omega, fun n above below apart => ?_⟩
    rcases Nat.lt_or_ge n mid with early | late
    · exact low stops (by omega) (by omega) (by omega) n above early
    · obtain rfl | rfl | rfl : n = mid ∨ n = mid + 1 ∨ n = mid + 2 := by
        simp only [] at apart
        omega
      · rw [ways] at enters
        refine within_epsilons enters fun m member => ?_
        have := lefts m member
        omega
      · exact within_epsilon ended (by omega) (by omega)
      · rw [show [Transition.epsilon mid] = [mid].map .epsilon from rfl,
          show [Transition.epsilon (mid + 3)] = [mid + 3].map .epsilon from rfl,
          inOrder_epsilons] at decides
        refine within_epsilons decides fun m member => ?_
        have : m = mid ∨ m = mid + 3 := by
          cases greedy <;> simpa [or_comm] using member
        omega

/-- The transitions of a laid out element stay within its states. -/
theorem Laid.inside {e : Element} {seg : Segment} {lo hi : Nat} (laid : net.Laid g rule e seg lo hi) :
    net.Inside g seg lo hi := by
  -- Of an element of two states only the first has to be looked at.
  have pair {lo : Nat} (within : net.Within g lo (lo + 2) lo) :
      net.Inside g ⟨lo, lo + 1⟩ lo (lo + 2) := by
    refine ⟨by simp only []; omega, by simp only []; omega, fun n above below apart => ?_⟩
    obtain rfl : n = lo := by simp only [] at apart; omega
    exact within
  refine laid.elim (P := fun _ seg lo hi => net.Inside g seg lo hi) ?_ ?_ ?_ ?_ ?_ ?_ ?_ ?_
  · intro e label lo labelled edge
    exact pair (within_plain edge labelled.plain (by omega) (by omega))
  · intro name precedence callee lo known edge
    refine pair ⟨fun t member => ?_, .inl ⟨_, edge⟩⟩
    rw [edge, List.mem_singleton] at member
    subst member
    refine ⟨fun r p follow same => ?_, fun plain => absurd rfl (plain _ _ _)⟩
    cases same
    exact ⟨g.ruleIndex_lt known, rfl, by omega, by omega⟩
  · intro text lo right lexer spelled
    obtain ⟨le, within⟩ := spelled.inside (g := g)
    exact ⟨by simp only []; omega, by simp only []; omega,
      fun n above below apart => within n above (by simp only [] at apart; omega)⟩
  · intro lo edge
    exact pair (within_epsilon edge (by omega) (by omega))
  · intro es segs seg lo hi parts chained
    exact chained.inside parts
  · intro e seg lo hi part
    exact part
  · intro es segs lo mid _ parts enters ends
    obtain ⟨le, bounds, within⟩ := inside_all parts
    refine ⟨by simp only []; omega, by simp only []; omega, fun n above below apart => ?_⟩
    rcases Nat.lt_or_ge n mid with early | late
    · by_cases isEnd : ∃ s ∈ segs, n = s.right
      · obtain ⟨s, among, rfl⟩ := isEnd
        exact within_epsilon (ends s among) (by omega) (by omega)
      · exact (within n above early fun s among same => isEnd ⟨s, among, same⟩).mono
          (Nat.le_refl _) (by omega)
    · obtain rfl : n = mid := by simp only [] at apart; omega
      rw [show waysIn segs = (segs.map (·.left)).map .epsilon by simp [waysIn]] at enters
      refine within_epsilons enters fun m member => ?_
      obtain ⟨s, among, rfl⟩ := List.mem_map.1 member
      have := bounds s among
      omega
  · intro q greedy body segs seg lo mid hi parts around
    exact around.inside parts

end Network

end AdaptiveLL
