import AdaptiveLL.Proofs.Grammar.Built
import AdaptiveLL.Proofs.Grammar.Equipment
import AdaptiveLL.Proofs.Network.Bounded

/-!
# Labels and leaves

In the network of a grammar, a transition that asks for something was made for a leaf of a rule (`LaidOut.asked`): it is
the one transition of the leaf, the call of a rule, or one character of a text. Every symbol that is the greatest of a
leaf is the greatest of some label (`LaidOut.names`), and in the network of a lexer there are no other greatest symbols.
-/

set_option autoImplicit false

namespace AdaptiveLL

/-- The greatest symbol that a leaf names; in a text, every character. -/
def Element.greatest : Element → List Int
  | .symbol v | .range _ v => [v]
  | .literal text => text.toList.map fun c => (c.toNat : Int)
  | .set s | .notSet s => s.max?.toList
  | _ => []

theorem Element.mem_leavesAll {leaf : Element} {es : List Element} :
    leaf ∈ leavesAll es ↔ ∃ e ∈ es, leaf ∈ leaves e := by
  induction es with
  | nil => simp [leavesAll]
  | cons e es ih => simp [leavesAll, ih]

namespace Layout

theorem greatest_atomLabel (v : Int) : (atomLabel v).greatest? = some v := by
  unfold atomLabel
  split
  · simp [Label.greatest?, SymbolSet.singleton, SymbolSet.ofRange, SymbolSet.addRange, SymbolSet.empty,
      SymbolSet.insertInterval, SymbolSet.max?]
  · rfl

theorem greatest_rangeLabel {lo hi : Int} (inhabited : lo ≤ hi) : (rangeLabel lo hi).greatest? = some hi := by
  unfold rangeLabel
  split
  · rename_i same
    rw [greatest_atomLabel, same]
  · split
    · rw [Label.greatest?, SymbolSet.ofRange, SymbolSet.addRange, if_neg (by omega)]
      rfl
    · rfl

end Layout

open Layout

/-- The greatest symbol of a leaf of a lexer is that of its label. -/
theorem LeafLabel.greatest {g : Grammar} {rule : Nat} {e : Element} {label : Label} (lexer : g.isLexer = true)
    (labelled : LeafLabel g rule e label) {v : Int} (among : v ∈ e.greatest) : label.greatest? = some v := by
  cases labelled with
  | symbol w =>
    obtain rfl := List.mem_singleton.1 among
    exact greatest_atomLabel v
  | range inhabited =>
    obtain rfl := List.mem_singleton.1 among
    exact greatest_rangeLabel inhabited
  | literal parser known =>
    rw [lexer] at parser
    cases parser
  | set s | notSet s => exact Option.mem_toList.1 among
  | _ => cases among

/-- The label of a transition that a leaf is laid out with. -/
inductive Asks (g : Grammar) (rule : Nat) : Element → Label → Prop
  | edge {e : Element} {label : Label} (labelled : LeafLabel g rule e label) : Asks g rule e label
  | call {name : String} {callee : Nat} (precedence : Int) (follow : Nat) (known : g.ruleIndex name = .ok callee) :
      Asks g rule (.rule name precedence) (.rule callee precedence follow)
  | char {text : String} {c : Char} (lexer : g.isLexer = true) (among : c ∈ text.toList) :
      Asks g rule (.literal text) (atomLabel c.toNat)

namespace Network

variable {net : Network} {g : Grammar} {rule : Nat}

/-! ## Every label is that of a leaf -/

/-- What leaves the state asks for nothing, or one of the leaves asks for it. -/
def Asked (net : Network) (g : Grammar) (rule : Nat) (leaves : List Element) (n : Nat) : Prop :=
  ∀ t ∈ net.out n, t.label = .epsilon none ∨ ∃ e ∈ leaves, Asks g rule e t.label

theorem Asked.mono {leaves more : List Element} {n : Nat} (asked : net.Asked g rule leaves n) (le : leaves ⊆ more) :
    net.Asked g rule more n := by
  intro t member
  exact (asked t member).imp_right fun ⟨e, among, asks⟩ => ⟨e, le among, asks⟩

theorem asked_silent {leaves : List Element} {n : Nat} (targets : List Nat) (out : net.out n = targets.map .epsilon) :
    net.Asked g rule leaves n := by
  intro t member
  rw [out] at member
  obtain ⟨m, -, rfl⟩ := List.mem_map.1 member
  exact .inl rfl

theorem asked_epsilon {leaves : List Element} {n m : Nat} (out : net.out n = [.epsilon m]) :
    net.Asked g rule leaves n := asked_silent [m] out

theorem asked_single {leaves : List Element} {e : Element} {n : Nat} {t : Transition} (out : net.out n = [t])
    (among : e ∈ leaves) (asks : Asks g rule e t.label) : net.Asked g rule leaves n := by
  intro t' member
  rw [out, List.mem_singleton] at member
  exact .inr ⟨e, among, member ▸ asks⟩

theorem Spelled.asked {text : String} (lexer : g.isLexer = true) {cs : List Char} {left right : Nat}
    (spelled : net.Spelled cs left right) (among : cs ⊆ text.toList) :
    ∀ n, left ≤ n → n < right → net.Asked g rule [.literal text] n := by
  induction spelled with
  | nil n => exact fun m low high => by omega
  | @cons c cs n right joined edge later ih =>
    intro m low high
    rcases Nat.lt_or_ge m (n + 2) with early | late
    · obtain rfl | rfl : m = n ∨ m = n + 1 := by omega
      · exact asked_epsilon joined
      · exact asked_single edge (List.mem_singleton_self _) (.char lexer (among List.mem_cons_self))
    · exact ih (fun c member => among (List.mem_cons_of_mem _ member)) m late high

/-- Between the ends of the parts, the leaves of the parts ask. -/
theorem asked_parts {es : List Element} {segs : List Segment} {lo hi : Nat}
    (parts : Consecutive (fun e seg lo hi => ∀ n, lo ≤ n → n < hi → n ≠ seg.right → net.Asked g rule e.leaves n)
      es segs lo hi) :
    ∀ n, lo ≤ n → n < hi → (∀ s ∈ segs, n ≠ s.right) → net.Asked g rule (Element.leavesAll es) n := by
  induction parts with
  | nil lo => exact fun n low high => by omega
  | @cons e es s ss lo mid hi first rest ih =>
    intro n low high apart
    rcases Nat.lt_or_ge n mid with early | late
    · exact (first n low early (apart s List.mem_cons_self)).mono (List.subset_append_left _ _)
    · have later := ih n late high fun s' member => apart s' (List.mem_cons_of_mem _ member)
      exact later.mono (List.subset_append_right _ _)

/-- From the end of a part, but for one end, a transition that asks for nothing leads on. -/
def Linked (net : Network) (segs : List Segment) (right : Nat) : Prop :=
  ∀ s ∈ segs, s.right = right ∨ ∃ m, net.out s.right = [.epsilon m]

theorem Chained.linked {segs : List Segment} {seg : Segment} (chained : net.Chained segs seg) :
    net.Linked segs seg.right := by
  induction chained with
  | single s => exact fun s' member => .inl (by rw [List.mem_singleton.1 member])
  | cons joined later ih =>
    intro s member
    rcases List.mem_cons.1 member with rfl | among
    · exact .inr ⟨_, joined⟩
    · exact ih s among

theorem EndAt.linked {segs : List Segment} {stop right : Nat} (ends : net.EndAt segs stop) :
    net.Linked segs right := fun s member => .inr ⟨stop, ends s member⟩

theorem Linked.asked {es : List Element} {segs : List Segment} {lo hi right : Nat} (linked : net.Linked segs right)
    (parts : Consecutive (fun e seg lo hi => ∀ n, lo ≤ n → n < hi → n ≠ seg.right → net.Asked g rule e.leaves n)
      es segs lo hi) :
    ∀ n, lo ≤ n → n < hi → n ≠ right → net.Asked g rule (Element.leavesAll es) n := by
  intro n low high apart
  by_cases isEnd : ∃ s ∈ segs, n = s.right
  · obtain ⟨s, member, rfl⟩ := isEnd
    obtain ⟨m, out⟩ := (linked s member).resolve_left apart
    exact asked_epsilon out
  · exact asked_parts parts n low high fun s member same => isEnd ⟨s, member, same⟩

/-- The states of a repetition itself ask for nothing. -/
theorem Repeated.silent {q : Quantifier} {greedy : Bool} {segs : List Segment} {seg : Segment} {mid hi : Nat}
    (around : net.Repeated greedy segs mid q seg hi) {n : Nat} (low : mid ≤ n) (high : n < hi) (apart : n ≠ seg.right) :
    ∃ targets : List Nat, net.out n = targets.map .epsilon := by
  have ways : waysIn segs = (segs.map (·.left)).map .epsilon := by simp [waysIn]
  cases around with
  | optional enters ends =>
    obtain rfl : n = mid := by simp only [] at apart; omega
    rw [enters, ways, show [Transition.epsilon (n + 1)] = [n + 1].map .epsilon from rfl, inOrder_epsilons]
    exact ⟨_, rfl⟩
  | star enters ends stops returns decides =>
    obtain rfl | rfl | rfl | rfl : n = mid ∨ n = mid + 1 ∨ n = mid + 2 ∨ n = mid + 3 := by
      simp only [] at apart
      omega
    · exact ⟨_, enters.trans ways⟩
    · exact ⟨[mid + 3], stops⟩
    · rw [decides, show [Transition.epsilon mid] = [mid].map .epsilon from rfl,
        show [Transition.epsilon (mid + 4)] = [mid + 4].map .epsilon from rfl, inOrder_epsilons]
      exact ⟨_, rfl⟩
    · exact ⟨[mid + 2], returns⟩
  | plus enters ends stops decides =>
    obtain rfl | rfl | rfl : n = mid ∨ n = mid + 1 ∨ n = mid + 2 := by
      simp only [] at apart
      omega
    · exact ⟨_, enters.trans ways⟩
    · exact ⟨[mid + 2], stops⟩
    · rw [decides, show [Transition.epsilon mid] = [mid].map .epsilon from rfl,
        show [Transition.epsilon (mid + 3)] = [mid + 3].map .epsilon from rfl, inOrder_epsilons]
      exact ⟨_, rfl⟩

theorem Repeated.linked {q : Quantifier} {greedy : Bool} {segs : List Segment} {seg : Segment} {mid hi right : Nat}
    (around : net.Repeated greedy segs mid q seg hi) : net.Linked segs right := by
  cases around with
  | optional enters ends => exact ends.linked
  | star enters ends stops returns decides => exact ends.linked
  | plus enters ends stops decides => exact ends.linked

/-- But for its right end, the states of an element ask for nothing else than its leaves. -/
theorem Laid.asked {e : Element} {seg : Segment} {lo hi : Nat} (laid : net.Laid g rule e seg lo hi) :
    ∀ n, lo ≤ n → n < hi → n ≠ seg.right → net.Asked g rule e.leaves n := by
  -- The right end is left out: what leaves it belongs to whatever surrounds the element.
  refine laid.elim (P := fun e seg lo hi => ∀ n, lo ≤ n → n < hi → n ≠ seg.right → net.Asked g rule e.leaves n)
    ?_ ?_ ?_ ?_ ?_ ?_ ?_ ?_
  · intro e label lo labelled edge n low high apart
    obtain rfl : n = lo := by simp only [] at apart; omega
    have isLeaf : e.leaves = [e] := by cases labelled <;> rfl
    rw [isLeaf]
    exact asked_single edge (List.mem_singleton_self e) (.edge labelled)
  · intro name precedence callee lo known edge n low high apart
    obtain rfl : n = lo := by simp only [] at apart; omega
    exact asked_single edge (List.mem_singleton_self _) (.call precedence (n + 1) known)
  · intro text lo right lexer spelled n low high apart
    exact spelled.asked lexer (List.Subset.refl _) n low (by simp only [] at apart; omega)
  · intro lo edge n low high apart
    obtain rfl : n = lo := by simp only [] at apart; omega
    exact asked_epsilon edge
  · intro es segs seg lo hi parts chained
    exact chained.linked.asked parts
  · intro e seg lo hi part n low high apart
    exact (part n low high apart).mono (by simp [Element.leaves, Element.leavesAll])
  · intro es segs lo mid _ parts enters ends n low high apart
    rcases Nat.lt_or_ge n mid with early | late
    · exact ends.linked.asked parts n low early apart
    · obtain rfl : n = mid := by simp only [] at apart; omega
      exact asked_silent (segs.map (·.left)) (by simp [enters, waysIn])
  · intro q greedy body segs seg lo mid hi parts around n low high apart
    rcases Nat.lt_or_ge n mid with early | late
    · have asked := around.linked.asked parts n low early apart
      rwa [Element.leaves_branches] at asked
    · obtain ⟨targets, out⟩ := around.silent late high apart
      exact asked_silent targets out

/-- Every transition asks for nothing, or for what a leaf of a rule asks for. -/
theorem LaidOut.asked (laid : net.LaidOut g) {n : Nat} {t : Transition} (leaves : t ∈ net.out n) :
    t.label = .epsilon none ∨
      ∃ i r, g.rules[i]? = some r ∧ ∃ e ∈ r.body.leaves, Asks g i e t.label := by
  rcases laid.out_cases leaves with ⟨i, r, seg, lo, hi, -, -, -, -, rfl⟩ | ⟨mode, -, -, -, r, -, rfl⟩ |
    ⟨i, r, seg, lo, hi, found, body, low, high, ⟨apart, -⟩ | ⟨-, -, rfl⟩⟩
  · exact .inl rfl
  · exact .inl rfl
  · exact (body.laid.asked n low high apart t leaves).imp_right fun asked => ⟨i, r, found, asked⟩
  · exact .inl rfl

/-! ## Every greatest symbol is named -/

/-- Every greatest symbol of the leaves is that of a label. -/
def NamesGreatest (net : Network) (leaves : List Element) : Prop :=
  ∀ leaf ∈ leaves, ∀ v ∈ leaf.greatest, ∃ n, ∃ t ∈ net.out n, t.label.greatest? = some v

theorem Spelled.names {cs : List Char} {left right : Nat} (spelled : net.Spelled cs left right) {c : Char}
    (among : c ∈ cs) : ∃ n, ∃ t ∈ net.out n, t.label.greatest? = some (c.toNat : Int) := by
  induction spelled with
  | nil n => cases among
  | @cons c' cs n right joined edge later ih =>
    rcases List.mem_cons.1 among with rfl | rest
    · exact ⟨n + 1, _, by rw [edge]; exact List.mem_singleton_self _, greatest_atomLabel _⟩
    · exact ih rest

theorem names_all {es : List Element} {segs : List Segment} {lo hi : Nat}
    (parts : Consecutive (fun e _ _ _ => net.NamesGreatest e.leaves) es segs lo hi) : net.NamesGreatest (Element.leavesAll es) := by
  intro leaf member
  obtain ⟨e, among, inside⟩ := Element.mem_leavesAll.1 member
  obtain ⟨_, _, _, names⟩ := parts.each e among
  exact names leaf inside

theorem Laid.names (lexer : g.isLexer = true) {e : Element} {seg : Segment} {lo hi : Nat}
    (laid : net.Laid g rule e seg lo hi) : net.NamesGreatest e.leaves := by
  refine laid.elim (P := fun e _ _ _ => net.NamesGreatest e.leaves) ?_ ?_ ?_ ?_ ?_ ?_ ?_ ?_
  · intro e label lo labelled edge
    have isLeaf : e.leaves = [e] := by cases labelled <;> rfl
    rw [isLeaf]
    intro leaf member v among
    obtain rfl := List.mem_singleton.1 member
    exact ⟨lo, _, by rw [edge]; exact List.mem_singleton_self _, labelled.greatest lexer among⟩
  · intro name precedence callee lo known edge leaf member v among
    obtain rfl := List.mem_singleton.1 member
    cases among
  · intro text lo right _ spelled leaf member v among
    obtain rfl := List.mem_singleton.1 member
    obtain ⟨c, inside, rfl⟩ := List.mem_map.1 among
    exact spelled.names inside
  · exact fun _ leaf member => by cases member
  · exact fun parts _ => names_all parts
  · exact fun part => by simpa [Element.leaves, Element.leavesAll] using part
  · exact fun _ parts _ _ => names_all parts
  · intro q greedy body segs seg lo mid hi parts _
    have names := names_all parts
    rwa [Element.leaves_branches] at names

theorem LaidOut.names (laid : net.LaidOut g) (lexer : g.isLexer = true) {r : RuleDef} (member : r ∈ g.rules) :
    net.NamesGreatest r.body.leaves := by
  obtain ⟨i, found⟩ := List.mem_iff_getElem?.1 member
  obtain ⟨seg, lo, hi, body⟩ := laid.body i r found
  exact body.laid.names lexer

end Network

end AdaptiveLL
