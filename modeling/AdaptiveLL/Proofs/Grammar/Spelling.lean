import AdaptiveLL.Proofs.Grammar.Denotation
import AdaptiveLL.Proofs.Network.Threads
import AdaptiveLL.Proofs.Symbols.Canonical

/-!
# Denoted words are spelled

Wherever an element lies in the network of its grammar, each word that it denotes is spelled by a path from
the left end of its segment to the right end (`Denotes.path`). The argument goes along the derivation of
the word, so a reference to a rule is followed through the body of the rule. An alternative and the body of
a repetition are laid out as branches without a segment of their own; `Spells` is therefore about some
branch of the element.
-/

set_option autoImplicit false

namespace AdaptiveLL

/-! ## What a single edge reads -/

namespace Layout

theorem accepts_atomLabel {v symbol least greatest : Int} :
    (atomLabel v).accepts symbol least greatest = true ↔ symbol = v := by
  unfold atomLabel
  split
  · exact SymbolSet.contains_singleton v symbol
  · rw [Label.accepts, beq_iff_eq, eq_comm]

theorem accepts_rangeLabel {lo hi symbol least greatest : Int} :
    (rangeLabel lo hi).accepts symbol least greatest = true ↔ lo ≤ symbol ∧ symbol ≤ hi := by
  unfold rangeLabel
  split
  · rw [accepts_atomLabel]
    omega
  · split
    · exact SymbolSet.contains_ofRange lo hi symbol
    · simp [Label.accepts]

end Layout

/-- The word is what an edge with the label reads: nothing, or one symbol. -/
inductive Label.Takes (label : Label) (least greatest : Int) : List Int → Prop
  | nothing (free : label.isEpsilon = true) : Takes label least greatest []
  | one {symbol : Int} (accepts : label.accepts symbol least greatest = true) :
      Takes label least greatest [symbol]

namespace LeafLabel

variable {g : Grammar} {rule : Nat} {e : Element} {label : Label} {least greatest : Int}

/-- The edge of a leaf reads what the leaf denotes. -/
theorem takes {w : List Int} (labelled : LeafLabel g rule e label) (denotes : g.Denotes least greatest e w) :
    label.Takes least greatest w := by
  cases labelled with
  | symbol v =>
    cases denotes
    exact .one (Layout.accepts_atomLabel.2 rfl)
  | token known =>
    cases denotes with
    | token known' =>
      rw [known] at known'
      cases known'
      exact .one (Layout.accepts_atomLabel.2 rfl)
  | literal parser known =>
    cases denotes with
    | chars lexer =>
      rw [parser] at lexer
      cases lexer
    | literal parser' known' =>
      rw [known] at known'
      cases known'
      exact .one (Layout.accepts_atomLabel.2 rfl)
  | range inhabited =>
    cases denotes with
    | range above below => exact .one (Layout.accepts_rangeLabel.2 ⟨above, below⟩)
  | set s =>
    cases denotes with
    | set member => exact .one member
  | notSet s =>
    cases denotes with
    | notSet above below apart => exact .one (by simp [Label.accepts, above, below, apart])
  | wildcard =>
    cases denotes with
    | wildcard above below => exact .one (by simp [Label.accepts, above, below])
  | eof =>
    cases denotes
    exact .one (by simp [Label.accepts])
  | _ =>
    cases denotes
    exact .nothing rfl

/-- A leaf whose edge reads nothing denotes the empty word. -/
theorem denotes_nothing (labelled : LeafLabel g rule e label) (free : label.isEpsilon = true) :
    g.Denotes least greatest e [] := by
  cases labelled with
  | predicate pred ctx => exact .predicate pred ctx
  | precedence p => exact .precedence p
  | action i place => exact .action i
  | command a place => exact .command a
  | symbol _ | token _ | literal _ _ => simp [Layout.atomLabel_consumes] at free
  | range _ => simp [Layout.rangeLabel_consumes] at free
  | _ => cases free

/-- A leaf denotes the symbols that its edge accepts. -/
theorem denotes_one {symbol : Int} (labelled : LeafLabel g rule e label)
    (accepts : label.accepts symbol least greatest = true) : g.Denotes least greatest e [symbol] := by
  cases labelled with
  | symbol v =>
    obtain rfl := Layout.accepts_atomLabel.1 accepts
    exact .symbol symbol
  | token known =>
    obtain rfl := Layout.accepts_atomLabel.1 accepts
    exact .token known
  | literal parser known =>
    obtain rfl := Layout.accepts_atomLabel.1 accepts
    exact .literal parser known
  | range inhabited =>
    obtain ⟨above, below⟩ := Layout.accepts_rangeLabel.1 accepts
    exact .range above below
  | set s => exact .set accepts
  | notSet s =>
    simp only [Label.accepts, Bool.and_eq_true, decide_eq_true_eq, Bool.not_eq_true'] at accepts
    obtain ⟨⟨above, below⟩, apart⟩ := accepts
    exact .notSet above below apart
  | wildcard =>
    obtain ⟨above, below⟩ := of_decide_eq_true accepts
    exact .wildcard above below
  | eof =>
    obtain rfl := eq_of_beq accepts
    exact .eof
  | _ => cases accepts

end LeafLabel

/-- Is the element laid out as one edge that is no call? -/
def Element.isLeaf (lexer : Bool) : Element → Bool
  | .literal _ => !lexer
  | .rule _ _ | .seq _ | .alt _ | .repeated _ _ _ => false
  | _ => true

namespace Network

variable {net : Network} {g : Grammar} {least greatest : Int}

/-! ## Steps of paths -/

theorem Path.append {n m k : Nat} {u v : List Int} (first : net.Path least greatest n u m)
    (second : net.Path least greatest m v k) : net.Path least greatest n (u ++ v) k := by
  induction first with
  | stay n => exact second
  | free inner move rest ih => exact .free inner move (ih second)
  | consume inner member accepts rest ih => exact .consume inner member accepts (ih second)
  | call inner move through ends rest _ ih =>
    rw [List.append_assoc]
    exact .call inner move through ends (ih second)

theorem free_mem_moves {n : Nat} {t : Transition} (plain : ∀ r p follow, t.label ≠ .rule r p follow)
    (free : t.label.isEpsilon = true) (member : t ∈ net.out n) : .free t.target ∈ net.moves n := by
  refine List.mem_map.2 ⟨t, member, ?_⟩
  unfold Transition.move
  split
  · rename_i label
    exact absurd label (plain _ _ _)
  · rw [if_pos free]

/-- A path over one edge. -/
theorem path_edge {n m : Nat} {label : Label} {w : List Int} (inner : net.isStop n = false)
    (edge : net.out n = [⟨m, label⟩]) (plain : ∀ r p follow, label ≠ .rule r p follow)
    (takes : label.Takes least greatest w) : net.Path least greatest n w m := by
  have member : ⟨m, label⟩ ∈ net.out n := by simp [edge]
  cases takes with
  | nothing free => exact .free inner (free_mem_moves plain free member) (.stay m)
  | one accepts => exact .consume inner member accepts (.stay m)

theorem path_epsilon {n m k : Nat} {w : List Int} (inner : net.isStop n = false)
    (member : .epsilon m ∈ net.out n) (rest : net.Path least greatest m w k) :
    net.Path least greatest n w k :=
  .free inner (free_mem_moves (by simp [Transition.epsilon]) rfl member) rest

/-! ## Branches -/

theorem mem_inOrder {greedy : Bool} {round exit : List Transition} {t : Transition} :
    t ∈ inOrder greedy round exit ↔ t ∈ round ∨ t ∈ exit := by
  cases greedy <;> simp [inOrder, or_comm]

theorem mem_waysIn {segs : List Segment} {s : Segment} (member : s ∈ segs) :
    .epsilon s.left ∈ waysIn segs := List.mem_map.2 ⟨s, member, rfl⟩

/-- No state from `lo` up to `hi` is the end of a rule. -/
def Inner (net : Network) (lo hi : Nat) : Prop := ∀ n, lo ≤ n → n < hi → net.isStop n = false

theorem Inner.mono {lo hi lo' hi' : Nat} (inner : net.Inner lo hi) (low : lo ≤ lo') (high : hi' ≤ hi) :
    net.Inner lo' hi' :=
  fun n above below => inner n (Nat.le_trans low above) (Nat.lt_of_lt_of_le below high)

theorem laid_le {rule : Nat} {es : List Element} {segs : List Segment} {lo hi : Nat}
    (parts : Consecutive (net.Laid g rule) es segs lo hi) : lo ≤ hi :=
  (inside_all (parts.imp fun _ _ _ _ _ laid => laid.inside)).1

/-- Each of several elements has its segment. -/
theorem branch_laid {rule : Nat} {es : List Element} {segs : List Segment} {lo hi : Nat}
    (parts : Consecutive (net.Laid g rule) es segs lo hi) (inner : net.Inner lo hi) :
    ∀ e ∈ es, ∃ s ∈ segs, ∃ low high, net.Laid g rule e s low high ∧ net.Inner low high := by
  induction parts with
  | nil lo => simp
  | cons first rest ih =>
    have le := laid_le rest
    have bounds := first.inside.left
    intro e member
    rcases List.mem_cons.1 member with rfl | later
    · exact ⟨_, by simp, _, _, first, inner.mono (Nat.le_refl _) le⟩
    · obtain ⟨s, among, low, high, laid, inner'⟩ := ih (inner.mono (by omega) (Nat.le_refl _)) e later
      exact ⟨s, by simp [among], low, high, laid, inner'⟩

/-- The word is spelled through a branch of the element, wherever the element lies. -/
def Spells (net : Network) (g : Grammar) (least greatest : Int) (e : Element) (w : List Int) : Prop :=
  ∀ rule segs lo hi, net.Inner lo hi → Consecutive (net.Laid g rule) e.branches segs lo hi →
    ∃ s ∈ segs, net.Path least greatest s.left w s.right

/-- From a state with ways into all branches the word is spelled up to the state where they end. -/
theorem Spells.round {rule lo mid n stop : Nat} {e : Element} {w : List Int} {segs : List Segment}
    (spells : net.Spells g least greatest e w) (inner : net.Inner lo mid)
    (parts : Consecutive (net.Laid g rule) e.branches segs lo mid) (isInner : net.isStop n = false)
    (enters : ∀ s ∈ segs, .epsilon s.left ∈ net.out n) (ends : net.EndAt segs stop) :
    net.Path least greatest n w stop := by
  obtain ⟨s, member, path⟩ := spells rule segs lo mid inner parts
  obtain ⟨-, bounds, -⟩ := inside_all (parts.imp fun _ _ _ _ _ laid => laid.inside)
  have right := bounds s member
  have leave : net.Path least greatest s.right [] stop :=
    path_epsilon (inner s.right right.2.2.1 right.2.2.2) (by simp [ends s member]) (.stay stop)
  exact path_epsilon isInner (enters s member) (by simpa using path.append leave)

/-- A block with nothing but ways into the branches spells the word from its start to its end. -/
theorem Spells.block {rule lo mid hi : Nat} {e : Element} {w : List Int} {segs : List Segment}
    (spells : net.Spells g least greatest e w) (inner : net.Inner lo hi) (room : mid < hi)
    (parts : Consecutive (net.Laid g rule) e.branches segs lo mid) (enters : net.out mid = waysIn segs)
    (ends : net.EndAt segs (mid + 1)) : net.Path least greatest mid w (mid + 1) := by
  refine spells.round (inner.mono (Nat.le_refl _) (Nat.le_of_lt room)) parts
    (inner mid (laid_le parts) room) (fun s member => ?_) ends
  rw [enters]
  exact mem_waysIn member

theorem Spells.path {rule lo hi : Nat} {e : Element} {w : List Int} {seg : Segment}
    (spells : net.Spells g least greatest e w) (inner : net.Inner lo hi)
    (laid : net.Laid g rule e seg lo hi) : net.Path least greatest seg.left w seg.right := by
  -- Of an element that is no choice the only branch is the element itself.
  have alone (single : e.branches = [e]) : net.Path least greatest seg.left w seg.right := by
    obtain ⟨s, member, path⟩ := spells rule [seg] lo hi inner (single ▸ .cons laid (.nil hi))
    rwa [List.mem_singleton.1 member] at path
  cases e with
  | alt es =>
    cases laid with
    | leaf labelled => cases labelled
    | only part =>
      obtain ⟨s, member, path⟩ := spells rule [seg] lo hi inner (.cons part (.nil hi))
      rwa [List.mem_singleton.1 member] at path
    | alt several parts enters ends =>
      exact spells.block inner (Nat.lt_add_of_pos_right (by decide)) parts enters ends
  | _ => exact alone rfl

theorem spells_of_path {e : Element} {w : List Int} (single : e.branches = [e])
    (path : ∀ {rule lo hi seg}, net.Inner lo hi → net.Laid g rule e seg lo hi →
      net.Path least greatest seg.left w seg.right) : net.Spells g least greatest e w := by
  intro rule segs lo hi inner parts
  rw [single] at parts
  cases parts with
  | cons first rest =>
    cases rest
    exact ⟨_, by simp, path inner first⟩

/-! ## Words of elements -/

theorem spells_of_leaf {e : Element} {w : List Int} (leaf : e.isLeaf g.isLexer = true)
    (denotes : g.Denotes least greatest e w) : net.Spells g least greatest e w := by
  have single : e.branches = [e] := by
    cases e with
    | alt es => cases leaf
    | _ => rfl
  refine spells_of_path single fun inner laid => ?_
  cases laid with
  | leaf labelled edge =>
    exact path_edge (inner _ (Nat.le_refl _) (Nat.lt_add_of_pos_right (by decide))) edge labelled.plain
      (labelled.takes denotes)
  | literal lexer spelled => simp [Element.isLeaf, lexer] at leaf
  | _ => cases leaf

theorem Spelled.path {cs : List Char} {left right : Nat} (spelled : net.Spelled cs left right)
    (inner : net.Inner left right) :
    net.Path least greatest left (cs.map fun c => (c.toNat : Int)) right := by
  induction spelled with
  | nil n => exact .stay n
  | cons joined edge later ih =>
    rename_i c cs n right
    have le := (later.inside (g := default)).1
    refine path_epsilon (m := n + 1) (inner n (Nat.le_refl n) (by omega)) (by simp [joined]) ?_
    refine .consume (inner (n + 1) (by omega) (by omega)) (edge ▸ List.mem_singleton.2 rfl) ?_
      (ih (inner.mono (by omega) (Nat.le_refl _)))
    exact Layout.accepts_atomLabel.2 rfl

theorem spells_chars {text : String} (lexer : g.isLexer = true) :
    net.Spells g least greatest (.literal text) (text.toList.map fun c => (c.toNat : Int)) := by
  refine spells_of_path rfl fun inner laid => ?_
  cases laid with
  | leaf labelled =>
    cases labelled with
    | literal parser =>
      rw [lexer] at parser
      cases parser
  | literal _ spelled => exact spelled.path (inner.mono (Nat.le_refl _) (Nat.le_succ _))

theorem spells_nothing : net.Spells g least greatest (.seq []) [] := by
  refine spells_of_path rfl fun inner laid => ?_
  cases laid with
  | leaf labelled => cases labelled
  | nothing edge =>
    exact path_edge (inner _ (Nat.le_refl _) (Nat.lt_add_of_pos_right (by decide))) edge (by simp)
      (.nothing rfl)
  | seq parts chained =>
    cases parts
    cases chained

theorem spells_seq {e e' : Element} {es : List Element} {u v : List Int}
    (first : net.Spells g least greatest e u) (rest : net.Spells g least greatest (.seq (e' :: es)) v) :
    net.Spells g least greatest (.seq (e :: e' :: es)) (u ++ v) := by
  refine spells_of_path rfl fun {rule lo hi seg} inner laid => ?_
  cases laid with
  | leaf labelled => cases labelled
  | seq parts chained =>
    cases parts with
    | cons part others =>
      rename_i mid
      have le := laid_le others
      have left := part.inside.left
      have right := part.inside.right
      cases chained with
      | single => cases others
      | cons joined later =>
        have start := first.path (inner.mono (Nat.le_refl _) le) part
        have goOn := rest.path (inner.mono (by omega) (Nat.le_refl _)) (.seq others later)
        refine start.append (path_epsilon ?_ (by simp [joined]) goOn)
        exact inner _ right.1 (Nat.lt_of_lt_of_le right.2 le)

theorem spells_single {e : Element} {u : List Int} (first : net.Spells g least greatest e u) :
    net.Spells g least greatest (.seq [e]) u := by
  refine spells_of_path rfl fun inner laid => ?_
  cases laid with
  | leaf labelled => cases labelled
  | seq parts chained =>
    cases parts with
    | cons part others =>
      cases others
      cases chained
      exact first.path inner part

theorem spells_alt {e : Element} {es : List Element} {w : List Int} (member : e ∈ es)
    (chosen : net.Spells g least greatest e w) : net.Spells g least greatest (.alt es) w := by
  intro rule segs lo hi inner parts
  obtain ⟨s, among, low, high, laid, inner'⟩ := branch_laid parts inner e member
  exact ⟨s, among, chosen.path inner' laid⟩

/-! ## Repetitions -/

theorem spells_skip {greedy : Bool} {body : Element} :
    net.Spells g least greatest (.repeated .optional greedy body) [] := by
  refine spells_of_path rfl fun inner laid => ?_
  cases laid with
  | leaf labelled => cases labelled
  | repeated parts around =>
    have le := laid_le parts
    cases around with
    | optional enters ends =>
      dsimp only
      exact path_epsilon (inner _ le (by omega)) (by simp [enters, mem_inOrder]) (.stay _)

theorem spells_take {greedy : Bool} {body : Element} {w : List Int}
    (taken : net.Spells g least greatest body w) :
    net.Spells g least greatest (.repeated .optional greedy body) w := by
  refine spells_of_path rfl fun inner laid => ?_
  cases laid with
  | leaf labelled => cases labelled
  | repeated parts around =>
    have le := laid_le parts
    cases around with
    | optional enters ends =>
      dsimp only
      refine taken.round (inner.mono (Nat.le_refl _) (by omega)) parts (inner _ le (by omega))
        (fun s member => ?_) ends
      rw [enters, mem_inOrder]
      exact .inl (mem_waysIn member)

theorem spells_finish {greedy : Bool} {body : Element} :
    net.Spells g least greatest (.repeated .star greedy body) [] := by
  refine spells_of_path rfl fun inner laid => ?_
  cases laid with
  | leaf labelled => cases labelled
  | repeated parts around =>
    have le := laid_le parts
    cases around with
    | star enters ends stops returns decides =>
      dsimp only
      exact path_epsilon (inner _ (by omega) (by omega)) (by simp [decides, mem_inOrder]) (.stay _)

theorem spells_again {greedy : Bool} {body : Element} {u v : List Int}
    (round : net.Spells g least greatest body u)
    (rest : net.Spells g least greatest (.repeated .star greedy body) v) :
    net.Spells g least greatest (.repeated .star greedy body) (u ++ v) := by
  refine spells_of_path rfl fun inner laid => ?_
  have goOn := rest.path inner laid
  cases laid with
  | leaf labelled => cases labelled
  | repeated parts around =>
    have le := laid_le parts
    cases around with
    | star enters ends stops returns decides =>
      rename_i mid
      dsimp only at goOn ⊢
      have through := round.block inner (by omega) parts enters ends
      refine path_epsilon (m := mid) (inner _ (by omega) (by omega)) (by simp [decides, mem_inOrder])
        (through.append ?_)
      refine path_epsilon (m := mid + 3) (inner _ (by omega) (by omega)) (by simp [stops]) ?_
      exact path_epsilon (inner _ (by omega) (by omega)) (by simp [returns]) goOn

theorem spells_once {greedy : Bool} {body : Element} {w : List Int}
    (round : net.Spells g least greatest body w) :
    net.Spells g least greatest (.repeated .plus greedy body) w := by
  refine spells_of_path rfl fun inner laid => ?_
  cases laid with
  | leaf labelled => cases labelled
  | repeated parts around =>
    have le := laid_le parts
    cases around with
    | plus enters ends stops decides =>
      rename_i mid
      dsimp only
      have through := round.block inner (by omega) parts enters ends
      have leave : net.Path least greatest (mid + 1) [] (mid + 3) := by
        refine path_epsilon (m := mid + 2) (inner _ (by omega) (by omega)) (by simp [stops]) ?_
        exact path_epsilon (inner _ (by omega) (by omega)) (by simp [decides, mem_inOrder]) (.stay _)
      simpa using through.append leave

theorem spells_more {greedy : Bool} {body : Element} {u v : List Int}
    (round : net.Spells g least greatest body u)
    (rest : net.Spells g least greatest (.repeated .plus greedy body) v) :
    net.Spells g least greatest (.repeated .plus greedy body) (u ++ v) := by
  refine spells_of_path rfl fun inner laid => ?_
  have goOn := rest.path inner laid
  cases laid with
  | leaf labelled => cases labelled
  | repeated parts around =>
    have le := laid_le parts
    cases around with
    | plus enters ends stops decides =>
      rename_i mid
      dsimp only at goOn ⊢
      have through := round.block inner (by omega) parts enters ends
      refine through.append (path_epsilon (m := mid + 2) (inner _ (by omega) (by omega)) (by simp [stops]) ?_)
      exact path_epsilon (inner _ (by omega) (by omega)) (by simp [decides, mem_inOrder]) goOn

/-! ## Rules -/

theorem BodyAt.inner_states {i : Nat} {body : Element} {seg : Segment} {lo hi : Nat}
    (placed : net.BodyAt g i body seg lo hi) : net.Inner lo hi :=
  fun n low high => isStop_of_inner (placed.inner n low high)

/-- A word of the body leads from the start of the rule to its end. -/
theorem LaidOut.path_rule (laid : net.LaidOut g) {i : Nat} {r : RuleDef} {w : List Int}
    (found : g.rules[i]? = some r) (spells : net.Spells g least greatest r.body w) :
    net.Path least greatest (2 * i) w (2 * i + 1) := by
  obtain ⟨seg, lo, hi, body⟩ := laid.body i r found
  have inside := (List.getElem?_eq_some_iff.1 found).1
  have through := spells.path body.inner_states body.laid
  have leave : net.Path least greatest seg.right [] (2 * i + 1) :=
    path_epsilon (body.inner_states _ body.right.1 body.right.2) (by simp [body.stops]) (.stay _)
  exact path_epsilon (m := seg.left) (laid.isStop_start inside) (by simp [body.starts])
    (by simpa using through.append leave)

theorem LaidOut.endsRule (laid : net.LaidOut g) {i : Nat} (inside : i < g.rules.length) :
    net.EndsRule i (2 * i + 1) := ⟨laid.isStop_stop inside, (laid.stopState i inside).2.1⟩

theorem LaidOut.spells_rule (laid : net.LaidOut g) {name : String} {precedence : Int} {i : Nat}
    {r : RuleDef} {w : List Int} (known : g.ruleIndex name = .ok i) (found : g.rules[i]? = some r)
    (body : net.Spells g least greatest r.body w) :
    net.Spells g least greatest (.rule name precedence) w := by
  refine spells_of_path rfl fun inner placed => ?_
  cases placed with
  | leaf labelled => cases labelled
  | call known' edge =>
    rw [known] at known'
    cases known'
    have inside := g.ruleIndex_lt known
    have through := laid.path_rule found body
    rw [laid.ruleStart_eq inside] at edge
    have move : .call i (2 * i) (_ + 1) ∈ net.moves _ :=
      List.mem_map.2 ⟨_, edge ▸ List.mem_singleton.2 rfl, rfl⟩
    have path := Path.call (inner _ (Nat.le_refl _) (by omega)) move through (laid.endsRule inside) (.stay _)
    rwa [List.append_nil] at path

/-- Every word that an element denotes is spelled wherever the element lies. -/
theorem LaidOut.spells (laid : net.LaidOut g) {e : Element} {w : List Int}
    (denotes : g.Denotes least greatest e w) : net.Spells g least greatest e w := by
  induction denotes with
  | rule known found _ body => exact laid.spells_rule known found body
  | done => exact spells_nothing
  | @seq e es u v _ rest first ih =>
    cases es with
    | nil =>
      cases rest
      rw [List.append_nil]
      exact spells_single first
    | cons e' es => exact spells_seq first ih
  | alt member _ chosen => exact spells_alt member chosen
  | skip => exact spells_skip
  | take _ taken => exact spells_take taken
  | finish => exact spells_finish
  | again _ _ round rest => exact spells_again round rest
  | once _ round => exact spells_once round
  | more _ _ round rest => exact spells_more round rest
  | chars lexer => exact spells_chars lexer
  | literal parser known => exact spells_of_leaf (by simp [Element.isLeaf, parser]) (.literal parser known)
  | symbol v => exact spells_of_leaf rfl (.symbol v)
  | token known => exact spells_of_leaf rfl (.token known)
  | range above below => exact spells_of_leaf rfl (.range above below)
  | set member => exact spells_of_leaf rfl (.set member)
  | notSet above below apart => exact spells_of_leaf rfl (.notSet above below apart)
  | wildcard above below => exact spells_of_leaf rfl (.wildcard above below)
  | eof => exact spells_of_leaf rfl .eof
  | predicate pred ctx => exact spells_of_leaf rfl (.predicate pred ctx)
  | precedence p => exact spells_of_leaf rfl (.precedence p)
  | action i => exact spells_of_leaf rfl (.action i)
  | command a => exact spells_of_leaf rfl (.command a)

end Network

end AdaptiveLL
