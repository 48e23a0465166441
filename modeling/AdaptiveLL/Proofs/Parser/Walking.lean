import AdaptiveLL.Proofs.Grammar.Marks
import AdaptiveLL.Proofs.Parser.Framing

/-!
# What a parser keeps while it walks

The rules in progress are the frames of the tree (`Walking`): each but the outermost was called by a state
of the next one, the callers that the parser remembers are those of the left-recursive frames, and the
tokens that were passed are the leaves, from the outermost frame to the innermost. As long as no error is
counted, the leaves of each frame spell a path from the start of its rule to the state where the parser,
or the call in progress, stands (`Clean`). A turn of the walk keeps all this (`visit_walks`,
`returnFrom_walks`).
-/

set_option autoImplicit false

namespace AdaptiveLL

/-- The symbol of a leaf that the grammar asked for. -/
def NodeKind.symbol? : NodeKind → Option Int
  | .token t => some t.type
  | _ => none

/-- Is it a node of error recovery? -/
def NodeKind.isError : NodeKind → Bool
  | .error _ => true
  | _ => false

namespace Frame

/-- The symbols that the frame has matched. -/
def word (f : Frame) : List Int := (Subtree.leavesAll f.done).filterMap NodeKind.symbol?

/-- The frame has got further leaves. -/
def Extends (f : Frame) (ks : List NodeKind) (f' : Frame) : Prop :=
  ∃ cs, f' = { f with done := f.done ++ cs } ∧ Subtree.leavesAll cs = ks

theorem Extends.word_eq {f f' : Frame} {ks : List NodeKind} (longer : f.Extends ks f') :
    f'.word = f.word ++ ks.filterMap NodeKind.symbol? := by
  obtain ⟨cs, rfl, rfl⟩ := longer
  simp [word, Subtree.leavesAll_append]

theorem Extends.leaves_eq {f f' : Frame} {ks : List NodeKind} (longer : f.Extends ks f') (rest : List Frame) :
    leavesAll (f' :: rest) = leavesAll (f :: rest) ++ ks := by
  obtain ⟨cs, rfl, rfl⟩ := longer
  simp [leavesAll, Subtree.leavesAll_append]

end Frame

theorem ParseTree.Standing.addLeaves {t : ParseTree} {f : Frame} {rest : List Frame} {ks : List NodeKind}
    (standing : t.Standing (f :: rest)) (leaves : ∀ k ∈ ks, k.isLeaf = true) :
    ∃ f', f.Extends ks f' ∧ (t.addLeaves f.id ks).Standing (f' :: rest) := by
  induction ks generalizing t f with
  | nil => exact ⟨f, ⟨[], by simp, rfl⟩, standing⟩
  | cons k ks ih =>
    have isLeaf := leaves k (by simp)
    obtain ⟨f', ⟨cs, rfl, rfl⟩, standing'⟩ := ih (standing.addLeaf isLeaf) fun k member =>
      leaves k (by simp [member])
    refine ⟨_, ⟨.single t.size k :: cs, ?_, ?_⟩, standing'⟩
    · simp [Frame.add]
    · simp [Subtree.leavesAll, Subtree.leaves_single _ isLeaf]

/-- No token has a type beyond those of the grammar. -/
def Network.Bounds (net : Network) (P : Int → Prop) : Prop :=
  ∀ type, P type → 0 < type → type ≤ net.maxTokenType

/-- Where a parse began: the stream, the rule, and the node of its first call. -/
structure Begun (η : Type) where
  stream : TokenStream η
  rule : Nat
  root : Nat

namespace Parser

open Session TokenStream Network

variable {η : Type} {P : Int → Prop} {net : Network} {o : Begun η} {p p' : Parser η}
  {f f' g : Frame} {rest rest' : List Frame} {fuel : Nat} {ks : List NodeKind}

/-! ## The rules in progress -/

/-- The callers of the left-recursive rules among the frames. -/
def callersOf : List Frame → List Caller
  | [] => []
  | f :: rest => if f.recursive then ⟨Frame.top? rest, f.invoking⟩ :: callersOf rest else callersOf rest

/-- The state called the rule of the first frame from within the rule of the second. -/
structure CalledBy (net : Network) (f g : Frame) (s : Nat) : Prop where
  invoking : f.invoking = some s
  owner : (net.state s).rule = some g.rule
  inner : net.isStop s = false
  move : ∃ t ∈ net.out s, ∃ q follow, t.label = .rule f.rule q follow

/-- The frame is one of a rule of the network. -/
structure OfRule (net : Network) (f : Frame) : Prop where
  known : f.rule < net.numRules
  recursive : f.recursive = (net.state (net.ruleStart f.rule)).kind.isLeftRecursiveStart

/-- The frames are those of rules that called each other, beginning with one that nothing called. -/
def Called (net : Network) (rule root : Nat) : Frame → List Frame → Prop
  | f, [] => OfRule net f ∧ f.invoking = none ∧ f.rule = rule ∧ (f.recursive = false → f.id = root)
  | f, g :: rest => OfRule net f ∧ (∃ s, CalledBy net f g s) ∧ Called net rule root g rest

theorem Called.ofRule {rule root : Nat} (called : Called net rule root f rest) : OfRule net f := by
  cases rest <;> exact called.1

/-- Called frames do not depend on the leaves of the innermost one. -/
theorem Called.congr {rule root : Nat} (called : Called net rule root f rest) (sameRule : f'.rule = f.rule)
    (invoking : f'.invoking = f.invoking) (recursive : f'.recursive = f.recursive)
    (id : f.recursive = false → f'.id = f.id) : Called net rule root f' rest := by
  have ofRule : OfRule net f' := by
    refine ⟨?_, ?_⟩ <;> rw [sameRule]
    · exact called.ofRule.known
    · rw [recursive]
      exact called.ofRule.recursive
  cases rest with
  | nil =>
    obtain ⟨-, uncalled, first, isRoot⟩ := called
    refine ⟨ofRule, invoking.trans uncalled, sameRule.trans first, fun attached => ?_⟩
    have attached := recursive.symm.trans attached
    exact (id attached).trans (isRoot attached)
  | cons g rest =>
    obtain ⟨-, ⟨s, invoked, owner, inner, move⟩, outer⟩ := called
    exact ⟨ofRule, ⟨s, invoking.trans invoked, owner, inner, sameRule ▸ move⟩, outer⟩

/-- What was matched in each frame leads from the start of its rule to where it stands: to the state, and
in the outer frames to the call in progress. -/
def Traced (net : Network) : Nat → Frame → List Frame → Prop
  | state, f, [] => net.Path minTokenType net.maxTokenType (net.ruleStart f.rule) f.word state
  | state, f, g :: rest => net.Path minTokenType net.maxTokenType (net.ruleStart f.rule) f.word state ∧
      ∃ s, f.invoking = some s ∧ Traced net s g rest

theorem Traced.path {state : Nat} (traced : Traced net state f rest) :
    net.Path minTokenType net.maxTokenType (net.ruleStart f.rule) f.word state := by
  cases rest with
  | nil => exact traced
  | cons g rest => exact traced.1

/-- How the innermost frame goes on changes nothing for the others. -/
theorem Traced.goes {state state' : Nat} (traced : Traced net state f rest) (rule : f'.rule = f.rule)
    (invoking : f'.invoking = f.invoking)
    (path : net.Path minTokenType net.maxTokenType (net.ruleStart f.rule) f'.word state') :
    Traced net state' f' rest := by
  cases rest with
  | nil => exact show net.Path _ _ (net.ruleStart f'.rule) _ _ from rule ▸ path
  | cons g rest =>
    obtain ⟨-, s, invoked, outer⟩ := traced
    exact ⟨rule ▸ path, s, invoking.trans invoked, outer⟩

/-! ## The walk -/

/-- The frames are those of the rules in progress, and their leaves are the tokens that were passed since
the stream was at its origin. -/
structure Walking (P : Int → Prop) (net : Network) (o : Begun η) (p : Parser η) (f : Frame)
    (rest : List Frame) : Prop where
  ready : Ready P p
  onNet : p.net = net
  standing : p.tree.Standing (f :: rest)
  ctx : p.ctx = f.id
  callers : p.callers = callersOf (f :: rest)
  called : Called net o.rule o.root f rest
  inRule : (net.state p.state).rule = some f.rule
  channel : p.stream.channel = o.stream.channel
  before : o.stream.index ≤ p.stream.index
  passed : p.stream.between o.stream.index p.stream.index =
    (Frame.leavesAll (f :: rest)).filterMap NodeKind.passed?
  calm : p.Calm

/-- As long as no error is counted there is no trace of recovery, and what was matched spells a path. -/
def Clean (P : Int → Prop) (net : Network) (p : Parser η) (f : Frame) (rest : List Frame) : Prop :=
  net.Bounds P → p.syntaxErrors = 0 →
    (∀ k ∈ Frame.leavesAll (f :: rest), k.isError = false) ∧ Traced net p.state f rest

/-- Tokens that are passed within the rule become leaves of its frame. -/
theorem Walking.gains (walking : Walking P net o p f rest) (gains : Gains P p ks p') :
    ∃ f', f.Extends ks f' ∧ Walking P net o p' f' rest := by
  obtain ⟨f', longer, standing⟩ := walking.standing.addLeaves gains.leaves
  have leaves := longer.leaves_eq rest
  obtain ⟨cs, rfl, -⟩ := id longer
  refine ⟨_, longer, gains.ready, gains.net.trans walking.onNet, ?_, gains.ctx.trans walking.ctx,
    gains.callers.trans walking.callers, walking.called.congr rfl rfl rfl fun _ => rfl, ?_,
    gains.channel.trans walking.channel, Nat.le_trans walking.before gains.forth, ?_,
    gains.calm walking.calm⟩
  · rw [gains.tree, walking.ctx]
    exact standing
  · rw [gains.state]
    exact walking.inRule
  · rw [gains.passed _ walking.before, walking.passed, leaves, List.filterMap_append]

/-- The frames may change with the tree as long as their leaves stay the same. -/
theorem Walking.reframe (walking : Walking P net o p f rest)
    (same : p' = { p with
      sim := p'.sim, tree := p'.tree, state := p'.state, precedences := p'.precedences
      ctx := f'.id, callers := callersOf (f' :: rest') })
    (reads : Reads P p.stream p'.stream) (standing : p'.tree.Standing (f' :: rest'))
    (called : Called net o.rule o.root f' rest') (inRule : (net.state p'.state).rule = some f'.rule)
    (leaves : Frame.leavesAll (f' :: rest') = Frame.leavesAll (f :: rest)) :
    Walking P net o p' f' rest' := by
  rw [same] at reads standing inRule ⊢
  refine ⟨⟨walking.ready.trees, reads.sound⟩, walking.onNet, standing, rfl, rfl, called, inRule,
    reads.channel.trans walking.channel, Nat.le_trans walking.before reads.forth, ?_, walking.calm⟩
  rw [leaves, ← walking.passed]
  exact reads.between_eq walking.ready.sound walking.before

theorem Clean.reframe (clean : Clean P net p f rest) (errors : p'.syntaxErrors = p.syntaxErrors)
    (leaves : Frame.leavesAll (f' :: rest') = Frame.leavesAll (f :: rest))
    (traces : Traced net p.state f rest → Traced net p'.state f' rest') : Clean P net p' f' rest' := by
  intro small none'
  obtain ⟨untouched, traced⟩ := clean small (errors ▸ none')
  exact ⟨leaves ▸ untouched, traces traced⟩

/-- The parser walks, and its walk is clean. -/
def Walks (P : Int → Prop) (net : Network) (o : Begun η) (p : Parser η) : Prop :=
  ∃ f rest, Walking P net o p f rest ∧ Clean P net p f rest

/-- The parser passes over tokens, and goes to a state of the same rule to which they lead. -/
theorem Walking.goesOn (walking : Walking P net o p f rest) (clean : Clean P net p f rest)
    (gains : Gains P p ks p') {state : Nat} (inRule : (net.state state).rule = some f.rule)
    (leads : net.Bounds P → p'.syntaxErrors = 0 →
      (∀ k ∈ ks, k.isError = false) ∧ net.Path minTokenType net.maxTokenType p.state
        (ks.filterMap NodeKind.symbol?) state) : Walks P net o { p' with state } := by
  obtain ⟨f', longer, walking'⟩ := walking.gains gains
  have leaves := longer.leaves_eq rest
  have word := longer.word_eq
  obtain ⟨cs, rfl, -⟩ := id longer
  refine ⟨_, rest, walking'.reframe ?_ (.refl walking'.ready.sound) walking'.standing walking'.called
    inRule rfl, fun small none' => ?_⟩
  · rw [← walking'.callers, ← walking'.ctx]
  · obtain ⟨untouched, traced⟩ := clean small (Nat.le_zero.1 (none' ▸ gains.errors))
    obtain ⟨proper, path⟩ := leads small none'
    refine ⟨fun k member => ?_, traced.goes rfl rfl ?_⟩
    · rw [leaves] at member
      exact (List.mem_append.1 member).elim (untouched k) (proper k)
    · rw [word]
      exact traced.path.append path

/-- The parser stays where it is, unless an error is counted. -/
theorem Walking.stays (walking : Walking P net o p f rest) (clean : Clean P net p f rest)
    (gains : Gains P p ks p') (quiet : p'.syntaxErrors = 0 → ks = []) : Walks P net o p' := by
  have walks := walking.goesOn clean gains walking.inRule fun _ none' => by
    rw [quiet none']
    exact ⟨by simp, .stay _⟩
  rwa [← gains.state] at walks

/-! ## Transitions -/

/-- Where a transition of the current state leads. -/
def Takes (P : Int → Prop) (net : Network) (o : Begun η) (p : Parser η) (target : Nat) :
    Except RecognitionError Unit → Parser η → Prop :=
  Outcome (fun _ p' => Walks P net o { p' with state := target }) fun _ p' => GainsSome P p p'

theorem Walking.inRule_target (walking : Walking P net o p f rest) (walkable : net.Walkable)
    (inner : net.isStop p.state = false) {t : Transition} (member : t ∈ net.out p.state)
    (plain : ∀ r q follow, t.label ≠ .rule r q follow) : (net.state t.target).rule = some f.rule := by
  have next := walkable.owner p.state f.rule walking.inRule inner t member
  have target : t.move.next = t.target := by
    unfold Transition.move
    split
    · rename_i label
      exact absurd label (plain _ _ _)
    · split <;> rfl
  rwa [target] at next

/-- A transition that consumes nothing and stays in the rule. -/
theorem Walking.free (walking : Walking P net o p f rest) (clean : Clean P net p f rest)
    (walkable : net.Walkable) (inner : net.isStop p.state = false) {t : Transition}
    (member : t ∈ net.out p.state) (plain : ∀ r q follow, t.label ≠ .rule r q follow)
    (isFree : t.label.isEpsilon = true) (gains : Gains P p [] p') :
    Walks P net o { p' with state := t.target } :=
  walking.goesOn clean gains (walking.inRule_target walkable inner member plain) fun _ _ =>
    ⟨by simp, .free inner (free_mem_moves plain isFree member) (.stay _)⟩

/-- A transition that consumes a token. -/
theorem Walking.matches (walking : Walking P net o p f rest) (clean : Clean P net p f rest)
    (walkable : net.Walkable) (inner : net.isStop p.state = false) {t : Transition}
    (member : t ∈ net.out p.state) (plain : ∀ r q follow, t.label ≠ .rule r q follow)
    {accepted : Bool} {u : Token} (faces : p.stream.Faces u)
    (accepts : (0 < u.type → u.type ≤ net.maxTokenType) → accepted = true →
      t.label.accepts u.type minTokenType net.maxTokenType = true) :
    Leads (matchOrRepair fuel accepted).run p (Takes P net o p t.target) := by
  refine (matchOrRepair_leads walking.ready accepted).imp fun result p' known => ?_
  cases result with
  | error e => exact known
  | ok _ =>
    obtain ⟨ks, gains, quiet⟩ := known
    refine walking.goesOn clean gains (walking.inRule_target walkable inner member plain) fun small none' => ?_
    obtain ⟨asked, u', current, rfl⟩ := quiet walking.calm none'
    obtain rfl := current u faces
    have bound : 0 < u.type → u.type ≤ net.maxTokenType := by
      obtain ⟨i, -, found⟩ := faces
      exact small _ (walking.ready.sound.placed i u found).2
    exact ⟨by simp [NodeKind.isError], .consume inner member (accepts bound asked) (.stay _)⟩

end Parser

end AdaptiveLL
