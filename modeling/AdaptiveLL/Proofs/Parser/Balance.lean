import AdaptiveLL.Proofs.Parser.Repairing
import AdaptiveLL.Proofs.Parser.Yield
import AdaptiveLL.Proofs.Tree.Lineage

/-!
# The stacks of a parser

A parser keeps two stacks for the left-recursive rules in progress, their precedences and their callers, and
the nodes of the tree keep the states that called the rules. When a turn of a parse begins, the stacks and the
line of the node in progress agree (`Stacked`), whatever the tokens, the user code, the predictions and the
repairs are, and whether trees are built or not: each caller is that of a left-recursive node of the line, and
there is one more precedence (`Balanced`). So every rule that ends finds its caller, and only a parse of an
unknown rule fails (`parse_balanced`).
-/

set_option autoImplicit false

namespace AdaptiveLL.Parser

open Session Network

variable {η : Type} {net : Network} {p p' p'' : Parser η} {f g : Frame} {frames rest : List Frame}
  {rule root fuel : Nat} {t : Transition}

/-! ## Turns of a parse -/

/-- One turn of a walk; gives the result of the walk if it is the last one. -/
def turn (fuel root : Nat) (leftRecursive : Bool) : ParseM η (Option (Except ParseError Nat)) := do
  let p ← get
  let s := p.net.state p.state
  if s.kind.isRuleStop then
    if (p.tree.node p.ctx).invoking.isNone then return some (← finish fuel root leftRecursive)
    else
      match ← returnFrom fuel s with
      | .ok () => return none
      | .error e => return some (.error e)
  else
    match ← (visit fuel s).run with
    | .ok () => return none
    | .error e =>
      modify fun p => { p with state := (p.net.ruleStop? (s.rule.getD 0)).getD 0 }
      reportError fuel e
      recover fuel e
      return none

/-- A walk takes one turn after the other. -/
theorem walk_succ (fuel root : Nat) (leftRecursive : Bool) (rounds : Nat) :
    (walk fuel root leftRecursive (rounds + 1) : ParseM η _) = do
      match ← turn fuel root leftRecursive with
      | none => walk fuel root leftRecursive rounds
      | some result => return result := by
  unfold turn
  rw [walk, bind_assoc]
  congr 1
  funext p
  dsimp only
  split
  · split
    · simp only [bind_assoc, pure_bind, bind_pure]
    · simp only [bind_assoc]
      congr 1
      funext result
      rcases result with e | ⟨⟨⟩⟩ <;> simp only [pure_bind]
  · simp only [bind_assoc]
    congr 1
    funext result
    rcases result with e | ⟨⟨⟩⟩ <;> simp only [bind_assoc, pure_bind]

/-- What a parse of the rule does before its first turn; gives the root of the tree. -/
def opening (net : Network) (fuel rule : Nat) : ParseM η Nat := do
  modify clear
  let start := net.ruleStart rule
  let root ← addRule rule none none
  if (net.state start).kind.isLeftRecursiveStart then enterRecursion fuel root start 0
  else enterRule fuel root start
  return root

/-- Does the rule call itself at its left edge? -/
def isLeftRecursive (net : Network) (rule : Nat) : Bool := (net.state (net.ruleStart rule)).kind.isLeftRecursiveStart

/-- The parsers that turns lead to. -/
inductive Turns (fuel root : Nat) (leftRecursive : Bool) (p : Parser η) : Parser η → Prop
  | none : Turns fuel root leftRecursive p p
  | more {q q' : Parser η} {j j' : Journal} (turns : Turns fuel root leftRecursive p q)
    (goesOn : ((turn fuel root leftRecursive).run q).run j = some ((.none, q'), j')) :
    Turns fuel root leftRecursive p q'

/-- A parse of the rule from `p` on, which has the root, comes to begin a turn as `q`. -/
def Arrives (fuel rule : Nat) (p : Parser η) (root : Nat) (q : Parser η) : Prop :=
  ∃ j p₀ j₀, ((opening p.net fuel rule).run p).run j = some ((root, p₀), j₀) ∧
    Turns fuel root (isLeftRecursive p.net rule) p₀ q

theorem parse_eq (fuel rule : Nat) : (parse fuel rule : ParseM η _) = do
    let net := (← get).net
    if rule ≥ net.numRules then return .error (.unknownRuleIndex rule)
    let root ← opening net fuel rule
    match ← walk fuel root (isLeftRecursive net rule) fuel with
    | .ok result =>
      logParse rule
      return .ok result
    | .error e => return .error e := by
  unfold parse opening isLeftRecursive
  congr 1
  funext p
  dsimp only
  split
  · rfl
  · simp only [bind_assoc]
    congr 1
    funext _
    congr 1
    funext root
    split
    all_goals
      symm
      refine (bind_assoc _ _ _).trans ?_
      exact bind_congr fun _ => pure_bind _ _

/-! ## Steps that stay with the rule -/

/-- The parser may have passed over tokens, but the rules in progress are the same. -/
structure Stays (p p' : Parser η) : Prop where
  net : p'.net = p.net
  ctx : p'.ctx = p.ctx
  state : p'.state = p.state
  callers : p'.callers = p.callers
  precedences : p'.precedences = p.precedences
  grows : p.tree.Grows p'.tree

theorem Stays.refl (p : Parser η) : Stays p p := ⟨rfl, rfl, rfl, rfl, rfl, .refl _⟩

theorem Stays.trans (first : Stays p p') (second : Stays p' p'') : Stays p p'' :=
  ⟨second.net.trans first.net, second.ctx.trans first.ctx, second.state.trans first.state,
    second.callers.trans first.callers, second.precedences.trans first.precedences,
    first.grows.trans second.grows⟩

theorem onSimulator_stays {α : Type} (step : Simulator.PredictM η α) (p : Parser η) :
    Leads (onSimulator step) p fun _ p' => Stays p p' := by
  refine (onSimulator_leads (Q := fun _ _ => True) fun _ _ _ _ _ => trivial).imp fun _ p' known => ?_
  rw [known.1]
  exact ⟨rfl, rfl, rfl, rfl, rfl, .refl _⟩

/-- Matching, choosing and repairing stay with the rule. -/
theorem stays_law (net : Network) : StepLaw net fun {α : Type} (x : ParseM η α) =>
    ∀ p : Parser η, p.net = net → Leads x p fun _ p' => Stays p p' where
  pure _ _ _ := .pure (.refl _)
  failure _ _ := .of_failure
  bind first second p onNet := (first p onNet).bind fun a p₁ stays =>
    (second a p₁ (stays.net.trans onNet)).imp fun _ _ stays' => stays.trans stays'
  get_bind rest _ p onNet := .get_bind (rest p onNet p onNet)
  onStream _ p _ := onSimulator_stays _ p
  predict _ _ _ _ _ p _ := onSimulator_stays _ p
  note _ _ _ _ := .of_modify ⟨rfl, rfl, rfl, rfl, rfl, .refl _⟩
  count _ _ := .of_modify ⟨rfl, rfl, rfl, rfl, rfl, .refl _⟩
  tell _ _ _ _ _ _ _ := .of_journal (.refl _)
  addLeaf node kind p _ := .of_modify ⟨rfl, rfl, rfl, rfl, rfl, p.tree.grows_addLeaf node kind⟩
  noteEof _ _ := .of_modify ⟨rfl, rfl, rfl, rfl, rfl, .refl _⟩
  ask _ _ _ _ := .of_modifyGet ⟨rfl, rfl, rfl, rfl, rfl, .refl _⟩
  act _ _ _ _ := .of_modify ⟨rfl, rfl, rfl, rfl, rfl, .refl _⟩

theorem tokenIndex_stays (p : Parser η) (k : Int) : Leads (tokenIndex fuel k) p fun _ p' => Stays p p' :=
  (stays_law p.net).tokenIndex k p rfl

/-! ## Rules that begin and end -/

/-- The stacks of the parser and the nodes of its tree are those of the frames. -/
structure Registers (net : Network) (p : Parser η) (f : Frame) (rest : List Frame) : Prop where
  onNet : p.net = net
  linked : p.tree.Linked (f :: rest)
  ctx : p.ctx = f.id
  callers : p.callers = callersOf (f :: rest)
  precedences : p.precedences.length = p.callers.length + 1

theorem Registers.stays (registers : Registers net p f rest) (stays : Stays p p') : Registers net p' f rest := by
  refine ⟨stays.net.trans registers.onNet, registers.linked.grows stays.grows, stays.ctx.trans registers.ctx,
    stays.callers.trans registers.callers, ?_⟩
  rw [stays.precedences, stays.callers]
  exact registers.precedences

/-- A note in the tree that does not change the rules in progress. -/
theorem Registers.note (registers : Registers net p f rest) {tree : ParseTree} (grows : p.tree.Grows tree) :
    Registers net { p with tree } f rest :=
  registers.stays ⟨rfl, rfl, rfl, rfl, rfl, grows⟩

/-- A left-recursive rule begins. -/
theorem enterRecursion_registers (onNet : p.net = net) (linked : p.tree.Linked (f :: rest))
    (recursive : f.recursive = true) (callers : p.callers = callersOf rest)
    (precedences : p.precedences.length = p.callers.length + 1) (state : Nat) (q : Int) :
    Leads (enterRecursion fuel f.id state q) p fun _ p' => Registers net p' f rest ∧ p'.state = state := by
  have parent : (p.tree.node f.id).parent = Frame.top? rest := linked.parent
  have entered : Registers net { p with
      callers := ⟨(p.tree.node f.id).parent, (p.tree.node f.id).invoking⟩ :: p.callers, state, ctx := f.id
      precedences := q :: p.precedences } f rest := by
    refine ⟨onNet, linked, rfl, ?_, ?_⟩
    · rw [callersOf, if_pos recursive, ← callers, parent, linked.invoking]
    · simp [precedences]
  refine .modify_bind ((tokenIndex_stays _ 1).bind fun start p₁ stays => .of_modify ⟨?_, ?_⟩)
  · exact (entered.stays stays).note (ParseTree.grows_modify rfl)
  · exact stays.state

/-- Any other rule begins. -/
theorem enterRule_registers (onNet : p.net = net) (linked : p.tree.Linked (f :: rest))
    (plain : f.recursive = false) (callers : p.callers = callersOf rest)
    (precedences : p.precedences.length = p.callers.length + 1) (state : Nat) :
    Leads (enterRule fuel f.id state) p fun _ p' => Registers net p' f rest ∧ p'.state = state := by
  have entered : Registers net { p with state, ctx := f.id } f rest := by
    refine ⟨onNet, linked, rfl, ?_, precedences⟩
    rw [callersOf, if_neg (by simp [plain]), ← callers]
  refine .modify_bind ((tokenIndex_stays _ 1).bind fun start p₁ stays => .modify_bind (.get_bind ?_))
  have noted : Registers net { p₁ with tree := p₁.tree.modify f.id ({ · with start }) } f rest :=
    (entered.stays stays).note (ParseTree.grows_modify rfl)
  split
  · split
    · rename_i parent known
      exact .of_modify ⟨noted.note (ParseTree.grows_addChild known), stays.state⟩
    · exact .pure ⟨noted, stays.state⟩
  · exact .pure ⟨noted, stays.state⟩

variable (fuel) in
/-- A rule begins. -/
theorem begins_registers (onNet : p.net = net) (linked : p.tree.Linked (f :: rest)) {recursive : Bool}
    (isRecursive : recursive = f.recursive) (callers : p.callers = callersOf rest)
    (precedences : p.precedences.length = p.callers.length + 1) (state : Nat) (q : Int) :
    Leads (if recursive then enterRecursion fuel f.id state q else enterRule fuel f.id state) p
      fun _ p' => Registers net p' f rest ∧ p'.state = state := by
  cases recursive with
  | true => exact enterRecursion_registers onNet linked isRecursive.symm callers precedences state q
  | false => exact enterRule_registers onNet linked isRecursive.symm callers precedences state

/-- A left-recursive rule goes on around what it has built so far. -/
theorem growRecursion_registers (registers : Registers net p f rest) (recursive : f.recursive = true) (s : State) :
    Leads (growRecursion fuel s) p fun _ p' =>
      Registers net p' { f with id := p.tree.size } rest ∧ p'.state = p.state := by
  have caller : p.callers.headD ⟨none, none⟩ = ⟨Frame.top? rest, f.invoking⟩ := by
    rw [registers.callers, callersOf, if_pos recursive]
    rfl
  have rule : (p.tree.rule? p.ctx).getD 0 = f.rule := by
    rw [registers.ctx, registers.linked.rule]
    rfl
  have linked := registers.linked.tail.enter f.rule f.invoking f.recursive f.done
  -- The node that gets wrapped is none of the frames any more.
  have apart : ∀ h ∈ { f with id := p.tree.size } :: rest, h.id ≠ f.id := by
    intro h member
    rcases List.mem_cons.1 member with rfl | outer
    · exact (Nat.ne_of_lt registers.linked.1).symm
    · exact Nat.ne_of_lt (registers.linked.2.2.1 h outer)
  have registered {p₁ : Parser η} (stays : Stays { p with
      tree := (p.tree.addRule f.rule (Frame.top? rest) f.invoking).2 } p₁) {tree : ParseTree}
      (linked : tree.Linked ({ f with id := p.tree.size } :: rest)) :
      Registers net { p₁ with ctx := p.tree.size, tree } { f with id := p.tree.size } rest := by
    refine ⟨stays.net.trans registers.onNet, linked, rfl, stays.callers.trans registers.callers, ?_⟩
    rw [stays.precedences, stays.callers]
    exact registers.precedences
  unfold growRecursion
  refine .get_bind ?_
  dsimp only
  rw [caller, rule]
  refine Leads.bind (.of_modifyGet (Q := fun node p' => node = p.tree.size ∧
    p' = { p with tree := (p.tree.addRule f.rule (Frame.top? rest) f.invoking).2 }) ⟨rfl, rfl⟩)
    fun node p₁ same => ?_
  obtain ⟨rfl, rfl⟩ := same
  refine .get_bind ((tokenIndex_stays _ (-1)).bind fun stop p₂ stays => .modify_bind (.modify_bind (.get_bind ?_)))
  have noted (start : Option Nat) : ((p₂.tree.modify f.id ({ · with
      parent := some p.tree.size, invoking := some (p.net.ruleStart (s.rule.getD f.rule)), stop })).modify
        p.tree.size ({ · with start })).Linked ({ f with id := p.tree.size } :: rest) :=
    ((linked.grows stays.grows).modify_apart apart _).note _ fun _ => rfl
  dsimp only
  rw [registers.ctx]
  split
  · exact .of_modify ⟨registered stays ((noted _).addChild_apart apart _), stays.state⟩
  · exact .pure ⟨registered stays (noted _), stays.state⟩

/-- A rule that is not left-recursive ends. -/
theorem exitRule_registers (registers : Registers net p f (g :: rest)) (plain : f.recursive = false) {s : Nat}
    (invoking : f.invoking = some s) :
    Leads (exitRule fuel) p fun _ p' => Registers net p' g rest ∧ p'.state = s := by
  refine (tokenIndex_stays p (-1)).bind fun stop p₁ stays => .of_modify ?_
  have registers₁ := registers.stays stays
  have linked := registers₁.linked
  have parent : (p₁.tree.node f.id).parent = some g.id := linked.parent
  have callers := registers₁.callers
  rw [callersOf, if_neg (by simp [plain])] at callers
  dsimp only
  rw [registers₁.ctx, parent, linked.invoking, invoking]
  exact ⟨⟨registers₁.onNet, linked.tail.note f.id fun _ => rfl, rfl, callers, registers₁.precedences⟩, rfl⟩

/-- A left-recursive rule ends whose caller was taken before. -/
theorem leaveRecursion_registers (onNet : p.net = net) (linked : p.tree.Linked (f :: g :: rest))
    (ctx : p.ctx = f.id) (callers : p.callers = callersOf (g :: rest))
    (precedences : p.precedences.length = p.callers.length + 2) :
    Leads (leaveRecursion fuel (some g.id)) p fun _ p' => Registers net p' g rest := by
  refine .modify_bind ((tokenIndex_stays _ (-1)).bind fun stop p₁ stays =>
    .get_bind (.modify_bind (.modify_bind ?_)))
  have same : p₁.ctx = f.id := stays.ctx.trans ctx
  have registered {tree : ParseTree} (linked : tree.Linked (g :: rest)) :
      Registers net { p₁ with tree, ctx := g.id } g rest := by
    refine ⟨stays.net.trans onNet, linked, rfl, stays.callers.trans callers, ?_⟩
    rw [stays.precedences, stays.callers]
    simp [precedences]
  -- The node that is attached is none of the frames any more.
  have apart : ∀ h ∈ g :: rest, h.id ≠ f.id := fun h member => Nat.ne_of_lt (linked.2.2.1 h member)
  have ended := (linked.tail.grows stays.grows).modify_apart apart ({ · with stop, parent := some g.id })
  rw [same]
  split
  · exact .of_modify (registered (ended.addChild_apart apart g.id))
  · exact .pure (registered ended)

/-! ## The stacks at a turn -/

/-- The stacks are those of rules that called each other, beginning with the one that is parsed, and the parser
is in the innermost one. -/
structure Stacked (net : Network) (rule root : Nat) (p : Parser η) (f : Frame) (rest : List Frame) : Prop where
  registers : Registers net p f rest
  called : Called net rule root f rest
  inRule : (net.state p.state).rule = some f.rule

/-- The stacks are in order. -/
def InOrder (net : Network) (rule root : Nat) (p : Parser η) : Prop := ∃ f rest, Stacked net rule root p f rest

namespace Stacked

theorem stays (stacked : Stacked net rule root p f rest) (stays : Stays p p') : Stacked net rule root p' f rest :=
  ⟨stacked.registers.stays stays, stacked.called, stays.state ▸ stacked.inRule⟩

/-- A step in the rule, after one that stays with it. -/
theorem goesOn (stacked : Stacked net rule root p f rest) (stays : Stays p p') {state : Nat}
    (inRule : (net.state state).rule = some f.rule) : InOrder net rule root { p' with state } := by
  obtain ⟨onNet, linked, ctx, callers, precedences⟩ := stacked.registers.stays stays
  exact ⟨f, rest, ⟨onNet, linked, ctx, callers, precedences⟩, stacked.called, inRule⟩

theorem inRule_target (stacked : Stacked net rule root p f rest) (walkable : net.Walkable)
    (inner : net.isStop p.state = false) (member : t ∈ net.out p.state)
    (plain : ∀ r q follow, t.label ≠ .rule r q follow) : (net.state t.target).rule = some f.rule := by
  have next := walkable.owner p.state f.rule stacked.inRule inner t member
  have target : t.move.next = t.target := by
    unfold Transition.move
    split
    · rename_i label
      exact absurd label (plain _ _ _)
    · split <;> rfl
  rwa [target] at next

variable (fuel) in
/-- A left-recursive rule goes on around what it has built so far. -/
theorem grows (stacked : Stacked net rule root p f rest) (walkable : net.Walkable)
    (inner : net.isStop p.state = false) (member : t ∈ net.out p.state)
    (plain : ∀ r q follow, t.label ≠ .rule r q follow)
    (loop : (net.state p.state).kind.isPrecedenceLoop = true) :
    Leads (growRecursion fuel (net.state p.state)) p fun _ p' => InOrder net rule root { p' with state := t.target } := by
  have recursive : f.recursive = true := by
    rw [stacked.called.ofRule.recursive]
    exact walkable.loop _ _ stacked.inRule loop
  refine (growRecursion_registers stacked.registers recursive _).imp fun _ p' ⟨registers, _⟩ => ?_
  obtain ⟨onNet, linked, ctx, callers, precedences⟩ := registers
  refine ⟨{ f with id := p.tree.size }, rest, ⟨onNet, linked, ctx, callers, precedences⟩, ?_,
    stacked.inRule_target walkable inner member plain⟩
  exact stacked.called.congr rfl rfl rfl fun plain => by simp [recursive] at plain

variable (fuel) in
/-- A rule is called. -/
theorem calls (stacked : Stacked net rule root p f rest) (walkable : net.Walkable)
    (inner : net.isStop p.state = false) (member : t ∈ net.out p.state) {r follow : Nat} {q : Int}
    (label : t.label = .rule r q follow) : Leads (do
      let node ← sure (addRule r (some p.ctx) (some p.state))
      if (net.state t.target).kind.isLeftRecursiveStart then sure (enterRecursion fuel node t.target q)
      else sure (enterRule fuel node t.target) : WalkM η Unit).run p
      (Outcome (fun _ p' => InOrder net rule root { p' with state := t.target }) fun _ p' => Stays p p') := by
  obtain ⟨known, target, -⟩ := walkable.call _ r q follow inner t member label
  obtain ⟨onNet, linked, ctx, callers, precedences⟩ := stacked.registers
  have parent : some p.ctx = Frame.top? (f :: rest) := congrArg some ctx
  rw [parent]
  refine Leads.walk_bind (.lift (.of_modifyGet (Q := fun node p' => node = p.tree.size ∧
    p' = { p with tree := (p.tree.addRule r (Frame.top? (f :: rest)) (some p.state)).2 }) ⟨rfl, rfl⟩))
    fun node p₁ same => ?_
  obtain ⟨rfl, rfl⟩ := same
  have entered := linked.enter r (some p.state) (net.state t.target).kind.isLeftRecursiveStart []
  have begins : Leads (if (net.state t.target).kind.isLeftRecursiveStart then
      enterRecursion fuel p.tree.size t.target q else enterRule fuel p.tree.size t.target)
      { p with tree := (p.tree.addRule r (Frame.top? (f :: rest)) (some p.state)).2 }
      fun _ p' => InOrder net rule root { p' with state := t.target } := by
    refine (begins_registers
      (p := { p with tree := (p.tree.addRule r (Frame.top? (f :: rest)) (some p.state)).2 }) fuel
      onNet entered rfl callers precedences t.target q).imp fun _ p' began => ?_
    obtain ⟨⟨onNet, linked, ctx, callers, precedences⟩, -⟩ := began
    refine ⟨_, f :: rest, ⟨onNet, linked, ctx, callers, precedences⟩, ⟨⟨known, target ▸ rfl⟩,
      ⟨p.state, rfl, stacked.inRule, inner, t, member, q, follow, label⟩, stacked.called⟩, ?_⟩
    rw [target]
    exact walkable.startRule r known
  split
  · rename_i recursive
    rw [if_pos recursive] at begins
    exact .lift begins
  · rename_i plain
    rw [if_neg plain] at begins
    exact .lift begins

end Stacked

variable (fuel) in
/-- Every transition keeps the stacks in order, unless it gives up its rule. -/
theorem take_inOrder (walkable : net.Walkable) (stacked : Stacked net rule root p f rest)
    (inner : net.isStop p.state = false) (member : t ∈ net.out p.state) :
    Leads (take fuel (net.state p.state) t).run p
      (Outcome (fun _ p' => InOrder net rule root { p' with state := t.target }) fun _ p' => Stays p p') := by
  have stays (plain : ∀ r q follow, t.label ≠ .rule r q follow) (steady : ∀ q, t.label = .epsilon q →
      ((net.state p.state).kind.isPrecedenceLoop && !(net.state t.target).kind.isLoopEnd) = false) :
      Leads (take fuel (net.state p.state) t).run p
        (Outcome (fun _ p' => InOrder net rule root { p' with state := t.target }) fun _ p' => Stays p p') := by
    refine ((stays_law net).take plain steady p stacked.registers.onNet).imp fun result p' stays => ?_
    cases result with
    | ok _ => exact stacked.goesOn stays (stacked.inRule_target walkable inner member plain)
    | error e => exact stays
  cases label : t.label with
  | rule r q follow =>
    have calls := stacked.calls fuel walkable inner member label
    unfold take
    refine .walk_get_bind ?_
    rw [stacked.registers.onNet, label, walkable.number]
    exact .walk_get_bind calls
  | epsilon q =>
    have plain : ∀ r q follow, t.label ≠ .rule r q follow := by simp [label]
    cases loops : (net.state p.state).kind.isPrecedenceLoop && !(net.state t.target).kind.isLoopEnd with
    | true =>
      have grows := stacked.grows fuel walkable inner member plain (Bool.and_eq_true_iff.1 loops).1
      unfold take
      refine .walk_get_bind ?_
      rw [stacked.registers.onNet, label]
      dsimp only
      rw [if_pos loops]
      exact .lift grows
    | false => exact stays plain fun _ _ => loops
  | _ => exact stays (by simp [label]) (by simp [label])

/-- A turn within a rule keeps the stacks in order, unless it gives up the rule. -/
theorem visit_inOrder (walkable : net.Walkable) (stacked : Stacked net rule root p f rest)
    (inner : net.isStop p.state = false) : Leads (visit fuel (net.state p.state)).run p
      (Outcome (fun _ p' => InOrder net rule root p') fun _ p' => Stays p p') := by
  have chooses : Leads (chooseAlt fuel (net.state p.state)).run p
      (Outcome (fun _ p' => Stays p p') fun _ p' => Stays p p') := by
    refine ((stays_law net).chooseAlt _ p stacked.registers.onNet).imp fun result p' stays => ?_
    cases result <;> exact stays
  refine Leads.walk_bind chooses fun alt p₁ stays => ?_
  split
  · exact .walk_get_bind (.of_throw stays)
  · rename_i t found
    have member : t ∈ net.out p.state := List.mem_of_getElem? found
    have takes := take_inOrder fuel walkable (stacked.stays stays) (stays.state ▸ inner)
      (stays.state ▸ member)
    rw [stays.state] at takes
    refine Leads.walk_bind (P := fun _ p' => InOrder net rule root { p' with state := t.target })
      (takes.imp fun result p' outcome => ?_) fun _ p₂ inOrder => .walk_modify inOrder
    cases result with
    | ok _ => exact outcome
    | error e => exact stays.trans outcome

/-- A rule that was called ends, and its caller goes on behind the call. -/
theorem returnFrom_inOrder (walkable : net.Walkable) (stacked : Stacked net rule root p f (g :: rest)) :
    Leads (returnFrom fuel (net.state p.state)) p fun result p' =>
      result = .ok () ∧ InOrder net rule root p' := by
  obtain ⟨ofRule, ⟨s, invoking, owner, inner, t, member, q, follow, label⟩, called⟩ := stacked.called
  obtain ⟨-, -, follows⟩ := walkable.call s f.rule q follow inner t member label
  have returned : (net.state follow).rule = some g.rule := by
    have next := walkable.owner s g.rule owner inner t member
    rwa [Transition.move, label] at next
  -- Behind the return, however the rule ended.
  have resumes {p₁ : Parser η} (registers : Registers net p₁ g rest) (state : p₁.state = s) :
      Leads returnFrom.resume p₁ fun result p' => result = .ok () ∧ InOrder net rule root p' := by
    obtain ⟨onNet, linked, ctx, callers, precedences⟩ := registers
    have goesOn : p₁.net.follow? p₁.state = some follow := by rw [onNet, state, follows]
    refine .get_bind ?_
    rw [goesOn]
    exact .set_bind (.pure ⟨rfl, g, rest, ⟨onNet, linked, ctx, callers, precedences⟩, called, returned⟩)
  obtain ⟨onNet, linked, ctx, callers, precedences⟩ := stacked.registers
  unfold returnFrom
  refine .get_bind ?_
  rw [onNet, stacked.inRule]
  dsimp only
  rw [← ofRule.recursive]
  split
  · rename_i recursive
    have callers : p.callers = ⟨some g.id, some s⟩ :: callersOf (g :: rest) := by
      rw [callers, callersOf, if_pos recursive, invoking]
      rfl
    refine Leads.bind (.of_modifyGet (Q := fun caller p' => caller = some ⟨some g.id, some s⟩ ∧
      p' = { p with callers := callersOf (g :: rest) }) ?_) fun caller p₁ known => ?_
    · rw [callers]
      exact ⟨rfl, rfl⟩
    obtain ⟨rfl, rfl⟩ := known
    have counted : p.precedences.length = (callersOf (g :: rest)).length + 2 := by
      rw [precedences, callers]
      rfl
    refine (leaveRecursion_registers (p := { p with callers := callersOf (g :: rest) }) onNet linked ctx rfl
      counted).bind fun _ p₂ registers => .modify_bind ?_
    obtain ⟨onNet, linked, ctx, callers, precedences⟩ := registers
    exact resumes ⟨onNet, linked, ctx, callers, precedences⟩ rfl
  · rename_i plain
    exact (exitRule_registers stacked.registers (by simpa using plain) invoking).bind
      fun _ p₁ known => resumes known.1 known.2

/-- The rule that the parse began with ends. -/
theorem finish_ok (stacked : Stacked net rule root p f []) : Leads (finish fuel root f.recursive) p
    fun result _ => ∃ top, result = .ok top := by
  unfold finish
  split
  · rename_i recursive
    have callers : p.callers.head? = some ⟨none, f.invoking⟩ := by
      rw [stacked.registers.callers, callersOf, if_pos recursive]
      rfl
    refine .get_bind (Leads.bind (.of_modifyGet (Q := fun caller _ => caller = some ⟨none, f.invoking⟩)
      callers) fun caller p₁ known => ?_)
    rw [known]
    exact Leads.bind (P := fun _ _ => True) (fun _ _ _ _ _ => trivial) fun _ _ _ => .pure ⟨_, rfl⟩
  · exact Leads.bind (P := fun _ _ => True) (fun _ _ _ _ _ => trivial) fun _ _ _ => .pure ⟨_, rfl⟩

variable (fuel) in
/-- A rule that is given up: the parser goes to its end. -/
theorem giveUp_inOrder (walkable : net.Walkable) (stacked : Stacked net rule root p f rest) (stays : Stays p p')
    (e : RecognitionError) : Leads (do
      modify fun p => { p with state := (p.net.ruleStop? f.rule).getD 0 }
      reportError fuel e
      recover fuel e : ParseM η Unit) p' fun _ p'' => InOrder net rule root p'' := by
  obtain ⟨onNet, linked, ctx, callers, precedences⟩ := stacked.registers.stays stays
  obtain ⟨stop, isEnd, ends⟩ := walkable.stop f.rule stacked.called.ofRule.known
  have stopped : Stacked net rule root { p' with state := stop } f rest :=
    ⟨⟨onNet, linked, ctx, callers, precedences⟩, stacked.called, ends.2⟩
  have goesTo : (p'.net.ruleStop? f.rule).getD 0 = stop := by rw [onNet, isEnd, Option.getD_some]
  refine .modify_bind ?_
  rw [goesTo]
  refine ((stays_law net).reportError e { p' with state := stop } onNet).bind fun _ p₂ stays₂ => ?_
  refine ((stays_law net).recover e p₂ (stays₂.net.trans onNet)).imp fun _ p₃ stays₃ => ?_
  exact ⟨f, rest, stopped.stays (stays₂.trans stays₃)⟩

/-- A turn does not fail, and the next one begins with the stacks in order again. -/
theorem turn_inOrder (walkable : net.Walkable) (inOrder : InOrder net rule root p) :
    Leads (turn fuel root (isLeftRecursive net rule)) p fun result p' =>
      match result with
      | none => InOrder net rule root p'
      | some result => ∃ top, result = .ok top := by
  obtain ⟨f, rest, stacked⟩ := inOrder
  unfold turn
  refine .get_bind ?_
  rw [stacked.registers.onNet]
  dsimp only
  change Leads (if net.isStop p.state = true then _ else _) p _
  cases isStop : net.isStop p.state with
  | true =>
    have invoking : (p.tree.node p.ctx).invoking = f.invoking := by
      rw [stacked.registers.ctx]
      exact stacked.registers.linked.invoking
    rw [if_pos rfl, invoking]
    cases rest with
    | nil =>
      obtain ⟨ofRule, uncalled, first, -⟩ := stacked.called
      rw [uncalled, isLeftRecursive, ← first, ← ofRule.recursive]
      exact (finish_ok stacked).bind fun result _ known => .pure known
    | cons g rest =>
      obtain ⟨-, ⟨s, invoked, -⟩, -⟩ := stacked.called
      rw [invoked]
      refine (returnFrom_inOrder walkable stacked).bind fun result p₁ known => ?_
      rw [known.1]
      exact .pure known.2
  | false =>
    rw [if_neg Bool.false_ne_true]
    refine (visit_inOrder walkable stacked isStop).bind fun result p₁ outcome => ?_
    cases result with
    | ok _ => exact .pure outcome
    | error e =>
      have gives := (giveUp_inOrder fuel walkable stacked outcome e).bind
        (f := fun _ => (pure none : ParseM η (Option (Except ParseError Nat))))
        (Q := fun result p' => match result with
          | none => InOrder net rule root p'
          | some result => ∃ top, result = .ok top) fun _ p₂ inOrder => .pure inOrder
      simp only [bind_assoc] at gives
      rw [stacked.inRule]
      exact gives

/-! ## Whole parses -/

/-- When the first rule has begun, the stacks are in order. -/
theorem opening_inOrder (walkable : net.Walkable) (onNet : p.net = net) (known : rule < net.numRules) :
    Leads (opening net fuel rule) p fun root p' => InOrder net rule root p' := by
  refine .modify_bind (Leads.bind (.of_modifyGet (Q := fun root p' => root = 0 ∧
    p' = { clear p with tree := ((clear p).tree.addRule rule (Frame.top? []) none).2 }) ⟨rfl, rfl⟩)
    fun root p₁ same => ?_)
  obtain ⟨rfl, rfl⟩ := same
  have empty : (clear p).tree.Linked [] := trivial
  have entered := empty.enter rule none (isLeftRecursive net rule) []
  have begins := begins_registers
    (p := { clear p with tree := ((clear p).tree.addRule rule (Frame.top? []) none).2 }) fuel
    onNet entered rfl rfl rfl (net.ruleStart rule) 0
  have inOrder {p' : Parser η} (began : Registers net p'
      { id := 0, rule, invoking := none, recursive := isLeftRecursive net rule } [] ∧
        p'.state = net.ruleStart rule) : InOrder net rule 0 p' := by
    refine ⟨_, [], began.1, ⟨⟨known, rfl⟩, rfl, rfl, fun _ => rfl⟩, ?_⟩
    rw [began.2]
    exact walkable.startRule rule known
  dsimp only
  split
  · rename_i recursive
    rw [isLeftRecursive, if_pos recursive] at begins
    exact begins.bind fun _ p₂ began => .pure (inOrder began)
  · rename_i plain
    rw [isLeftRecursive, if_neg plain] at begins
    exact begins.bind fun _ p₂ began => .pure (inOrder began)

theorem Arrives.inOrder (walkable : net.Walkable) (onNet : p.net = net) (known : rule < net.numRules)
    {q : Parser η} (arrives : Arrives fuel rule p root q) : InOrder net rule root q := by
  obtain ⟨j, p₀, j₀, opens, turns⟩ := arrives
  rw [onNet] at opens turns
  induction turns with
  | none => exact opening_inOrder walkable onNet known j root p₀ j₀ opens
  | more turns goesOn ih => exact turn_inOrder walkable ih _ _ _ _ goesOn

theorem walk_ok (walkable : net.Walkable) (inOrder : InOrder net rule root p) (rounds : Nat) :
    Leads (walk fuel root (isLeftRecursive net rule) rounds) p fun result _ => ∃ top, result = .ok top := by
  induction rounds generalizing p with
  | zero => exact .of_failure
  | succ rounds ih =>
    rw [walk_succ]
    refine (turn_inOrder walkable inOrder).bind fun result p' known => ?_
    cases result with
    | none => exact ih known
    | some result => exact .pure known

theorem parse_ok (walkable : net.Walkable) (onNet : p.net = net) (known : rule < net.numRules) :
    Leads (parse fuel rule) p fun result _ => ∃ top, result = .ok top := by
  rw [parse_eq]
  refine .get_bind ?_
  rw [onNet, if_neg (Nat.not_le.2 known)]
  refine (opening_inOrder walkable onNet known).bind fun root p₁ inOrder => ?_
  refine (walk_ok walkable inOrder fuel).bind fun result p₂ isOk => ?_
  obtain ⟨top, rfl⟩ := isOk
  exact Leads.bind (P := fun _ _ => True) (fun _ _ _ _ _ => trivial) fun _ _ _ => .pure ⟨top, rfl⟩

/-- There is one more precedence than there are callers, and the callers are as many as the left-recursive
nodes of the line of the node in progress. -/
structure Balanced (p : Parser η) : Prop where
  precedences : p.precedences.length = p.callers.length + 1
  callers : p.callers.length =
    (p.tree.lineage p.ctx).countP fun n => (p.tree.rule? n).any (isLeftRecursive p.net)

/-- The callers are those of the left-recursive frames. -/
theorem length_callersOf {t : ParseTree} (linked : t.Linked (f :: rest)) (called : Called net rule root f rest) :
    (callersOf (f :: rest)).length =
      ((f :: rest).map Frame.id).countP fun n => (t.rule? n).any (isLeftRecursive net) := by
  have counts {f : Frame} {rest : List Frame} (linked : t.Linked (f :: rest)) (ofRule : OfRule net f)
      (outer : (callersOf rest).length =
        (rest.map Frame.id).countP fun n => (t.rule? n).any (isLeftRecursive net)) :
      (callersOf (f :: rest)).length =
        ((f :: rest).map Frame.id).countP fun n => (t.rule? n).any (isLeftRecursive net) := by
    have here : (t.rule? f.id).any (isLeftRecursive net) = f.recursive := by
      rw [linked.rule, ofRule.recursive]
      rfl
    rw [callersOf, List.map_cons, List.countP_cons, here, ← outer]
    cases f.recursive <;> rfl
  induction rest generalizing f with
  | nil => exact counts linked called.1 rfl
  | cons g rest ih => exact counts linked called.1 (ih linked.tail called.2.2)

theorem Stacked.balanced (stacked : Stacked net rule root p f rest) : p.Balanced := by
  obtain ⟨⟨onNet, linked, ctx, callers, precedences⟩, called, -⟩ := stacked
  refine ⟨precedences, ?_⟩
  rw [callers, onNet, ctx, linked.lineage_eq]
  exact length_callersOf linked called

/-- Only a parse of an unknown rule fails. Whatever the tokens, the user code, the mode and the cache are, the
stacks are balanced whenever a turn begins, no turn of the parse fails, and a parse that ends returns the root
of a tree. -/
theorem parse_balanced {g : Grammar} {compiled : CompiledGrammar} {verify : Bool} (assembled : g.Assembled)
    (representable : g.Representable) (run : g.compile = .ok compiled)
    (decoded : Network.decode compiled.words verify = .ok net) (onNet : p.net = net)
    (known : rule < net.numRules) :
    (∀ root q, Arrives fuel rule p root q → q.Balanced ∧
      Leads (turn fuel root (isLeftRecursive net rule)) q fun result _ => ∀ e, result ≠ some (.error e)) ∧
    ∀ j result p' j', ((parse fuel rule).run p).run j = some ((result, p'), j') → ∃ top, result = .ok top := by
  have walkable := Grammar.compile_walkable assembled representable run decoded
  refine ⟨fun root q arrives => ?_, parse_ok walkable onNet known⟩
  have inOrder := arrives.inOrder walkable onNet known
  refine ⟨inOrder.elim fun f ⟨rest, stacked⟩ => stacked.balanced, ?_⟩
  refine (turn_inOrder walkable inOrder).imp fun result _ outcome e fails => ?_
  rw [fails] at outcome
  obtain ⟨top, same⟩ := outcome
  cases same

/-- Powers, which group to the right. -/
def powers : Grammar :=
  (Grammar.parser "Powers" { literalNames := [none, some "'n'", some "'^'"] })
    |>.leftRecursive "power" [.literal "n"] [.binary (.literal "^") .right]

/-- A parser of powers. -/
def powerOver (net : Network) : Parser Unit where
  net
  info := powers.info
  hooks := .silent
  sim := {
    cache := .ofNetwork net
    mode := .ll
    stream := { source := .list { tokens := #[] } () } }

theorem powers_representable : powers.Representable := by
  intro r member e leaf
  obtain rfl := List.mem_singleton.1 member
  simp only [Element.leaves, Element.leavesAll, Operator.body, Operator.tails, Operator.tail, List.zipIdx_cons,
    List.zipIdx_nil, List.map_cons, List.map_nil, Element.star, List.append_nil, List.cons_append,
    List.nil_append, List.mem_cons, List.not_mem_nil, or_false] at leaf
  rcases leaf with rfl | rfl | rfl | rfl <;> exact trivial

/-- The first turn of a parse of powers begins with one caller. A parse of a sum without its sign ends with an
error that is counted, but it does not fail. -/
theorem parse_balanced_powers : (∃ compiled net, powers.compile = .ok compiled ∧
      Network.decode compiled.words true = .ok net ∧ ∃ root q, Arrives 60 0 (powerOver net) root q ∧
      q.callers.length = 1 ∧ q.precedences = [0, 0] ∧ q.Balanced) ∧
    ∃ net top p', sumParse false = some (net, .ok top, p') ∧ p'.syntaxErrors = 1 := by
  constructor
  · have answer : (do
        let net ← (Network.decode (← powers.compile.toOption).words true).toOption
        let ((_, q), _) ← ((opening net 60 0).run (powerOver net)).run #[]
        return (net.numRules, q.callers.length, q.precedences)) = some (1, 1, [0, 0]) := by decide +kernel
    simp only [Option.bind_eq_bind, Option.bind_eq_some_iff] at answer
    obtain ⟨compiled, compiles, net, decodes, ⟨⟨root, q⟩, j⟩, opens, same⟩ := answer
    simp only [pure, Option.some.injEq, Prod.mk.injEq] at same
    obtain ⟨rules, callers, precedences⟩ := same
    have assembled : powers.Assembled := .leftRecursive _ _ _ (.parser _ _)
    have arrives : Arrives 60 0 (powerOver net) root q := ⟨_, q, _, opens, .none⟩
    have balanced := (parse_balanced (p := powerOver net) assembled powers_representable
      (except_ok_of_some compiles) (except_ok_of_some decodes) rfl (by simp [rules])).1 root q arrives
    exact ⟨compiled, net, except_ok_of_some compiles, except_ok_of_some decodes, root, q, arrives, callers, precedences,
      balanced.1⟩
  · have answer : (sumParse false).map (fun r => (r.1.numRules, r.2.2.syntaxErrors)) = some (2, 1) := by
      decide +kernel
    obtain ⟨⟨net, result, p'⟩, parsed, facts⟩ := Option.map_eq_some_iff.1 answer
    obtain ⟨rules, errors⟩ := Prod.mk.inj facts
    obtain ⟨compiled, j, compiles, decodes, ran⟩ := sumParse_ends parsed
    have known : 0 < net.numRules := by simp [show net.numRules = 2 from rules]
    obtain ⟨top, rfl⟩ := (parse_balanced guardedSum_assembled guardedSum_representable compiles decodes rfl
      known).2 _ _ _ _ ran
    exact ⟨net, top, p', parsed, errors⟩

end AdaptiveLL.Parser
