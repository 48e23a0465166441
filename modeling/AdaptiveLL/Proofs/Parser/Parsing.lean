import AdaptiveLL.Proofs.Parser.Walking

/-!
# Parses keep their tokens and follow the network

Each turn of the walk either goes on within a rule, enters one or returns from one, and the frames of the
tree follow it (`take_walks`, `returnFrom_walks`). So whatever is predicted and repaired, the tree that a
parse ends with has exactly the tokens that were passed as its leaves, and if no error was counted then
they spell a path through the rule that the parse began with (`walk_ends`).
-/

set_option autoImplicit false

namespace AdaptiveLL.Parser

open Session TokenStream Network

variable {η : Type} {P : Int → Prop} {net : Network} {o : Begun η} {p p' : Parser η}
  {f g : Frame} {rest : List Frame} {fuel : Nat} {t : Transition}

/-! ## Transitions -/

/-- A transition that consumes a token comes after a look ahead. -/
theorem Walking.matchesAfter {p₁ : Parser η} (walking : Walking P net o p f rest)
    (clean : Clean P net p f rest) (walkable : net.Walkable) (inner : net.isStop p.state = false)
    (member : t ∈ net.out p.state) (plain : ∀ r q follow, t.label ≠ .rule r q follow) {accepted : Bool}
    (gains : Gains P p [] p₁) {u : Token} (faces : p₁.stream.Faces u)
    (accepts : (0 < u.type → u.type ≤ net.maxTokenType) → accepted = true →
      t.label.accepts u.type minTokenType net.maxTokenType = true) :
    Leads (matchOrRepair fuel accepted).run p₁ (Takes P net o p t.target) := by
  obtain ⟨f₁, rest₁, walking₁, clean₁⟩ := walking.stays clean gains fun _ => rfl
  refine (walking₁.matches clean₁ walkable (gains.state ▸ inner) (gains.state ▸ member) plain faces
    accepts).imp fun result p' takes => ?_
  cases result with
  | ok _ => exact takes
  | error e => exact gains.some.trans takes

/-- A left-recursive rule goes on around what it has built so far. -/
theorem Walking.grows (walking : Walking P net o p f rest) (clean : Clean P net p f rest)
    (walkable : net.Walkable) (inner : net.isStop p.state = false) (member : t ∈ net.out p.state)
    (plain : ∀ r q follow, t.label ≠ .rule r q follow) (isFree : t.label.isEpsilon = true)
    (loop : (net.state p.state).kind.isPrecedenceLoop = true) :
    Leads (growRecursion fuel (net.state p.state)) p fun _ p' =>
      Walks P net o { p' with state := t.target } := by
  have loose : f.recursive = true := by
    rw [walking.called.ofRule.recursive]
    exact walkable.loop _ _ walking.inRule loop
  have caller : p.callers.head? = some ⟨Frame.top? rest, f.invoking⟩ := by
    rw [walking.callers, callersOf, if_pos loose, List.head?_cons]
  refine (growRecursion_leads walking.ready walking.standing loose walking.ctx caller _).imp
    fun _ p' ⟨same, reads, standing⟩ => ?_
  have leaves : Frame.leavesAll ({ f with id := p.tree.size, done := [f.finished] } :: rest) =
      Frame.leavesAll (f :: rest) := by
    simp [Frame.leavesAll, Frame.finished, Subtree.leavesAll, Subtree.leaves]
  refine ⟨_, rest, walking.reframe ?_ reads standing ?_ (walking.inRule_target walkable inner member plain)
    leaves, clean.reframe ?_ leaves fun traced => traced.goes rfl rfl ?_⟩
  · have callers : callersOf ({ f with id := p.tree.size, done := [f.finished] } :: rest) = p.callers :=
      walking.callers.symm
    rw [callers, same]
  · exact walking.called.congr rfl rfl rfl fun attached => by simp [loose] at attached
  · rw [same]
  · have word : Frame.word { f with id := p.tree.size, done := [f.finished] } = f.word ++ [] := by
      simp [Frame.word, Frame.finished, Subtree.leavesAll, Subtree.leaves]
    rw [word]
    exact traced.path.append (.free inner (free_mem_moves plain isFree member) (.stay _))

/-- A rule is called. -/
theorem Walking.calls (walking : Walking P net o p f rest) (clean : Clean P net p f rest)
    (walkable : net.Walkable) (inner : net.isStop p.state = false) (member : t ∈ net.out p.state)
    {r follow : Nat} {q : Int} (label : t.label = .rule r q follow) :
    Leads (do
      let node ← sure (addRule r (some p.ctx) (some p.state))
      if (net.state t.target).kind.isLeftRecursiveStart then sure (enterRecursion fuel node t.target q)
      else sure (enterRule fuel node t.target) : WalkM η Unit).run p (Takes P net o p t.target) := by
  obtain ⟨known, target, -⟩ := walkable.call _ r q follow inner t member label
  have parent : some p.ctx = Frame.top? (f :: rest) := congrArg some walking.ctx
  rw [parent]
  refine Leads.walk_bind (.lift (.of_modifyGet (Q := fun node p' => node = p.tree.size ∧
    p' = { p with tree := (p.tree.addRule r (Frame.top? (f :: rest)) (some p.state)).2 }) ⟨rfl, rfl⟩))
    fun node p₁ same => ?_
  obtain ⟨rfl, rfl⟩ := same
  have standing := walking.standing.enter r (some p.state)
  have ready : Ready P { p with
      tree := (p.tree.addRule r (Frame.top? (f :: rest)) (some p.state)).2 } :=
    ⟨walking.ready.trees, walking.ready.sound⟩
  -- The new frame, however its node is attached.
  have walks (recursive : Bool) {p' : Parser η}
      (isRecursive : recursive = (net.state t.target).kind.isLeftRecursiveStart)
      (same : p' = { p with
        sim := p'.sim, tree := p'.tree, state := t.target, precedences := p'.precedences, ctx := p.tree.size
        callers := callersOf ({ id := p.tree.size, rule := r, invoking := some p.state, recursive } ::
          f :: rest) })
      (reads : Reads P p.stream p'.stream)
      (standing : p'.tree.Standing
        ({ id := p.tree.size, rule := r, invoking := some p.state, recursive } :: f :: rest)) :
      Walks P net o { p' with state := t.target } := by
    have leaves : Frame.leavesAll
        ({ id := p.tree.size, rule := r, invoking := some p.state, recursive } :: f :: rest) =
        Frame.leavesAll (f :: rest) := by
      simp [Frame.leavesAll, Subtree.leavesAll]
    refine ⟨_, f :: rest, walking.reframe ?_ reads standing ?_ ?_ leaves, clean.reframe ?_ leaves
      fun traced => ⟨?_, p.state, rfl, traced⟩⟩
    · rw [same]
    · exact ⟨⟨known, by rw [← target]; exact isRecursive⟩,
        ⟨p.state, rfl, walking.inRule, inner, t, member, q, follow, label⟩, walking.called⟩
    · rw [target]
      exact walkable.startRule r known
    · rw [same]
    · rw [target]
      exact .stay _
  split
  · rename_i recursive
    refine .lift ((enterRecursion_leads ready standing t.target q).imp fun _ p' entered => ?_)
    obtain ⟨same, reads, standing'⟩ := entered
    refine walks true recursive.symm ?_ reads standing'
    rw [same, callersOf, if_pos rfl, walking.callers]
  · rename_i plain
    refine .lift ((enterRule_leads ready standing rfl t.target).imp fun _ p' entered => ?_)
    obtain ⟨same, reads, standing'⟩ := entered
    refine walks false (by simpa using plain) ?_ reads standing'
    rw [same, callersOf, if_neg Bool.false_ne_true, walking.callers]

/-- User code does not move the parser. -/
theorem looks_setUserState (ready : Ready P p) (h : η) : Looks P p (p.setUserState h) :=
  ⟨rfl, ready.sound.reads_setHooks h⟩

/-- Every transition keeps the walk, unless it gives up its rule. -/
theorem take_walks (walkable : net.Walkable) (walking : Walking P net o p f rest)
    (clean : Clean P net p f rest) (inner : net.isStop p.state = false) (member : t ∈ net.out p.state) :
    Leads (take fuel (net.state p.state) t).run p (Takes P net o p t.target) := by
  unfold take
  refine .walk_get_bind ?_
  rw [walking.onNet]
  dsimp only
  have looked : ∀ {accepts : Int → Bool}, (∀ r q follow, t.label ≠ .rule r q follow) →
      (∀ symbol, (0 < symbol → symbol ≤ net.maxTokenType) → accepts symbol = true →
        t.label.accepts symbol minTokenType net.maxTokenType = true) →
      Leads (do matchOrRepair fuel (accepts (← sure (la fuel 1))) : WalkM η Unit).run p
        (Takes P net o p t.target) := fun {accepts} plain sound => by
    refine Leads.walk_bind (.lift (la_leads walking.ready 1)) fun symbol p₁ seen => ?_
    obtain ⟨looks, faced⟩ := seen
    obtain ⟨u, faces, rfl⟩ := faced rfl
    exact walking.matchesAfter clean walkable inner member plain (looks.gains walking.ready) faces
      (sound u.type)
  have stands : Gains P p [] p := (Looks.refl walking.ready).gains walking.ready
  split
  · rename_i label
    have plain : ∀ r q follow, t.label ≠ .rule r q follow := by simp [label]
    have isFree : t.label.isEpsilon = true := by simp [label, Label.isEpsilon]
    split
    · rename_i loops
      exact .lift (walking.grows clean walkable inner member plain isFree (Bool.and_eq_true_iff.1 loops).1)
    · exact .walk_pure (walking.free clean walkable inner member plain isFree stands)
  · rename_i symbol label
    have plain : ∀ r q follow, t.label ≠ .rule r q follow := by simp [label]
    refine Leads.walk_bind (.lift (la_leads walking.ready 1)) fun type p₁ seen => ?_
    obtain ⟨looks, faced⟩ := seen
    obtain ⟨u, faces, rfl⟩ := faced rfl
    have gains := looks.gains walking.ready
    have accepts : (0 < u.type → u.type ≤ net.maxTokenType) → (u.type == symbol) = true →
        t.label.accepts u.type minTokenType net.maxTokenType = true := fun _ same => by
      rw [label, Label.accepts]
      exact beq_iff_eq.2 (beq_iff_eq.1 same).symm
    split
    · refine Leads.walk_bind (P := fun _ p' => Gains P p [] p' ∧ p'.stream = p₁.stream) (.walk_modify ?_)
        fun _ p₂ noted => ?_
      · exact ⟨gains.trans (gains_note gains.ready p₁.recovery true rfl), rfl⟩
      · obtain ⟨gains₂, stream⟩ := noted
        exact walking.matchesAfter clean walkable inner member plain gains₂ (stream ▸ faces) accepts
    · exact walking.matchesAfter clean walkable inner member plain gains faces accepts
  · rename_i label
    exact looked (by simp [label]) fun _ _ => id
  · rename_i label
    exact looked (by simp [label]) fun _ _ => id
  · rename_i label
    exact looked (by simp [label]) fun _ _ => id
  · rename_i label
    refine looked (by simp [label]) fun symbol bound positive => ?_
    have positive : 0 < symbol := by simpa using positive
    rw [label, Label.accepts]
    exact decide_eq_true ⟨positive, bound positive⟩
  · rename_i r q follow label
    rw [walkable.number]
    exact .walk_get_bind (walking.calls clean walkable inner member label)
  · rename_i rule pred ctx label
    have plain : ∀ r q follow, t.label ≠ .rule r q follow := by simp [label]
    have isFree : t.label.isEpsilon = true := by simp [label, Label.isEpsilon]
    refine Leads.walk_bind (P := fun _ p' => Gains P p [] p') (.lift (.of_modifyGet ?_))
      fun answer p₁ gains => ?_
    · exact (looks_setUserState walking.ready _).gains walking.ready
    split
    · exact .of_throw gains.some
    · exact .walk_pure (walking.free clean walkable inner member plain isFree gains)
  · rename_i rule action ctx label
    have plain : ∀ r q follow, t.label ≠ .rule r q follow := by simp [label]
    have isFree : t.label.isEpsilon = true := by simp [label, Label.isEpsilon]
    split
    · refine .lift (.of_modify ?_)
      exact walking.free clean walkable inner member plain isFree
        ((looks_setUserState walking.ready _).gains walking.ready)
    · exact .walk_pure (walking.free clean walkable inner member plain isFree stands)
  · rename_i q label
    have plain : ∀ r q follow, t.label ≠ .rule r q follow := by simp [label]
    have isFree : t.label.isEpsilon = true := by simp [label, Label.isEpsilon]
    refine .walk_get_bind ?_
    split
    · exact .of_throw stands.some
    · exact .walk_pure (walking.free clean walkable inner member plain isFree stands)

/-! ## Turns -/

/-- A turn within a rule keeps the walk, unless it gives up the rule. -/
theorem visit_walks (walkable : net.Walkable) (walking : Walking P net o p f rest)
    (clean : Clean P net p f rest) (inner : net.isStop p.state = false) :
    Leads (visit fuel (net.state p.state)).run p
      (Outcome (fun _ p' => Walks P net o p') fun _ p' => GainsSome P p p') := by
  refine Leads.walk_bind (chooseAlt_leads walking.ready _) fun alt p₁ ⟨ks, gains, quiet⟩ => ?_
  obtain ⟨f₁, rest₁, walking₁, clean₁⟩ := walking.stays clean gains (quiet walking.calm)
  split
  · exact .walk_get_bind (.of_throw gains.some)
  · rename_i t found
    have member : t ∈ net.out p₁.state := gains.state ▸ List.mem_of_getElem? found
    refine Leads.walk_bind (P := fun _ p' => Walks P net o { p' with state := t.target }) ?_
      fun _ p₂ walks => .walk_modify walks
    rw [← gains.state]
    refine (take_walks walkable walking₁ clean₁ (gains.state ▸ inner) member).imp fun result p' takes => ?_
    cases result with
    | ok _ => exact takes
    | error e => exact gains.some.trans takes

/-- A rule that was called ends, and its caller goes on behind the call. -/
theorem returnFrom_walks (walkable : net.Walkable) (walking : Walking P net o p f (g :: rest))
    (clean : Clean P net p f (g :: rest)) (isStop : net.isStop p.state = true) :
    Leads (returnFrom fuel (net.state p.state)) p fun result p' => result = .ok () ∧ Walks P net o p' := by
  obtain ⟨ofRule, ⟨s, invoking, owner, inner, t, member, q, follow, label⟩, called⟩ := walking.called
  obtain ⟨-, target, follows⟩ := walkable.call s f.rule q follow inner t member label
  have move : .call f.rule t.target follow ∈ net.moves s :=
    List.mem_map.2 ⟨t, member, by simp [Transition.move, label]⟩
  have returned : (net.state follow).rule = some g.rule := by
    have next := walkable.owner s g.rule owner inner t member
    rwa [Transition.move, label] at next
  -- Behind the return, however the node of the rule was attached.
  have resumes (f' : Frame) {p₁ : Parser η} (sameRule : f'.rule = f.rule) (done : f'.done = f.done)
      (same : p₁ = { p with
        sim := p₁.sim, tree := p₁.tree, state := s, precedences := p₁.precedences
        ctx := g.id, callers := callersOf (g :: rest) })
      (reads : Reads P p.stream p₁.stream) (standing : p₁.tree.Standing (g.add f'.finished :: rest)) :
      Leads returnFrom.resume p₁ fun result p' => result = .ok () ∧ Walks P net o p' := by
    have leaves : Frame.leavesAll (g.add f'.finished :: rest) = Frame.leavesAll (f :: g :: rest) := by
      simp [Frame.leavesAll, Frame.add, Frame.finished, Subtree.leavesAll_append, Subtree.leavesAll,
        Subtree.leaves, done]
    refine .get_bind ?_
    have goesOn : p₁.net.follow? p₁.state = some follow := by
      rw [same]
      exact (congrArg (·.follow? s) walking.onNet).trans follows
    rw [goesOn]
    refine .set_bind (.pure ⟨rfl, _, rest, walking.reframe ?_ reads standing ?_ returned leaves,
      clean.reframe ?_ leaves fun traced => ?_⟩)
    · rw [same]
      rfl
    · exact called.congr rfl rfl rfl fun _ => rfl
    · rw [same]
    · obtain ⟨through, s', invoked, outer⟩ := traced
      obtain rfl : s = s' := Option.some.inj (invoking.symm.trans invoked)
      refine outer.goes rfl rfl ?_
      have word : (g.add f'.finished).word = g.word ++ (f.word ++ []) := by
        simp [Frame.word, Frame.add, Frame.finished, Subtree.leavesAll_append, Subtree.leavesAll,
          Subtree.leaves, done]
      rw [word]
      refine outer.path.append (.call inner move (target ▸ through) ⟨isStop, walking.inRule⟩ (.stay _))
  unfold returnFrom
  refine .get_bind ?_
  rw [walking.onNet, walking.inRule]
  dsimp only
  rw [← ofRule.recursive]
  split
  · rename_i recursive
    have callers : p.callers = ⟨some g.id, some s⟩ :: callersOf (g :: rest) := by
      rw [walking.callers, callersOf, if_pos recursive, invoking]
      rfl
    refine Leads.bind (.of_modifyGet (Q := fun caller p' => caller = some ⟨some g.id, some s⟩ ∧
      p' = { p with callers := callersOf (g :: rest) }) ?_) fun caller p₁ known => ?_
    · rw [callers]
      exact ⟨rfl, rfl⟩
    obtain ⟨rfl, rfl⟩ := known
    dsimp only
    have ready : Ready P { p with callers := callersOf (g :: rest) } :=
      ⟨walking.ready.trees, walking.ready.sound⟩
    refine (leaveRecursion_leads ready walking.standing recursive walking.ctx).bind
      fun _ p₂ left => ?_
    obtain ⟨same, reads, standing⟩ := left
    refine .modify_bind (resumes { f with recursive := false } rfl rfl ?_ reads standing)
    rw [same]
  · rename_i attached
    have attached : f.recursive = false := by simpa using attached
    refine (exitRule_leads walking.ready walking.standing attached walking.ctx).bind
      fun _ p₁ left => ?_
    obtain ⟨same, reads, standing⟩ := left
    refine resumes f rfl rfl ?_ reads standing
    have callers : p.callers = callersOf (g :: rest) := by
      rw [walking.callers, callersOf, if_neg (by simp [attached])]
    rw [same, invoking, ← callers]
    rfl

/-! ## Whole walks -/

/-- What a parse ends with: the subtree at the root holds the tokens that were passed, and unless an error
was counted they are recognized by the rule. -/
structure Ends (P : Int → Prop) (net : Network) (o : Begun η) (p : Parser η) (T : Subtree) : Prop where
  sound : p.stream.Sound P
  channel : p.stream.channel = o.stream.channel
  forth : o.stream.index ≤ p.stream.index
  holds : p.tree.Holds none T
  apart : T.ids.Nodup
  passed : T.leaves.filterMap NodeKind.passed? = p.stream.between o.stream.index p.stream.index
  clean : net.Bounds P → p.syntaxErrors = 0 →
    (∀ k ∈ T.leaves, k.isError = false) ∧
      net.Recognizes minTokenType net.maxTokenType o.rule (T.leaves.filterMap NodeKind.symbol?)

/-- Only the stream and the tree may change at the end. -/
theorem Walking.ends (walking : Walking P net o p f []) (clean : Clean P net p f [])
    (isStop : net.isStop p.state = true) (reads : Reads P p.stream p'.stream)
    (standing : p'.tree.Standing [f]) (errors : p'.syntaxErrors = p.syntaxErrors) :
    Ends P net o p' f.finished := by
  obtain ⟨-, -, rule, -⟩ := walking.called
  have leaves : f.finished.leaves = Frame.leavesAll [f] := by
    simp [Frame.leavesAll, Frame.finished, Subtree.leaves]
  have holds := standing.holds
  refine ⟨reads.sound, reads.channel.trans walking.channel, Nat.le_trans walking.before reads.forth, holds.1,
    holds.2, ?_, fun small none' => ?_⟩
  · rw [leaves, ← walking.passed, reads.between_eq walking.ready.sound walking.before]
  · obtain ⟨untouched, traced⟩ := clean small (errors ▸ none')
    rw [leaves, ← rule]
    refine ⟨untouched, p.state, ⟨isStop, walking.inRule⟩, ?_⟩
    have word : f.word = (Frame.leavesAll [f]).filterMap NodeKind.symbol? := by
      simp [Frame.word, Frame.leavesAll]
    exact word ▸ traced.path

theorem finish_ends (walking : Walking P net o p f []) (clean : Clean P net p f [])
    (isStop : net.isStop p.state = true) : Leads (finish fuel o.root f.recursive) p fun result p' =>
      ∃ T, result = .ok T.id ∧ Ends P net o p' T := by
  obtain ⟨-, invoking, -, root⟩ := walking.called
  unfold finish
  split
  · rename_i recursive
    refine .get_bind (Leads.bind (.of_modifyGet (Q := fun caller p' => caller = some ⟨none, none⟩ ∧
      p' = { p with callers := [] }) ?_) fun caller p₁ known => ?_)
    · rw [walking.callers, callersOf, if_pos recursive, invoking]
      exact ⟨rfl, rfl⟩
    obtain ⟨rfl, rfl⟩ := known
    have ready : Ready P { p with callers := [] } := ⟨walking.ready.trees, walking.ready.sound⟩
    refine (leaveRecursion_leads_last ready walking.standing walking.ctx).bind
      fun _ p₂ ⟨same, reads, standing⟩ => .pure ⟨f.finished, by rw [walking.ctx]; rfl, ?_⟩
    exact walking.ends clean isStop reads standing (by rw [same])
  · rename_i attached
    have isRoot := root (by simpa using attached)
    refine (exitRule_leads_last walking.ready walking.standing walking.ctx invoking).bind
      fun _ p₁ ⟨same, reads, standing⟩ => .pure ⟨f.finished, by rw [← isRoot]; rfl, ?_⟩
    exact walking.ends clean isStop reads standing (by rw [same])

/-- A rule that is given up is counted, and the parser goes to its end. -/
theorem giveUp_walks (walkable : net.Walkable) (walking : Walking P net o p f rest)
    (gains : GainsSome P p p') (fuel : Nat) (e : RecognitionError) : Leads (do
      modify fun p => { p with state := (p.net.ruleStop? f.rule).getD 0 }
      reportError fuel e
      recover fuel e : ParseM η Unit) p' fun _ p'' => Walks P net o p'' := by
  obtain ⟨ks, gains⟩ := gains
  obtain ⟨f₁, longer, walking₁⟩ := walking.gains gains
  have sameRule : f₁.rule = f.rule := by
    obtain ⟨cs, rfl, -⟩ := longer
    rfl
  obtain ⟨stop, isEnd, ends⟩ := walkable.stop f.rule walking.called.ofRule.known
  have stopped : Walking P net o { p' with state := stop } f₁ rest :=
    walking₁.reframe (by rw [← walking₁.callers, ← walking₁.ctx]) (.refl walking₁.ready.sound)
      walking₁.standing walking₁.called (by rw [sameRule]; exact ends.2) rfl
  have goesTo : (p'.net.ruleStop? f.rule).getD 0 = stop := by rw [walking₁.onNet, isEnd, Option.getD_some]
  refine .modify_bind ?_
  rw [goesTo]
  refine (reportError_leads stopped.ready e).bind fun _ p₂ ⟨gains₂, counted⟩ =>
    (recover_leads gains₂.ready e).imp fun _ p₃ ⟨ks₃, gains₃⟩ => ?_
  obtain ⟨f₃, -, walking₃⟩ := stopped.gains (gains₂.trans gains₃)
  refine ⟨f₃, rest, walking₃, fun _ none' => absurd ?_ (counted stopped.calm)⟩
  exact Nat.le_zero.1 (none' ▸ gains₃.errors)

/-- Whatever the parser meets, a walk that ends returns the root of the tree of what it has passed. -/
theorem walk_ends (walkable : net.Walkable) {rounds : Nat} (walks : Walks P net o p) :
    Leads (walk fuel o.root (net.state (net.ruleStart o.rule)).kind.isLeftRecursiveStart rounds) p
      fun result p' => ∃ T, result = .ok T.id ∧ Ends P net o p' T := by
  induction rounds generalizing p with
  | zero => exact .of_failure
  | succ rounds ih =>
    obtain ⟨f, rest, walking, clean⟩ := walks
    refine .get_bind ?_
    rw [walking.onNet]
    dsimp only
    change Leads (if net.isStop p.state = true then _ else _) p _
    cases isStop : net.isStop p.state with
    | true =>
      have invoking : (p.tree.node p.ctx).invoking = f.invoking := by
        rw [walking.ctx]
        exact walking.standing.spine.2.1
      rw [if_pos rfl, invoking]
      cases rest with
      | nil =>
        obtain ⟨ofRule, uncalled, rule, -⟩ := walking.called
        rw [uncalled, ← rule, ← ofRule.recursive]
        exact finish_ends walking clean isStop
      | cons g rest =>
        obtain ⟨-, ⟨s, invoked, -⟩, -⟩ := walking.called
        rw [invoked]
        refine (returnFrom_walks walkable walking clean isStop).bind fun result p₁ ⟨isOk, walks⟩ => ?_
        rw [isOk]
        exact ih walks
    | false =>
      rw [if_neg Bool.false_ne_true]
      refine (visit_walks walkable walking clean isStop).bind fun result p₁ outcome => ?_
      cases result with
      | ok _ => exact ih outcome
      | error e =>
        have gives := (giveUp_walks walkable walking outcome fuel e).bind fun _ p₂ walks =>
          ih (p := p₂) walks
        simp only [bind_assoc] at gives
        rw [walking.inRule]
        exact gives

/-! ## Parses -/

/-- When the first rule has been entered, nothing has been passed yet. -/
theorem walks_first (walkable : net.Walkable) (ready : Ready P p) (onNet : p.net = net) {rule : Nat}
    (known : rule < net.numRules) {recursive : Bool}
    (isRecursive : recursive = (net.state (net.ruleStart rule)).kind.isLeftRecursiveStart)
    (same : p' = { clear p with
      sim := p'.sim, tree := p'.tree, state := net.ruleStart rule, precedences := p'.precedences, ctx := 0
      callers := callersOf [{ id := 0, rule, invoking := none, recursive }] })
    (reads : Reads P p.stream p'.stream)
    (standing : p'.tree.Standing [{ id := 0, rule, invoking := none, recursive }]) :
    Walks P net ⟨p.stream, rule, 0⟩ p' := by
  rw [same] at reads standing ⊢
  refine ⟨_, [], ⟨⟨ready.trees, reads.sound⟩, onNet, standing, rfl, rfl, ?_, ?_, reads.channel, reads.forth,
    ?_, fun _ => rfl⟩, fun _ _ => ⟨nofun, .stay _⟩⟩
  · exact ⟨⟨known, isRecursive⟩, rfl, rfl, fun _ => rfl⟩
  · exact walkable.startRule rule known
  · rw [reads.between_eq ready.sound (Nat.le_refl _)]
    simp [between_self, Frame.leavesAll, Subtree.leavesAll]

/-- A parse of a known rule that ends returns the root of the tree of what it has passed. -/
theorem parse_ends (walkable : net.Walkable) (ready : Ready P p) (onNet : p.net = net) {rule : Nat}
    (known : rule < net.numRules) : Leads (parse fuel rule) p fun result p' =>
      ∃ T, result = .ok T.id ∧ Ends P net ⟨p.stream, rule, 0⟩ p' T := by
  have logs {p₂ : Parser η} {T : Subtree} (ends : Ends P net ⟨p.stream, rule, 0⟩ p₂ T) : Leads (do
      logParse rule
      return .ok T.id : ParseM η (Except ParseError Nat)) p₂ fun result p' =>
        ∃ T, result = .ok T.id ∧ Ends P net ⟨p.stream, rule, 0⟩ p' T := by
    have noted : Leads (logParse rule) p₂ fun _ p' => ∃ logger, p' = { p₂ with logger } :=
      .get_bind (Leads.bind (P := fun _ p' => p' = p₂) (.of_journal rfl) fun _ _ same =>
        same ▸ .of_set ⟨_, rfl⟩)
    refine noted.bind fun _ p₃ same => ?_
    obtain ⟨logger, rfl⟩ := same
    exact .pure ⟨T, rfl, ends.sound, ends.channel, ends.forth, ends.holds, ends.apart, ends.passed, ends.clean⟩
  have empty : (clear p).tree.Standing [] := ⟨trivial, List.nodup_nil⟩
  have standing := empty.enter rule none
  have ready₁ : Ready P { clear p with tree := ((clear p).tree.addRule rule (Frame.top? []) none).2 } :=
    ⟨ready.trees, ready.sound⟩
  refine .get_bind ?_
  rw [onNet]
  dsimp only
  rw [if_neg (Nat.not_le.2 known)]
  refine .modify_bind (Leads.bind (.of_modifyGet (Q := fun root p' => root = 0 ∧
    p' = { clear p with tree := ((clear p).tree.addRule rule (Frame.top? []) none).2 }) ⟨rfl, rfl⟩)
    fun root p₁ same => ?_)
  obtain ⟨rfl, rfl⟩ := same
  split
  · rename_i recursive
    refine (enterRecursion_leads ready₁ standing _ 0).bind fun _ p' entered => ?_
    obtain ⟨same, reads, standing'⟩ := entered
    have walks := walks_first walkable ready onNet known recursive.symm (by rw [same]; rfl) reads standing'
    refine (walk_ends walkable walks).bind fun result p₂ walked => ?_
    obtain ⟨T, isOk, ends⟩ := walked
    rw [isOk]
    exact logs ends
  · rename_i plain
    have plain : false = (net.state (net.ruleStart rule)).kind.isLeftRecursiveStart := by simpa using plain
    refine (enterRule_leads ready₁ standing rfl _).bind fun _ p' entered => ?_
    obtain ⟨same, reads, standing'⟩ := entered
    have walks := walks_first walkable ready onNet known plain (by rw [same]; rfl) reads standing'
    refine (walk_ends walkable walks).bind fun result p₂ walked => ?_
    obtain ⟨T, isOk, ends⟩ := walked
    rw [isOk]
    exact logs ends

end AdaptiveLL.Parser
