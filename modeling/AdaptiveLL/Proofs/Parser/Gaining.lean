import AdaptiveLL.Parser.Run
import AdaptiveLL.Proofs.Prediction.Streams
import AdaptiveLL.Proofs.Tree.Spines

/-!
# What a parser does within a rule

Between two calls or returns a parser passes over tokens, one after the other, and adds a leaf to the
node in progress for each of them, also when it repairs an error; for a token that is missing it adds a
leaf without a place (`Gains`). A repair is never silent: unless an error was reported before, one is
counted. So a parser that is calm, which means that it suppresses reports only after an error was
counted, stays calm, and if no error is counted in the end then nothing was repaired.
-/

set_option autoImplicit false

namespace AdaptiveLL

/-- The token of the stream that a leaf stands for, unless it is the end of the input. -/
def NodeKind.passed? : NodeKind → Option Token
  | .token t | .error t => if t.index.isSome && !t.isEof then some t else none
  | .rule _ _ => none

/-- Adds leaves to a node, one after the other. -/
def ParseTree.addLeaves (t : ParseTree) (node : Nat) (kinds : List NodeKind) : ParseTree :=
  kinds.foldl (fun t kind => (t.addLeaf node kind).2) t

theorem ParseTree.addLeaves_append (t : ParseTree) (node : Nat) (ks ks' : List NodeKind) :
    t.addLeaves node (ks ++ ks') = (t.addLeaves node ks).addLeaves node ks' := by
  simp [addLeaves]

namespace Parser

open Session TokenStream

variable {η : Type} {P : Int → Prop} {p p' p'' : Parser η} {ks ks' : List NodeKind} {fuel : Nat}

/-! ## Relations between parsers -/

/-- A parser that builds trees over a sound stream. -/
structure Ready (P : Int → Prop) (p : Parser η) : Prop where
  trees : p.buildTrees = true
  sound : p.stream.Sound P

/-- No report is suppressed before an error was counted. -/
def Calm (p : Parser η) : Prop := p.syntaxErrors = 0 → p.recovery.active = false

/-- Looking around changes nothing but what the predictions and the stream know. -/
structure Looks (P : Int → Prop) (p p' : Parser η) : Prop where
  same : p' = { p with sim := p'.sim }
  reads : Reads P p.stream p'.stream

/-- The parser passes over tokens and adds leaves to the node in progress. -/
structure Gains (P : Int → Prop) (p : Parser η) (ks : List NodeKind) (p' : Parser η) : Prop where
  ready : Ready P p'
  net : p'.net = p.net
  ctx : p'.ctx = p.ctx
  state : p'.state = p.state
  callers : p'.callers = p.callers
  channel : p'.stream.channel = p.stream.channel
  forth : p.stream.index ≤ p'.stream.index
  passed : ∀ start ≤ p.stream.index, p'.stream.between start p'.stream.index =
    p.stream.between start p.stream.index ++ ks.filterMap NodeKind.passed?
  leaves : ∀ k ∈ ks, k.isLeaf = true
  tree : p'.tree = p.tree.addLeaves p.ctx ks
  errors : p.syntaxErrors ≤ p'.syntaxErrors
  calm : p.Calm → p'.Calm

theorem Looks.refl (ready : Ready P p) : Looks P p p := ⟨rfl, .refl ready.sound⟩

theorem Looks.trans (first : Looks P p p') (second : Looks P p' p'') : Looks P p p'' := by
  refine ⟨?_, first.reads.trans second.reads⟩
  rw [second.same, first.same]

theorem Looks.ready (looks : Looks P p p') (ready : Ready P p) : Ready P p' := by
  refine ⟨?_, looks.reads.sound⟩
  rw [looks.same]
  exact ready.trees

theorem Looks.gains (looks : Looks P p p') (ready : Ready P p) : Gains P p [] p' := by
  have ready' := looks.ready ready
  have reads := looks.reads
  rw [looks.same] at ready' reads ⊢
  exact ⟨ready', rfl, rfl, rfl, rfl, reads.channel, reads.forth,
    fun start before => by rw [reads.between_eq ready.sound before]; simp, by simp, rfl, Nat.le_refl _, id⟩

theorem Gains.trans (first : Gains P p ks p') (second : Gains P p' ks' p'') :
    Gains P p (ks ++ ks') p'' where
  ready := second.ready
  net := second.net.trans first.net
  ctx := second.ctx.trans first.ctx
  state := second.state.trans first.state
  callers := second.callers.trans first.callers
  channel := second.channel.trans first.channel
  forth := Nat.le_trans first.forth second.forth
  passed start before := by
    rw [second.passed start (Nat.le_trans before first.forth), first.passed start before,
      List.filterMap_append, List.append_assoc]
  leaves k member := (List.mem_append.1 member).elim (first.leaves k) (second.leaves k)
  tree := by rw [second.tree, first.tree, first.ctx, ParseTree.addLeaves_append]
  errors := Nat.le_trans first.errors second.errors
  calm calm := second.calm (first.calm calm)

/-! ## Looking around -/

/-- A step of the predictions changes nothing else. -/
theorem onSimulator_leads {α : Type} {step : Simulator.PredictM η α} {Q : α → Simulator η → Prop}
    (leads : Leads step p.sim Q) :
    Leads (onSimulator step) p fun a p' => p' = { p with sim := p'.sim } ∧ Q a p'.sim :=
  .get_bind (leads.part_bind fun _ _ holds => .set_bind (.pure ⟨rfl, holds⟩))

/-- A step on the tokens changes nothing else. -/
theorem onStream_leads {α : Type} {step : StreamM η α} {Q : α → TokenStream η → Prop}
    (leads : Leads step p.stream Q) :
    Leads (onStream step) p fun a p' => p' = { p with sim := p'.sim } ∧ Q a p'.stream :=
  (onSimulator_leads (Simulator.onStream_leads leads)).imp fun _ _ known => ⟨known.1, known.2.2⟩

theorem la_leads (ready : Ready P p) (k : Int) : Leads (la fuel k) p fun type p' =>
    Looks P p p' ∧ (k = 1 → ∃ t, p'.stream.Faces t ∧ t.type = type) :=
  (onStream_leads (la_reads ready.sound k)).imp fun _ _ known => ⟨⟨known.1, known.2.1⟩, known.2.2⟩

theorem tokenIndex_leads (ready : Ready P p) (k : Int) :
    Leads (tokenIndex fuel k) p fun _ p' => Looks P p p' :=
  (onStream_leads (lt_reads ready.sound k)).bind fun _ _ known => .pure ⟨known.1, known.2.1⟩

theorem currentToken_leads (ready : Ready P p) :
    Leads (currentToken fuel) p fun t p' => Looks P p p' ∧ p'.stream.Faces t := by
  refine (onStream_leads (lt_reads ready.sound 1)).bind
    fun found p' ⟨same, reads, _, first⟩ => .pure ⟨⟨same, reads⟩, ?_⟩
  obtain ⟨t, rfl, faces⟩ := first rfl
  exact faces

/-! ## Passing over a token -/

/-- The stream may move over the token of a leaf that is then added. -/
theorem gains_pass (ready : Ready P p) {kind : NodeKind} (isLeaf : kind.isLeaf = true)
    (same : p' = { p with sim := p'.sim }) (sound : p'.stream.Sound P)
    (channel : p'.stream.channel = p.stream.channel) (forth : p.stream.index ≤ p'.stream.index)
    (passed : ∀ start ≤ p.stream.index, p'.stream.between start p'.stream.index =
      p.stream.between start p.stream.index ++ kind.passed?.toList) :
    Gains P p [kind] { p' with tree := (p'.tree.addLeaf p'.ctx kind).2 } := by
  rw [same] at sound channel forth passed ⊢
  exact ⟨⟨ready.trees, sound⟩, rfl, rfl, rfl, rfl, channel, forth,
    fun start before => (passed start before).trans (by cases known : kind.passed? <;> simp [known]), by simpa, rfl,
    Nat.le_refl _, id⟩

/-- A leaf without a place in the stream is added. -/
theorem gains_leaf (ready : Ready P p) {kind : NodeKind} (isLeaf : kind.isLeaf = true)
    (unplaced : kind.passed? = none) :
    Gains P p [kind] { p with tree := (p.tree.addLeaf p.ctx kind).2 } :=
  gains_pass ready isLeaf rfl ready.sound rfl (Nat.le_refl _) fun _ _ => by simp [unplaced]

/-- The leaf that a token becomes: an error node during recovery. -/
def leafOf (p : Parser η) (t : Token) : NodeKind := if p.recovery.active then .error t else .token t

theorem isLeaf_leafOf (p : Parser η) (t : Token) : (p.leafOf t).isLeaf = true := by
  unfold leafOf
  split <;> rfl

theorem passed_leafOf (p : Parser η) {t : Token} (placed : t.index.isSome = true) :
    (p.leafOf t).passed? = if t.isEof then none else some t := by
  unfold leafOf
  split <;> cases atEnd : t.isEof <;> simp [NodeKind.passed?, placed, atEnd]

/-- The current token becomes a leaf. -/
theorem consume_leads (ready : Ready P p) : Leads (consume fuel) p fun _ p' => ∃ t,
    (∀ t', p.stream.Faces t' → t' = t) ∧ Gains P p [p.leafOf t] p' ∧
      p'.syntaxErrors = p.syntaxErrors ∧ p'.recovery = p.recovery := by
  refine (currentToken_leads ready).bind fun t p₁ ⟨looks, faces⟩ => ?_
  have ready₁ := looks.ready ready
  have current : ∀ t', p.stream.Faces t' → t' = t :=
    fun t' faces' => (looks.reads.faces ready.sound faces').unique faces
  obtain ⟨i, placed, found⟩ := faces
  have index : t.index.isSome = true := by rw [(ready₁.sound.placed i t found).1]; rfl
  -- Whatever the stream does, the leaf is added behind it.
  have adds {p₂ : Parser η} (same : p₂ = { p₁ with sim := p₂.sim }) (sound : p₂.stream.Sound P)
      (channel : p₂.stream.channel = p₁.stream.channel) (forth : p₁.stream.index ≤ p₂.stream.index)
      (passed : ∀ start ≤ p₁.stream.index, p₂.stream.between start p₂.stream.index =
        p₁.stream.between start p₁.stream.index ++ (p.leafOf t).passed?.toList) :
      Leads (do
        let p ← get
        if p.buildTrees then
          Parser.onTree fun tree => (tree.addLeaf p.ctx (if p.recovery.active then .error t else .token t)).2)
        p₂ fun _ p' => ∃ t, (∀ t', p.stream.Faces t' → t' = t) ∧ Gains P p [p.leafOf t] p' ∧
          p'.syntaxErrors = p.syntaxErrors ∧ p'.recovery = p.recovery := by
    have gains := (looks.gains ready).trans
      (gains_pass ready₁ (isLeaf_leafOf p t) same sound channel forth passed)
    have whole : p₂ = { p with sim := p₂.sim } := by rw [same, looks.same]
    refine .get_bind ?_
    rw [if_pos (show p₂.buildTrees = true by rw [whole]; exact ready.trees)]
    have leaf : (if p₂.recovery.active then NodeKind.error t else .token t) = p.leafOf t := by
      rw [whole]
      rfl
    rw [leaf]
    refine .of_modify ⟨t, current, gains, ?_, ?_⟩ <;> rw [whole]
  split
  · rename_i inner
    have inner : t.isEof = false := by simpa using inner
    refine (onStream_leads (consume_grows ready₁.sound)).bind fun _ p₂ ⟨same, grows, passes⟩ => ?_
    obtain ⟨forth, between⟩ := passes t ⟨i, placed, found⟩ inner
    refine adds same grows.sound grows.channel forth fun start before => ?_
    rw [between start before, passed_leafOf p index, inner]
    rfl
  · rename_i atEnd
    have atEnd : t.isEof = true := by simpa using atEnd
    refine adds rfl ready₁.sound rfl (Nat.le_refl _) fun start _ => ?_
    rw [passed_leafOf p index, atEnd]
    simp

/-! ## Reports -/

theorem noteMatch_leads (ready : Ready P p) : Leads noteMatch p fun _ p' =>
    p' = { p with recovery := {} } ∧ Gains P p [] p' :=
  .of_modify ⟨rfl, ⟨ready.trees, ready.sound⟩, rfl, rfl, rfl, rfl, rfl, Nat.le_refl _,
    fun _ _ => (List.append_nil _).symm, by simp, rfl, Nat.le_refl _, fun _ _ => rfl⟩

/-- The step counts one error and only looks around besides. -/
def Counts (P : Int → Prop) (step : ParseM η Unit) : Prop := ∀ p : Parser η, Ready P p →
  Leads step p fun _ p' => p' = { p with sim := p'.sim, syntaxErrors := p.syntaxErrors + 1 } ∧
    Reads P p.stream p'.stream

theorem report_counts (offending : Option Token) (message : String) (error : Option RecognitionError) :
    Counts P (report offending message error : ParseM η Unit) :=
  fun _ ready => .modify_bind (.of_journal ⟨rfl, .refl ready.sound⟩)

theorem counts_bind {α : Type} {step : ParseM η α} {next : α → ParseM η Unit}
    (looks : ∀ p : Parser η, Ready P p → Leads step p fun _ p' => Looks P p p')
    (counts : ∀ a, Counts P (next a)) : Counts P (step >>= next) := by
  intro p ready
  refine (looks p ready).bind fun a p₁ looks => (counts a p₁ (looks.ready ready)).imp
    fun _ p₂ ⟨same, reads⟩ => ⟨?_, looks.reads.trans reads⟩
  rw [same, looks.same]

theorem counts_get {next : Parser η → ParseM η Unit} (counts : ∀ p, Counts P (next p)) :
    Counts P (get >>= next) := fun p ready => counts p p ready

/-- A report that is suppressed was preceded by one that was counted. -/
theorem unlessRecovering_leads (ready : Ready P p) {step : ParseM η Unit} (counts : Counts P step) :
    Leads (unlessRecovering step) p fun _ p' => Gains P p [] p' ∧ (p.Calm → p'.syntaxErrors ≠ 0) := by
  refine .get_bind ?_
  split
  · refine .modify_bind ((counts _ ?_).imp fun _ p' ⟨same, reads⟩ => ?_)
    · exact ⟨ready.trees, ready.sound⟩
    rw [same] at reads ⊢
    have between (start : Nat) (before : start ≤ p.stream.index) := reads.between_eq ready.sound before
    refine ⟨⟨⟨ready.trees, reads.sound⟩, rfl, rfl, rfl, rfl, reads.channel, reads.forth,
      fun start before => (between start before).trans (List.append_nil _).symm, by simp, rfl, Nat.le_succ _,
      fun _ none' => absurd none' (Nat.succ_ne_zero _)⟩, fun _ => Nat.succ_ne_zero _⟩
  · rename_i active
    refine .pure ⟨(Looks.refl ready).gains ready, fun calm none' => ?_⟩
    rw [calm none'] at active
    exact active rfl

theorem reportError_leads (ready : Ready P p) (e : RecognitionError) :
    Leads (reportError fuel e) p fun _ p' => Gains P p [] p' ∧ (p.Calm → p'.syntaxErrors ≠ 0) := by
  refine unlessRecovering_leads ready (counts_get fun p => ?_)
  have withToken (message : Token → String) : Counts P (do
      let t ← currentToken fuel
      report (some t) (message t) (some e) : ParseM η Unit) :=
    counts_bind (fun _ ready => (currentToken_leads ready).imp fun _ _ known => known.1)
      fun t => report_counts _ _ _
  cases e with
  | noViableAlt decision start offending => exact report_counts _ _ _
  | inputMismatch state offending => exact report_counts _ _ _
  | failedPredicate rule predicate => exact withToken _
  | noViableToken start index => exact withToken _

theorem reportUnwanted_leads (ready : Ready P p) :
    Leads (reportUnwanted fuel) p fun _ p' => Gains P p [] p' ∧ (p.Calm → p'.syntaxErrors ≠ 0) :=
  unlessRecovering_leads ready <| counts_bind
    (fun _ ready => (currentToken_leads ready).imp fun _ _ known => known.1)
    fun _ => counts_get fun _ => report_counts _ _ _

theorem reportMissing_leads (ready : Ready P p) :
    Leads (reportMissing fuel) p fun _ p' => Gains P p [] p' ∧ (p.Calm → p'.syntaxErrors ≠ 0) :=
  unlessRecovering_leads ready <| counts_bind
    (fun _ ready => (currentToken_leads ready).imp fun _ _ known => known.1)
    fun _ => counts_get fun _ => report_counts _ _ _

/-! ## Giving up a rule -/

/-- The parser gains some leaves. -/
def GainsSome (P : Int → Prop) (p p' : Parser η) : Prop := ∃ ks, Gains P p ks p'

theorem GainsSome.trans (first : GainsSome P p p') (second : GainsSome P p' p'') : GainsSome P p p'' := by
  obtain ⟨ks, first⟩ := first
  obtain ⟨ks', second⟩ := second
  exact ⟨ks ++ ks', first.trans second⟩

theorem Gains.some (gains : Gains P p ks p') : GainsSome P p p' := ⟨ks, gains⟩

theorem GainsSome.ready (gains : GainsSome P p p') : Ready P p' := gains.elim fun _ gains => gains.ready

theorem consumeUntil_leads (ready : Ready P p) (set : SymbolSet) :
    Leads (consumeUntil fuel set) p fun _ p' => GainsSome P p p' := by
  have goes (rounds : Nat) {p : Parser η} (ready : Ready P p) :
      Leads (consumeUntil.go fuel set rounds) p fun _ p' => GainsSome P p p' := by
    induction rounds generalizing p with
    | zero => exact .of_failure
    | succ rounds ih =>
      refine (la_leads ready 1).bind fun type p₁ ⟨looks, _⟩ => ?_
      have gains := looks.gains ready
      split
      · exact (consume_leads gains.ready).bind fun _ p₂ ⟨t, _, passes, _⟩ => (ih passes.ready).imp
          fun _ p₃ further => (gains.trans passes).some.trans further
      · exact .pure gains.some
  exact goes fuel ready

/-- What is noted of a recovery and of the end of the input does not make the parser suppress more
reports. -/
theorem gains_note (ready : Ready P p) (recovery : Recovery) (matchedEof : Bool)
    (same : recovery.active = p.recovery.active) : Gains P p [] { p with recovery, matchedEof } :=
  ⟨⟨ready.trees, ready.sound⟩, rfl, rfl, rfl, rfl, rfl, Nat.le_refl _,
    fun _ _ => (List.append_nil _).symm, by simp, rfl, Nat.le_refl _, fun calm none' => same.trans (calm none')⟩

theorem recover_leads (ready : Ready P p) (e : RecognitionError) :
    Leads (recover fuel e) p fun _ p' => GainsSome P p p' := by
  -- Behind the token that is passed over to get on.
  have rest {p₁ : Parser η} (gains₁ : GainsSome P p p₁) (place : Nat) : Leads (do
      modify fun p : Parser η => { p with recovery := { p.recovery with
        lastIndex := some p.stream.index
        lastStates := p.recovery.lastStates ++ [p.state] } }
      consumeUntil fuel (← get).recoverySet
      let p ← get
      if p.stream.index = place && p.buildTrees then
        let t ← currentToken fuel
        onTree fun tree => (tree.addLeaf p.ctx (.error (p.standIn e t))).2) p₁
      fun _ p' => GainsSome P p p' := by
    refine .modify_bind (.get_bind ?_)
    have noted := gains_note gains₁.ready { p₁.recovery with
      lastIndex := some p₁.stream.index
      lastStates := p₁.recovery.lastStates ++ [p₁.state] } p₁.matchedEof rfl
    refine (consumeUntil_leads noted.ready _).bind fun _ p₂ passes => .get_bind ?_
    have gains₂ := (gains₁.trans noted.some).trans passes
    split
    · refine (currentToken_leads gains₂.ready).bind fun t p₃ ⟨looks, _⟩ => .of_modify ?_
      have gains₃ := gains₂.trans (looks.gains gains₂.ready).some
      have sameCtx : p₂.ctx = p₃.ctx := by rw [looks.same]
      rw [sameCtx]
      exact gains₃.trans (gains_leaf gains₃.ready rfl (by simp [NodeKind.passed?, standIn])).some
    · exact .pure gains₂
  refine .get_bind ?_
  dsimp only
  split
  · exact (consume_leads ready).bind fun _ p₁ ⟨t, _, gains, _⟩ => rest gains.some _
  · exact rest ((Looks.refl ready).gains ready).some _

/-! ## Repairs in place -/

theorem deleteToken?_leads (ready : Ready P p) : Leads (deleteToken? fuel) p fun found p' =>
    match found with
    | some t => GainsSome P p p' ∧ (p.Calm → p'.syntaxErrors ≠ 0) ∧ t.index.isSome = true
    | none => Looks P p p' := by
  refine (la_leads ready 2).bind fun next p₁ ⟨looks, _⟩ => .get_bind ?_
  have ready₁ := looks.ready ready
  split
  · refine (reportUnwanted_leads ready₁).bind fun _ p₂ ⟨gains₂, counted⟩ => ?_
    refine (consume_leads gains₂.ready).bind fun _ p₃ ⟨t, _, gains₃, errors₃, _⟩ => ?_
    refine (currentToken_leads gains₃.ready).bind fun t p₄ ⟨looks₄, faces⟩ => ?_
    have gains₄ := looks₄.gains gains₃.ready
    refine (noteMatch_leads gains₄.ready).bind fun _ p₅ ⟨_, gains₅⟩ => .pure ⟨?_, fun calm => ?_, ?_⟩
    · exact ((((looks.gains ready).trans gains₂).trans gains₃).trans gains₄).some.trans gains₅.some
    · have counted := counted ((looks.gains ready).calm calm)
      have more := Nat.le_trans (gains₃.trans gains₄).errors gains₅.errors
      omega
    · obtain ⟨i, -, found⟩ := faces
      rw [(gains₄.ready.sound.placed i t found).1]
      rfl
  · exact .pure looks

theorem insertToken_leads (ready : Ready P p) : Leads (insertToken fuel) p fun inserts p' =>
    Gains P p [] p' ∧ (inserts = true → p.Calm → p'.syntaxErrors ≠ 0) := by
  refine (la_leads ready 1).bind fun current p₁ ⟨looks, _⟩ => .get_bind ?_
  have gains := looks.gains ready
  split
  · exact .pure ⟨gains, nofun⟩
  · split
    · exact (reportMissing_leads gains.ready).bind fun _ p₂ ⟨gains₂, counted⟩ =>
        .pure ⟨gains.trans gains₂, fun _ calm => counted (gains.calm calm)⟩
    · exact .pure ⟨gains, nofun⟩

theorem missingToken_leads (ready : Ready P p) : Leads (missingToken fuel) p fun t p' =>
    Looks P p p' ∧ t.index = none := by
  refine .get_bind ((currentToken_leads ready).bind fun current p₁ ⟨looks, _⟩ => ?_)
  simp only [pure_bind]
  split
  · exact (onStream_leads (lt_reads (looks.ready ready).sound (-1))).bind
      fun _ _ known => .pure ⟨looks.trans ⟨known.1, known.2.1⟩, rfl⟩
  · exact .pure ⟨looks, rfl⟩

/-- A repair is counted. -/
theorem repair_leads (ready : Ready P p) : Leads (repair fuel).run p
    (Outcome (fun _ p' => GainsSome P p p' ∧ (p.Calm → p'.syntaxErrors ≠ 0))
      fun _ p' => GainsSome P p p') := by
  -- Behind the token that was found or made up.
  have rest {p₁ : Parser η} (gains : GainsSome P p p₁) (counted : p.Calm → p₁.syntaxErrors ≠ 0)
      (t : Token) : Leads (do
      let p ← get
      if p.buildTrees && t.index.isNone then
        sure (onTree fun tree => (tree.addLeaf p.ctx (.error t)).2) : WalkM η Unit).run p₁
      (Outcome (fun _ p' => GainsSome P p p' ∧ (p.Calm → p'.syntaxErrors ≠ 0))
        fun _ p' => GainsSome P p p') := by
    refine .walk_get_bind ?_
    split
    · rename_i unplaced
      have unplaced : t.index.isNone = true := (Bool.and_eq_true_iff.1 unplaced).2
      have passed : (NodeKind.error t).passed? = none := by
        cases place : t.index <;> simp [place] at unplaced
        simp [NodeKind.passed?, place]
      exact .lift (.of_modify ⟨gains.trans (gains_leaf gains.ready rfl passed).some, counted⟩)
    · exact .walk_pure ⟨gains, counted⟩
  refine Leads.walk_bind (P := fun found p' => match found with
    | some t => GainsSome P p p' ∧ (p.Calm → p'.syntaxErrors ≠ 0) ∧ t.index.isSome = true
    | none => Looks P p p') (.lift (deleteToken?_leads ready)) fun found p₁ known => ?_
  cases found with
  | some t =>
    obtain ⟨gains, counted, -⟩ := known
    refine Leads.walk_bind (P := fun _ p' => GainsSome P p p' ∧ (p.Calm → p'.syntaxErrors ≠ 0))
      (.lift ((consume_leads gains.ready).imp fun _ p₂ ⟨t, _, passes, errors, _⟩ => ?_)) ?_
    · exact ⟨gains.trans passes.some, fun calm => errors ▸ counted calm⟩
    · exact fun _ p₂ known => rest known.1 known.2 t
  | none =>
    have looks : Looks P p p₁ := known
    have ready₁ := looks.ready ready
    refine Leads.walk_bind (P := fun inserts p' => Gains P p₁ [] p' ∧
      (inserts = true → p₁.Calm → p'.syntaxErrors ≠ 0)) (.lift (insertToken_leads ready₁))
      fun inserts p₂ ⟨gains₂, counted⟩ => ?_
    have gains := (looks.gains ready).trans gains₂
    split
    · rename_i inserted
      refine Leads.walk_bind (.lift (missingToken_leads gains.ready)) fun t p₃ ⟨looks₃, _⟩ => ?_
      refine rest (gains.trans (looks₃.gains gains.ready)).some (fun calm => ?_) t
      rw [looks₃.same]
      exact counted inserted ((looks.gains ready).calm calm)
    · exact .walk_get_bind (.of_throw gains.some)

/-- What a parser does before a decision is counted, unless it does nothing. -/
theorem sync_leads (ready : Ready P p) : Leads (sync fuel).run p
    (Outcome (fun _ p' => ∃ ks, Gains P p ks p' ∧ (p.Calm → p'.syntaxErrors = 0 → ks = []))
      fun _ p' => GainsSome P p p') := by
  have quiet {p' : Parser η} (gains : Gains P p [] p') :
      ∃ ks, Gains P p ks p' ∧ (p.Calm → p'.syntaxErrors = 0 → ks = []) := ⟨[], gains, fun _ _ => rfl⟩
  refine .walk_get_bind ?_
  split
  · exact .walk_pure (quiet ((Looks.refl ready).gains ready))
  refine Leads.walk_bind (.lift (la_leads ready 1)) fun symbol p₁ ⟨looks, _⟩ => .walk_get_bind ?_
  have gains₁ := looks.gains ready
  have deleted : Leads (do if (← sure (deleteToken? fuel)).isNone then mismatch : WalkM η Unit).run p₁
      (Outcome (fun _ p' => ∃ ks, Gains P p ks p' ∧ (p.Calm → p'.syntaxErrors = 0 → ks = []))
        fun _ p' => GainsSome P p p') := by
    refine Leads.walk_bind (.lift (deleteToken?_leads gains₁.ready)) fun found p₂ known => ?_
    cases found with
    | some t =>
      obtain ⟨⟨ks, gains⟩, counted, -⟩ := known
      exact .walk_pure ⟨_, gains₁.trans gains, fun calm none' => absurd none' (counted (gains₁.calm calm))⟩
    | none =>
      have looks₂ : Looks P p₁ p₂ := known
      exact .walk_get_bind (.of_throw (gains₁.trans (looks₂.gains gains₁.ready)).some)
  dsimp only
  split
  · exact .walk_pure (quiet gains₁)
  have unwanted : Leads (do
      sure (reportUnwanted fuel)
      let p ← get
      sure (consumeUntil fuel (p.expected.union p.recoverySet)) : WalkM η Unit).run p₁
      (Outcome (fun _ p' => ∃ ks, Gains P p ks p' ∧ (p.Calm → p'.syntaxErrors = 0 → ks = []))
        fun _ p' => GainsSome P p p') := by
    refine Leads.walk_bind (.lift (reportUnwanted_leads gains₁.ready)) fun _ p₂ ⟨gains₂, counted⟩ =>
      .walk_get_bind (.lift ((consumeUntil_leads gains₂.ready _).imp fun _ p₃ ⟨ks, gains₃⟩ => ?_))
    refine ⟨_, (gains₁.trans gains₂).trans gains₃, fun calm none' => absurd ?_ (counted (gains₁.calm calm))⟩
    exact Nat.le_zero.1 (none' ▸ gains₃.errors)
  split
  · exact deleted
  · exact deleted
  · exact unwanted
  · exact unwanted
  · exact .walk_pure (quiet gains₁)

/-! ## Matching and choosing -/

/-- The current token is matched, or the repair is counted. -/
theorem matchOrRepair_leads (ready : Ready P p) (accepted : Bool) : Leads (matchOrRepair fuel accepted).run p
    (Outcome (fun _ p' => ∃ ks, Gains P p ks p' ∧ (p.Calm → p'.syntaxErrors = 0 → accepted = true ∧
      ∃ t, (∀ t', p.stream.Faces t' → t' = t) ∧ ks = [.token t])) fun _ p' => GainsSome P p p') := by
  unfold matchOrRepair
  split
  · rename_i accepted
    refine Leads.walk_bind (.lift (noteMatch_leads ready)) fun _ p₁ ⟨same, gains₁⟩ =>
      .lift ((consume_leads gains₁.ready).imp fun _ p₂ ⟨t, current, gains₂, _⟩ => ?_)
    have plain : p₁.leafOf t = .token t := by
      rw [same]
      rfl
    rw [plain] at gains₂
    refine ⟨_, gains₁.trans gains₂, fun _ _ => ⟨accepted, t, fun t' faces => current t' ?_, rfl⟩⟩
    rw [same]
    exact faces
  · exact (repair_leads ready).imp fun result p' known => by
      cases result with
      | ok u =>
        obtain ⟨⟨ks, gains⟩, counted⟩ := known
        exact ⟨ks, gains, fun calm none' => absurd none' (counted calm)⟩
      | error e => exact known

/-- Choosing a way to go on passes over no token, unless an error is counted. -/
theorem chooseAlt_leads (ready : Ready P p) (s : State) : Leads (chooseAlt fuel s).run p
    (Outcome (fun _ p' => ∃ ks, Gains P p ks p' ∧ (p.Calm → p'.syntaxErrors = 0 → ks = []))
      fun _ p' => GainsSome P p p') := by
  have stays : ∃ ks, Gains P p ks p ∧ (p.Calm → p.syntaxErrors = 0 → ks = []) :=
    ⟨[], (Looks.refl ready).gains ready, fun _ _ => rfl⟩
  unfold chooseAlt
  split
  · exact .walk_pure stays
  · split
    · exact .walk_pure stays
    · refine Leads.walk_bind (sync_leads ready) fun _ p₁ ⟨ks, gains₁, quiet⟩ => .walk_get_bind ?_
      refine Leads.walk_bind (.lift (onSimulator_leads (Simulator.predict_reads gains₁.ready.sound)))
        fun result p₂ ⟨same, reads⟩ => ?_
      have gains₂ := (Looks.mk same reads).gains gains₁.ready
      split
      · refine .walk_pure ⟨_, gains₁.trans gains₂, fun calm none' => ?_⟩
        rw [quiet calm (Nat.le_zero.1 (none' ▸ gains₂.errors)), List.append_nil]
      · exact .of_throw (gains₁.trans gains₂).some

end Parser

end AdaptiveLL
