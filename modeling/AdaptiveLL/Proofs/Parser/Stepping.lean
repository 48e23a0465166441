import AdaptiveLL.Proofs.Parser.Balance
import AdaptiveLL.Proofs.Tokens.Passing

/-!
# Turns that meet no error

`Poised` says where a parser stands when a turn of its walk begins: at which state and token, in which rules and
at which precedences. A turn that meets no error ends, and takes the parser to another such place: along a
transition that asks for nothing (`Poised.passes`), over a precedence predicate (`Poised.guards`) or a token
(`Poised.reads`), into a left-recursive rule (`Poised.calls`), around what the rule has built so far
(`Poised.takes_grow`) and back to the caller (`Poised.returns`).
-/

set_option autoImplicit false

namespace AdaptiveLL

open Session TokenStream

namespace Session

variable {σ α β ε : Type} {s : σ}

/-- The step of a walk ends without an error, and its result and its state satisfy `Q`. -/
def Succeeds (x : ExceptT ε (StateT σ Session) α) (s : σ) (Q : α → σ → Prop) : Prop :=
  Reaches x.run s (Outcome Q fun _ _ => False)

namespace Succeeds

variable {Q : β → σ → Prop}

theorem pure {b : β} (holds : Q b s) : Succeeds (Pure.pure b : ExceptT ε (StateT σ Session) β) s Q :=
  Reaches.pure (Q := Outcome Q fun _ _ => False) holds

theorem bind {x : ExceptT ε (StateT σ Session) α} {f : α → ExceptT ε (StateT σ Session) β} {P : α → σ → Prop}
    (first : Succeeds x s P) (second : ∀ a s', P a s' → Succeeds (f a) s' Q) : Succeeds (x >>= f) s Q := by
  unfold Succeeds
  rw [ExceptT.run_bind]
  refine Reaches.bind first fun result s' holds => ?_
  cases result with
  | ok a => exact second a s' holds
  | error e => exact holds.elim

theorem lift {x : StateT σ Session β} (reaches : Reaches x s Q) :
    Succeeds (ExceptT.lift x : ExceptT ε (StateT σ Session) β) s Q := by
  unfold Succeeds
  rw [ExceptT.run_lift, map_eq_pure_bind]
  exact reaches.bind fun b s' holds => Reaches.pure (Q := Outcome Q fun _ _ => False) holds

theorem get_bind {f : σ → ExceptT ε (StateT σ Session) β} (rest : Succeeds (f s) s Q) :
    Succeeds (get >>= f) s Q := rest

theorem of_modify {next : σ → σ} {Q : PUnit → σ → Prop} (holds : Q ⟨⟩ (next s)) :
    Succeeds (modify next : ExceptT ε (StateT σ Session) PUnit) s Q :=
  fun j => ⟨.ok ⟨⟩, next s, j, rfl, holds⟩

theorem imp {x : ExceptT ε (StateT σ Session) α} {P R : α → σ → Prop} (succeeds : Succeeds x s P)
    (imp : ∀ a s', P a s' → R a s') : Succeeds x s R :=
  Reaches.imp succeeds fun result s' holds => by
    cases result with
    | ok a => exact imp a s' holds
    | error e => exact holds

end Succeeds

end Session

namespace Parser

variable {η : Type} {net : Network} {fuel root : Nat} {tape : TokenTape} {K : DfaCache → Prop} {p p' : Parser η}
  {at' : Option Nat} {c : DfaCache}

/-! ## Looking at the tape -/

/-- The stream shows the tape at a place, and the learned automata are these. -/
structure Sees (fuel : Nat) (tape : TokenTape) (place : Option Nat) (c : DfaCache) (p : Parser η) : Prop where
  views : p.stream.Views fuel tape place
  cache : p.sim.cache = c

theorem onStream_reaches {α : Type} {step : StreamM η α} {R : α → TokenStream η → Prop}
    (reaches : Reaches step p.stream R) : Reaches (onStream step) p fun a p' =>
      p' = { p with sim := p'.sim } ∧ p'.sim.cache = p.sim.cache ∧ R a p'.stream := by
  refine .get_bind (.part_bind (P := fun a sim => sim.cache = p.sim.cache ∧ R a sim.stream) ?_
    fun a sim ⟨cache, holds⟩ => .set_bind (.pure ⟨rfl, cache, holds⟩))
  exact .get_bind (.part_bind reaches fun a stream holds => .set_bind (.pure ⟨rfl, holds⟩))

theorem lt_reaches (sees : Sees fuel tape at' c p) (enough : tape.body.length < fuel) {k : Int}
    (proper : leastDistance < k) : Reaches (onStream (TokenStream.lt fuel k)) p fun t p' =>
      p' = { p with sim := p'.sim } ∧ Sees fuel tape (some (tape.current at')) c p' ∧ t = tape.lt? at' k :=
  (onStream_reaches (sees.views.lt enough proper)).imp fun _ _ ⟨same, cache, views, isToken⟩ =>
    ⟨same, ⟨views, cache.trans sees.cache⟩, isToken⟩

theorem la_reaches (sees : Sees fuel tape at' c p) (enough : tape.body.length < fuel) {k : Int}
    (proper : leastDistance < k) : Reaches (la fuel k) p fun type p' =>
      p' = { p with sim := p'.sim } ∧ Sees fuel tape (some (tape.current at')) c p' ∧
        type = ((tape.lt? at' k).map (·.type)).getD invalidType := by
  have reaches : Reaches (TokenStream.la fuel k) p.stream fun type stream =>
      stream.Views fuel tape (some (tape.current at')) ∧ type = ((tape.lt? at' k).map (·.type)).getD invalidType :=
    (sees.views.lt enough proper).bind fun found stream ⟨views, same⟩ => .pure ⟨views, by rw [same]⟩
  exact (onStream_reaches reaches).imp fun _ _ ⟨same, cache, views, isType⟩ =>
    ⟨same, ⟨views, cache.trans sees.cache⟩, isType⟩

theorem tokenIndex_reaches (sees : Sees fuel tape at' c p) (enough : tape.body.length < fuel) {k : Int}
    (proper : leastDistance < k) : Reaches (tokenIndex fuel k) p fun _ p' =>
      p' = { p with sim := p'.sim } ∧ Sees fuel tape (some (tape.current at')) c p' :=
  (lt_reaches sees enough proper).bind fun _ _ ⟨same, sees', _⟩ => .pure ⟨same, sees'⟩

/-- A change of the parser does not change what it sees. -/
theorem Sees.of_sim (sees : Sees fuel tape at' c p) (same : p'.sim = p.sim) : Sees fuel tape at' c p' :=
  ⟨by rw [stream, same]; exact sees.views, by rw [same]; exact sees.cache⟩

/-! ## How rules begin and end -/

section

variable (sees : Sees fuel tape at' c p) (enough : tape.body.length < fuel)

include sees enough

theorem enterRecursion_reaches (node state : Nat) (q : Int) : Reaches (enterRecursion fuel node state q) p fun _ p' =>
    Sees fuel tape (some (tape.current at')) c p' :=
  .modify_bind ((tokenIndex_reaches (p := { p with
      callers := ⟨(p.tree.node node).parent, (p.tree.node node).invoking⟩ :: p.callers
      state, precedences := q :: p.precedences, ctx := node }) (sees.of_sim rfl) enough (by decide)).bind
    fun _ _ ⟨_, sees'⟩ => .of_modify (sees'.of_sim rfl))

theorem enterRule_reaches (node state : Nat) : Reaches (enterRule fuel node state) p fun _ p' =>
    Sees fuel tape (some (tape.current at')) c p' := by
  refine .modify_bind ((tokenIndex_reaches (p := { p with state, ctx := node }) (sees.of_sim rfl) enough
    (by decide)).bind fun _ p₁ ⟨_, sees'⟩ => .modify_bind (.get_bind ?_))
  split
  · split
    · exact .of_modify (sees'.of_sim rfl)
    · exact .pure (sees'.of_sim rfl)
  · exact .pure (sees'.of_sim rfl)

theorem exitRule_reaches : Reaches (exitRule fuel) p fun _ p' => Sees fuel tape (some (tape.current at')) c p' :=
  (tokenIndex_reaches sees enough (by decide)).bind fun _ _ ⟨_, sees'⟩ => .of_modify (sees'.of_sim rfl)

theorem leaveRecursion_reaches (parent : Option Nat) : Reaches (leaveRecursion fuel parent) p fun _ p' =>
    Sees fuel tape (some (tape.current at')) c p' := by
  refine .modify_bind ((tokenIndex_reaches (p := { p with precedences := p.precedences.tail }) (sees.of_sim rfl)
    enough (by decide)).bind fun _ p₁ ⟨_, sees'⟩ => .get_bind (.modify_bind ?_))
  cases parent with
  | none => exact .pure (sees'.of_sim rfl)
  | some caller =>
    refine .modify_bind ?_
    split
    · exact .of_modify (sees'.of_sim rfl)
    · exact .pure (sees'.of_sim rfl)

theorem growRecursion_reaches (s : State) : Reaches (growRecursion fuel s) p fun _ p' =>
    Sees fuel tape (some (tape.current at')) c p' := by
  refine .get_bind (.bind (P := fun _ p₁ => p₁.sim = p.sim) (fun j => ⟨_, _, j, rfl, rfl⟩) fun node p₁ same => ?_)
  refine .get_bind ((tokenIndex_reaches (sees.of_sim same) enough (by decide)).bind fun _ p₂ ⟨_, sees'⟩ =>
    .modify_bind (.modify_bind (.get_bind ?_)))
  split
  · exact .of_modify (sees'.of_sim rfl)
  · exact .pure (sees'.of_sim rfl)

end

/-! ## Where a turn begins -/

/-- The parser begins a turn: its state, the precedences and frames of the rules in progress, and the place on the
tape. No error was met, and `K` holds of what was learned. -/
structure Poised (net : Network) (fuel : Nat) (tape : TokenTape) (K : DfaCache → Prop) (state : Nat)
    (levels : List Int) (frames : List Frame) (place : Nat) (p : Parser η) : Prop where
  onNet : p.net = net
  trees : p.buildTrees = true
  standing : p.tree.Standing frames
  ctx : some p.ctx = Frame.top? frames
  callers : p.callers = callersOf frames
  precedences : p.precedences = levels
  state : p.state = state
  views : p.stream.Views fuel tape (some place)
  known : K p.sim.cache
  errors : p.syntaxErrors = 0
  active : p.recovery.active = false

/-- Predictions of the decision at a place give an alternative. -/
def Predicts (η : Type) (net : Network) (fuel : Nat) (tape : TokenTape) (K : DfaCache → Prop) (place d : Nat) (q : Int)
    (alt : Nat) : Prop :=
  ∀ (s : Simulator η) (evaluator : Guard.Evaluator η) (callStack : List Nat), K s.cache →
    s.stream.Views fuel tape (some place) → (∀ b h, evaluator.precedence b h = (decide (b ≥ q), h)) →
    Reaches (Simulator.predict net fuel evaluator d callStack q) s fun r s' =>
      r = .ok alt ∧ K s'.cache ∧ s'.stream.Views fuel tape (some place)

variable {state place n d alt : Nat} {levels : List Int} {frames rest : List Frame} {f g : Frame} {q : Int}
  {t : Transition} {leftRecursive : Bool}

namespace Poised

theorem ready (poised : Poised net fuel tape K state levels frames place p) : Ready (fun _ => True) p :=
  ⟨poised.trees, poised.views.sound⟩

theorem sees (poised : Poised net fuel tape K state levels frames place p) :
    Sees fuel tape (some place) p.sim.cache p := ⟨poised.views, rfl⟩

/-- The predictions go on. -/
theorem of_sim (poised : Poised net fuel tape K state levels frames place p) (same : p' = { p with sim := p'.sim })
    (views : p'.stream.Views fuel tape (some place)) (known : K p'.sim.cache) :
    Poised net fuel tape K state levels frames place p' := by
  obtain ⟨onNet, trees, standing, ctx, callers, precedences, state, -, -, errors, active⟩ := poised
  rw [same]
  rw [same] at views known
  exact ⟨onNet, trees, standing, ctx, callers, precedences, state, views, known, errors, active⟩

theorem goesTo (poised : Poised net fuel tape K state levels frames place p) (n : Nat) :
    Poised net fuel tape K n levels frames place { p with state := n } :=
  ⟨poised.onNet, poised.trees, poised.standing, poised.ctx, poised.callers, poised.precedences, rfl, poised.views,
    poised.known, poised.errors, poised.active⟩

/-! ## Turns within a rule -/

/-- A turn in the middle of a rule. -/
theorem turn_visit {Q : Parser η → Prop} (poised : Poised net fuel tape K state levels frames place p)
    (inner : net.isStop state = false) (visits : Succeeds (visit fuel (net.state state)) p fun _ p' => Q p') :
    Reaches (turn fuel root leftRecursive) p fun r p' => r = none ∧ Q p' := by
  have notStop : (net.state state).kind.isRuleStop = false := inner
  refine .get_bind ?_
  rw [poised.onNet, poised.state]
  dsimp only
  rw [notStop, if_neg Bool.false_ne_true]
  refine Reaches.bind visits fun result p' holds => ?_
  cases result with
  | ok _ => exact .pure ⟨rfl, holds⟩
  | error e => exact holds.elim

/-- Where there is one transition, it is taken. -/
theorem turn_single {Q : Parser η → Prop} (poised : Poised net fuel tape K state levels frames place p)
    (inner : net.isStop state = false) (out : net.out state = [t])
    (takes : Succeeds (take fuel (net.state state) t) p fun _ p' => Q { p' with state := t.target }) :
    Reaches (turn fuel root leftRecursive) p fun r p' => r = none ∧ Q p' := by
  refine poised.turn_visit inner (Succeeds.bind (P := fun alt p' => alt = 1 ∧ p' = p) ?_ ?_)
  · have one : (net.state state).transitions.length = 1 := congrArg List.length out
    unfold chooseAlt
    cases (net.state state).decision with
    | none => exact .pure ⟨rfl, rfl⟩
    | some d =>
      dsimp only
      rw [one, if_pos (by simp)]
      exact .pure ⟨rfl, rfl⟩
  · rintro alt p' ⟨rfl, rfl⟩
    have first : (net.state state).transitions[1 - 1]? = some t := by
      rw [show (net.state state).transitions = [t] from out]
      rfl
    rw [first]
    exact takes.bind fun _ p' holds => .of_modify holds

/-- A transition that asks for nothing is taken. -/
theorem takes_free (poised : Poised net fuel tape K state levels frames place p)
    (plain : (net.state state).kind.isPrecedenceLoop = false) {o : Option Nat} :
    Succeeds (take fuel (net.state state) ⟨n, .epsilon o⟩) p fun _ p' =>
      Poised net fuel tape K state levels frames place p' := by
  refine .get_bind ?_
  dsimp only
  rw [plain, Bool.false_and, if_neg Bool.false_ne_true]
  exact .pure poised

/-- The parser passes along a transition that asks for nothing. -/
theorem passes (poised : Poised net fuel tape K state levels frames place p) (inner : net.isStop state = false)
    {o : Option Nat} (out : net.out state = [⟨n, .epsilon o⟩])
    (plain : (net.state state).kind.isPrecedenceLoop = false) :
    Reaches (turn fuel root leftRecursive) p fun r p' => r = none ∧ Poised net fuel tape K n levels frames place p' :=
  poised.turn_single inner out ((poised.takes_free plain).imp fun _ _ poised' => poised'.goesTo n)

/-- The parser passes a predicate that the precedence of the call satisfies. -/
theorem guards (poised : Poised net fuel tape K state (q :: levels) frames place p) (inner : net.isStop state = false)
    {b : Int} (out : net.out state = [⟨n, .precedence b⟩]) (tight : q ≤ b) :
    Reaches (turn fuel root leftRecursive) p fun r p' =>
      r = none ∧ Poised net fuel tape K n (q :: levels) frames place p' := by
  refine poised.turn_single inner out (.get_bind (.get_bind ?_))
  have level : p.precedence = q := by rw [precedence, poised.precedences, List.headD_cons]
  rw [level, decide_eq_true tight]
  exact .pure (poised.goesTo n)

/-- The current token goes into the tree. -/
theorem consumes (poised : Poised net fuel tape K state levels (f :: rest) place p) (enough : tape.body.length < fuel)
    {token : Token} (current : tape.lt? (some place) 1 = some token) (next : Nat)
    (moves : if token.isEof then next = place else (tape.call (some place) .consume).2 = some next) :
    Succeeds (matchOrRepair fuel true : WalkM η Unit) p fun _ p' =>
      ∃ id, Poised net fuel tape K state levels (f.add (.token id token) :: rest) next p' := by
  have poised₁ : Poised net fuel tape K state levels (f :: rest) place { p with recovery := {} } :=
    ⟨poised.onNet, poised.trees, poised.standing, poised.ctx, poised.callers, poised.precedences, poised.state,
      poised.views, poised.known, poised.errors, rfl⟩
  refine Succeeds.bind (P := fun _ p' => p' = { p with recovery := {} }) (.lift (.of_modify rfl)) ?_
  rintro _ _ rfl
  refine .lift ?_
  have adds {p₁ : Parser η} (poised₁ : Poised net fuel tape K state levels (f :: rest) next p₁) :
      Reaches (do
        let p ← get
        if p.buildTrees then
          onTree fun tree => (tree.addLeaf p.ctx (if p.recovery.active then .error token else .token token)).2) p₁
        fun _ p' => ∃ id, Poised net fuel tape K state levels (f.add (.token id token) :: rest) next p' := by
    obtain ⟨onNet, trees, standing, ctx, callers, precedences, state, views, known, errors, active⟩ := poised₁
    have here : p₁.ctx = f.id := Option.some.inj ctx
    refine .get_bind ?_
    rw [trees, if_pos rfl, active, if_neg Bool.false_ne_true, here]
    exact .of_modify ⟨_, onNet, trees, standing.addLeaf rfl, ctx, callers, precedences, state, views, known, errors,
      active⟩
  refine Reaches.bind (P := fun t p' => t = token ∧ Poised net fuel tape K state levels (f :: rest) place p')
    ((lt_reaches poised₁.sees enough (by decide)).bind fun found p₁ ⟨same, sees, isToken⟩ => .pure ⟨?_, ?_⟩) ?_
  · rw [isToken, current]
    rfl
  · exact poised₁.of_sim same sees.views (sees.cache ▸ poised₁.known)
  rintro _ p₁ ⟨rfl, poised₁⟩
  dsimp only
  split
  · rename_i inner
    rw [Bool.not_eq_true'] at inner
    rw [inner, if_neg Bool.false_ne_true] at moves
    refine (onStream_reaches (poised₁.views.consume enough)).bind fun _ p₂ ⟨same, cache, views⟩ => adds ?_
    rw [moves] at views
    obtain ⟨onNet, trees, standing, ctx, callers, precedences, state, -, known, errors, active⟩ := poised₁
    rw [same]
    rw [same] at views cache
    exact ⟨onNet, trees, standing, ctx, callers, precedences, state, views, cache ▸ known, errors, active⟩
  · rename_i atEnd
    rw [if_pos (by simpa using atEnd)] at moves
    exact adds (moves ▸ poised₁)

/-- The transition over the current token is taken. -/
theorem takes_token {Q : Unit → Parser η → Prop} (poised : Poised net fuel tape K state levels frames place p)
    (enough : tape.body.length < fuel) {token : Token} (current : tape.lt? (some place) 1 = some token) {l : Label}
    (label : l = .atom token.type ∨ l = .set (.singleton token.type)) {s : State}
    (rest : ∀ p₁ : Parser η, Poised net fuel tape K state levels frames place p₁ →
      Succeeds (matchOrRepair fuel true : WalkM η Unit) p₁ Q) : Succeeds (take fuel s ⟨n, l⟩) p Q := by
  have looks : Reaches (la fuel 1) p fun type p₁ =>
      type = token.type ∧ Poised net fuel tape K state levels frames place p₁ := by
    refine (la_reaches poised.sees enough (by decide)).imp fun type p₁ ⟨same, sees, isType⟩ => ⟨?_, ?_⟩
    · rw [isType, current]
      rfl
    · exact poised.of_sim same sees.views (sees.cache ▸ poised.known)
  refine .get_bind ?_
  rcases label with rfl | rfl
  · refine (Succeeds.lift looks).bind ?_
    rintro _ p₁ ⟨rfl, poised₁⟩
    rw [beq_self_eq_true]
    dsimp only
    split
    · refine Succeeds.bind (P := fun _ p₂ => p₂ = { p₁ with matchedEof := true }) (.of_modify rfl) ?_
      rintro _ _ rfl
      exact rest _ ⟨poised₁.onNet, poised₁.trees, poised₁.standing, poised₁.ctx, poised₁.callers, poised₁.precedences,
        poised₁.state, poised₁.views, poised₁.known, poised₁.errors, poised₁.active⟩
    · exact rest _ poised₁
  · refine (Succeeds.lift looks).bind ?_
    rintro _ p₁ ⟨rfl, poised₁⟩
    have accepts : (Label.set (.singleton token.type)).accepts token.type minTokenType p.net.maxTokenType = true :=
      (SymbolSet.contains_singleton _ _).2 rfl
    rw [accepts]
    exact rest _ poised₁

/-- The parser reads a token. -/
theorem reads (poised : Poised net fuel tape K state levels (f :: rest) place p) (enough : tape.body.length < fuel)
    (inner : net.isStop state = false) {a : Int} (out : net.out state = [⟨n, Layout.atomLabel a⟩]) {token : Token}
    {ts : List Token} (ahead : tape.Ahead place (token :: ts)) (type : token.type = a) :
    Reaches (turn fuel root leftRecursive) p fun r p' => r = none ∧ ∃ id next,
      Poised net fuel tape K n levels (f.add (.token id token) :: rest) next p' ∧ tape.Ahead next ts := by
  obtain ⟨current, notEof, next, moves, ahead'⟩ := ahead.first
  subst type
  refine poised.turn_single inner out (poised.takes_token enough current ?_ fun p₁ poised₁ => ?_)
  · unfold Layout.atomLabel
    split
    · exact .inr rfl
    · exact .inl rfl
  · refine (poised₁.consumes enough current next ?_).imp fun _ p' ⟨id, poised'⟩ =>
      ⟨id, next, poised'.goesTo n, ahead'⟩
    rw [notEof, if_neg Bool.false_ne_true]
    exact moves

/-- The parser reads the end of the input. -/
theorem readsEnd (poised : Poised net fuel tape K state levels (f :: rest) place p) (enough : tape.body.length < fuel)
    (inner : net.isStop state = false) (out : net.out state = [⟨n, .atom endOfInput⟩]) (ahead : tape.Ahead place []) :
    Reaches (turn fuel root leftRecursive) p fun r p' => r = none ∧ ∃ id,
      Poised net fuel tape K n levels (f.add (.token id tape.last) :: rest) place p' := by
  have isEof : tape.last.isEof = true := tape.ends
  have type : tape.last.type = endOfInput := beq_iff_eq.1 isEof
  refine poised.turn_single inner out (poised.takes_token enough ahead.last (.inl (type ▸ rfl)) fun p₁ poised₁ => ?_)
  refine (poised₁.consumes enough ahead.last place ?_).imp fun _ p' ⟨id, poised'⟩ => ⟨id, poised'.goesTo n⟩
  rw [if_pos isEof]

/-! ## Decisions -/

/-- The parser predicts which way to go on, and goes there. -/
theorem turn_choice {Q : Parser η → Prop} (poised : Poised net fuel tape K state (q :: levels) frames place p)
    (enough : tape.body.length < fuel) (inner : net.isStop state = false)
    (decision : (net.state state).decision = some d) (decides : (net.state state).kind.isDecision = true)
    (several : 1 < (net.out state).length)
    (expected : (net.nextTokens state).contains (tape.typeAt place) = true ∨
      (net.nextTokens state).contains epsilonSymbol = true)
    (predicts : Predicts η net fuel tape K place d q alt) (found : (net.out state)[alt - 1]? = some t)
    (takes : ∀ p₁ : Parser η, Poised net fuel tape K state (q :: levels) frames place p₁ →
      Succeeds (take fuel (net.state state) t) p₁ fun _ p' => Q { p' with state := t.target }) :
    Reaches (turn fuel root leftRecursive) p fun r p' => r = none ∧ Q p' := by
  refine poised.turn_visit inner (Succeeds.bind
    (P := fun a p' => a = alt ∧ Poised net fuel tape K state (q :: levels) frames place p') ?_ ?_)
  · unfold chooseAlt
    rw [decision]
    dsimp only
    have many : ¬ (net.state state).transitions.length ≤ 1 := Nat.not_le.2 several
    rw [decides, if_neg (by simpa using many)]
    refine Succeeds.bind (P := fun _ p' => Poised net fuel tape K state (q :: levels) frames place p') ?_
      fun _ p₁ poised₁ => .get_bind ?_
    · refine .get_bind ?_
      rw [poised.active, if_neg Bool.false_ne_true]
      refine (Succeeds.lift (la_reaches poised.sees enough (by decide))).bind ?_
      rintro type p₁ ⟨same, sees, isType⟩
      have poised₁ := poised.of_sim same sees.views (sees.cache ▸ poised.known)
      refine .get_bind ?_
      rw [poised₁.onNet, poised₁.state, isType, if_pos (by simpa [TokenTape.typeAt] using expected)]
      exact .pure poised₁
    · have level : p₁.precedence = q := by rw [precedence, poised₁.precedences, List.headD_cons]
      rw [level, poised₁.onNet]
      have predicted : Reaches (onSimulator (Simulator.predict net fuel
          { predicate := p₁.hooks.predicate, precedence := fun b h => (decide (b ≥ q), h) } d p₁.callStack q)) p₁
          fun r p' => r = .ok alt ∧ Poised net fuel tape K state (q :: levels) frames place p' := by
        refine .get_bind (.part_bind (predicts p₁.sim _ _ poised₁.known poised₁.views fun _ _ => rfl) ?_)
        rintro r sim ⟨ok, known, views⟩
        exact .set_bind (.pure ⟨ok, poised₁.of_sim rfl views known⟩)
      refine (Succeeds.lift predicted).bind ?_
      rintro r p' ⟨ok, poised'⟩
      rw [ok]
      exact .pure ⟨rfl, poised'⟩
  · rintro a p' ⟨rfl, poised'⟩
    rw [show (net.state state).transitions[a - 1]? = some t from found]
    exact (takes p' poised').bind fun _ p₁ holds => .of_modify holds

/-- The loop of a left-recursive rule begins once more: what was built so far becomes the first child of a new
node. -/
theorem takes_grow (poised : Poised net fuel tape K state levels (f :: rest) place p) (enough : tape.body.length < fuel)
    (loop : (net.state state).kind.isPrecedenceLoop = true) (inside : (net.state n).kind.isLoopEnd = false)
    {o : Option Nat} (recursive : f.recursive = true) :
    Succeeds (take fuel (net.state state) ⟨n, .epsilon o⟩) p fun _ p' => ∃ id,
      Poised net fuel tape K state levels ({ f with id, done := [f.finished] } :: rest) place p' := by
  refine .get_bind ?_
  dsimp only
  rw [poised.onNet, loop, inside, Bool.not_false, Bool.and_self, if_pos rfl]
  have ctx : p.ctx = f.id := Option.some.inj poised.ctx
  have caller : p.callers.head? = some ⟨Frame.top? rest, f.invoking⟩ := by
    rw [poised.callers, callersOf, if_pos recursive]
    rfl
  refine .lift (((growRecursion_reaches poised.sees enough _).and
    (growRecursion_leads poised.ready poised.standing recursive ctx caller _)).imp ?_)
  rintro _ p' ⟨sees, same, _, standing⟩
  refine ⟨p.tree.size, ?_⟩
  obtain ⟨views, cache⟩ := sees
  rw [same] at views cache ⊢
  refine ⟨poised.onNet, poised.trees, standing, rfl, ?_, poised.precedences, poised.state, views,
    cache ▸ poised.known, poised.errors, poised.active⟩
  exact poised.callers.trans (by rw [callersOf, callersOf])

/-- The loop of a left-recursive rule ends. -/
theorem takes_leave (poised : Poised net fuel tape K state levels frames place p)
    (outside : (net.state n).kind.isLoopEnd = true) {o : Option Nat} :
    Succeeds (take fuel (net.state state) ⟨n, .epsilon o⟩) p fun _ p' =>
      Poised net fuel tape K state levels frames place p' := by
  refine .get_bind ?_
  dsimp only
  rw [poised.onNet, outside, Bool.not_true, Bool.and_false, if_neg Bool.false_ne_true]
  exact .pure poised

/-! ## Calls and returns -/

/-- The parser calls a left-recursive rule. -/
theorem calls (poised : Poised net fuel tape K state levels (f :: rest) place p) (enough : tape.body.length < fuel)
    (inner : net.isStop state = false) (number : (net.state state).number = state) {r follow : Nat} {b : Int}
    (out : net.out state = [⟨n, .rule r b follow⟩]) (recursive : (net.state n).kind.isLeftRecursiveStart = true) :
    Reaches (turn fuel root leftRecursive) p fun result p' => result = none ∧ ∃ id,
      Poised net fuel tape K n (b :: levels) ({ id, rule := r, invoking := some state, recursive := true } :: f :: rest)
        place p' := by
  refine poised.turn_single inner out (.get_bind (.get_bind ?_))
  refine Succeeds.bind (P := fun node p₁ => node = p.tree.size ∧
    p₁ = { p with tree := (p.tree.addRule r (Frame.top? (f :: rest)) (some state)).2 }) (.lift fun j => ?_) ?_
  · exact ⟨_, _, j, rfl, rfl, by rw [number, ← poised.ctx]; rfl⟩
  rintro _ p₁ ⟨rfl, same₁⟩
  have entered : p₁.tree.Standing
      ({ id := p.tree.size, rule := r, invoking := some state, recursive := true } :: f :: rest) := by
    rw [same₁]
    exact poised.standing.enter r (some state)
  have sees₁ : Sees fuel tape (some place) p.sim.cache p₁ := poised.sees.of_sim (by rw [same₁])
  have trees : p₁.buildTrees = true := by
    rw [same₁]
    exact poised.trees
  rw [poised.onNet, recursive, if_pos rfl]
  refine .lift (((enterRecursion_reaches sees₁ enough _ _ _).and
    (enterRecursion_leads (P := fun _ => True) ⟨trees, sees₁.views.sound⟩ entered n b)).imp ?_)
  rintro _ p' ⟨sees, same, _, standing⟩
  refine ⟨p.tree.size, ?_⟩
  obtain ⟨views, cache⟩ := sees
  subst same₁
  rw [same] at views cache ⊢
  refine ⟨poised.onNet, poised.trees, standing, rfl, ?_, congrArg _ poised.precedences, rfl, views,
    cache ▸ poised.known, poised.errors, poised.active⟩
  exact congrArg _ poised.callers

/-- A left-recursive rule ends: it is a finished subtree of its caller, which goes on behind the call. -/
theorem returns (poised : Poised net fuel tape K state (q :: levels) (f :: g :: rest) place p)
    (enough : tape.body.length < fuel) (stop : net.isStop state = true) {r : Nat}
    (owner : (net.state state).rule = some r)
    (isRecursive : (net.state (net.ruleStart r)).kind.isLeftRecursiveStart = true) (recursive : f.recursive = true)
    {s follow : Nat} (invoking : f.invoking = some s) (goesOn : net.follow? s = some follow) :
    Reaches (turn fuel root leftRecursive) p fun result p' =>
      result = none ∧ Poised net fuel tape K follow levels (g.add f.finished :: rest) place p' := by
  have isStop : (net.state state).kind.isRuleStop = true := stop
  have ctx : p.ctx = f.id := Option.some.inj poised.ctx
  have invoked : (p.tree.node p.ctx).invoking = some s := by
    rw [ctx, poised.standing.spine.2.1, invoking]
  have callers : p.callers = ⟨some g.id, some s⟩ :: callersOf (g :: rest) := by
    rw [poised.callers, callersOf, if_pos recursive, invoking]
    rfl
  refine .get_bind ?_
  rw [poised.onNet, poised.state]
  dsimp only
  rw [isStop, if_pos rfl, invoked, Option.isNone_some, if_neg Bool.false_ne_true]
  refine Reaches.bind (P := fun result p' => result = .ok () ∧
    Poised net fuel tape K follow levels (g.add f.finished :: rest) place p') ?_ ?_
  · unfold returnFrom
    refine .get_bind ?_
    rw [owner, poised.onNet]
    dsimp only
    rw [isRecursive, if_pos rfl]
    refine Reaches.bind (P := fun caller p₁ => caller = some ⟨some g.id, some s⟩ ∧
      p₁ = { p with callers := callersOf (g :: rest) })
      (fun j => ⟨_, _, j, rfl, by rw [callers]; rfl, by rw [callers]; rfl⟩) ?_
    rintro _ _ ⟨rfl, rfl⟩
    refine ((leaveRecursion_reaches (p := { p with callers := callersOf (g :: rest) }) (poised.sees.of_sim rfl) enough
      _).and
      (leaveRecursion_leads (P := fun _ => True) ⟨poised.trees, poised.views.sound⟩ poised.standing recursive ctx)).bind
      ?_
    rintro _ p₂ ⟨sees, same, _, standing⟩
    refine .modify_bind (.get_bind ?_)
    obtain ⟨views, cache⟩ := sees
    rw [same] at views cache ⊢
    dsimp only
    rw [poised.onNet, goesOn]
    refine .set_bind (.pure ⟨rfl, ?_⟩)
    refine ⟨rfl, poised.trees, standing, rfl, rfl, ?_, rfl, views, cache ▸ poised.known, poised.errors, poised.active⟩
    exact congrArg List.tail poised.precedences
  · rintro result p' ⟨ok, poised'⟩
    rw [ok]
    exact .pure ⟨rfl, poised'⟩

/-- The rule that the parse began with ends, which is not left-recursive. -/
theorem finishes (poised : Poised net fuel tape K state levels [f] place p) (enough : tape.body.length < fuel)
    (stop : net.isStop state = true) (first : f.invoking = none) :
    Reaches (turn fuel root false) p fun result p' =>
      result = some (.ok root) ∧ p'.tree.Standing [f] ∧ p'.syntaxErrors = 0 := by
  have isStop : (net.state state).kind.isRuleStop = true := stop
  have ctx : p.ctx = f.id := Option.some.inj poised.ctx
  have invoked : (p.tree.node p.ctx).invoking = none := by
    rw [ctx, poised.standing.spine.2.1, first]
  refine .get_bind ?_
  rw [poised.onNet, poised.state]
  dsimp only
  rw [isStop, if_pos rfl, invoked, Option.isNone_none, if_pos rfl]
  refine (((exitRule_reaches poised.sees enough).and
    (exitRule_leads_last poised.ready poised.standing ctx first)).bind fun _ p' ⟨_, same, _, standing⟩ =>
      Reaches.pure (Q := fun (result : Except ParseError Nat) (p'' : Parser η) =>
        result = .ok root ∧ p''.tree.Standing [f] ∧ p''.syntaxErrors = 0) ⟨rfl, standing, ?_⟩).bind
          fun result p' ⟨ok, holds⟩ => ?_
  · rw [same]
    exact poised.errors
  · rw [ok]
    exact .pure ⟨rfl, holds⟩

end Poised

/-- A parse begins with a frame for its rule. -/
theorem opening_poised (onNet : p.net = net) (trees : p.buildTrees = true) (views : p.stream.Views fuel tape none)
    (known : K p.sim.cache) (enough : tape.body.length < fuel) {rule : Nat}
    (plain : (net.state (net.ruleStart rule)).kind.isLeftRecursiveStart = false) :
    Reaches (opening net fuel rule) p fun root p' => root = 0 ∧
      Poised net fuel tape K (net.ruleStart rule) [0] [{ id := 0, rule, invoking := none, recursive := false }]
        (tape.firstFrom 0) p' := by
  unfold opening
  refine .modify_bind ?_
  refine Reaches.bind (P := fun node p₁ => node = 0 ∧
    p₁ = { clear p with tree := (({} : ParseTree).addRule rule (Frame.top? []) none).2 })
    (fun j => ⟨_, _, j, rfl, rfl, rfl⟩) ?_
  rintro _ p₁ ⟨rfl, same₁⟩
  have nothing : ({} : ParseTree).Standing [] := ⟨trivial, .nil⟩
  have entered : p₁.tree.Standing [{ id := 0, rule, invoking := none, recursive := true }] := by
    rw [same₁]
    exact nothing.enter rule none
  have sees : Sees fuel tape none p.sim.cache p := ⟨views, rfl⟩
  have sees₁ : Sees fuel tape none p.sim.cache p₁ := sees.of_sim (by rw [same₁]; rfl)
  have trees₁ : p₁.buildTrees = true := by
    rw [same₁]
    exact trees
  rw [plain, if_neg Bool.false_ne_true]
  refine ((enterRule_reaches sees₁ enough 0 _).and
    (enterRule_leads (P := fun _ => True) ⟨trees₁, sees₁.views.sound⟩ entered rfl _)).bind
    fun _ p' ⟨sees', same, _, standing⟩ => .pure ⟨rfl, ?_⟩
  obtain ⟨views', cache⟩ := sees'
  subst same₁
  rw [same] at views' cache ⊢
  exact ⟨onNet, trees, standing, rfl, rfl, rfl, rfl, views', cache ▸ known, rfl, rfl⟩

/-! ## Several turns -/

/-- After so many turns, none of them the last one, the parser satisfies `Q`. -/
def Advances (fuel root : Nat) (leftRecursive : Bool) : Nat → (Parser η → Prop) → Parser η → Prop
  | 0, Q, p => Q p
  | k + 1, Q, p => Reaches (turn fuel root leftRecursive) p fun r p' =>
    r = none ∧ Advances fuel root leftRecursive k Q p'

namespace Advances

variable {P Q : Parser η → Prop} {k m : Nat}

theorem imp (advances : Advances fuel root leftRecursive k P p) (imp : ∀ p', P p' → Q p') :
    Advances fuel root leftRecursive k Q p := by
  induction k generalizing p with
  | zero => exact imp p advances
  | succ k ih => exact Reaches.imp advances fun _ p' ⟨goesOn, rest⟩ => ⟨goesOn, ih rest⟩

theorem trans (first : Advances fuel root leftRecursive k P p)
    (second : ∀ p', P p' → Advances fuel root leftRecursive m Q p') :
    Advances fuel root leftRecursive (k + m) Q p := by
  induction k generalizing p with
  | zero =>
    rw [Nat.zero_add]
    exact second p first
  | succ k ih =>
    rw [Nat.succ_add]
    exact Reaches.imp first fun _ p' ⟨goesOn, rest⟩ => ⟨goesOn, ih rest⟩

/-- One turn before the others. -/
theorem next (first : Reaches (turn fuel root leftRecursive) p fun r p' => r = none ∧ P p')
    (second : ∀ p', P p' → Advances fuel root leftRecursive k Q p') :
    Advances fuel root leftRecursive (k + 1) Q p :=
  Reaches.imp first fun _ p' ⟨goesOn, holds⟩ => ⟨goesOn, second p' holds⟩

/-- A walk takes the turns and then the last one. -/
theorem walk {R : Except ParseError Nat → Parser η → Prop} {rounds : Nat}
    (advances : Advances fuel root leftRecursive k Q p) (few : k < rounds)
    (last : ∀ p', Q p' → Reaches (turn fuel root leftRecursive) p' fun r p'' =>
      ∃ result, r = some result ∧ R result p'') :
    Reaches (walk fuel root leftRecursive rounds) p R := by
  induction k generalizing p rounds with
  | zero =>
    obtain ⟨rounds, rfl⟩ : ∃ m, rounds = m + 1 := ⟨rounds - 1, by omega⟩
    rw [walk_succ]
    refine (last p advances).bind fun r p' ⟨result, same, holds⟩ => ?_
    rw [same]
    exact .pure holds
  | succ k ih =>
    obtain ⟨rounds, rfl⟩ : ∃ m, rounds = m + 1 := ⟨rounds - 1, by omega⟩
    rw [walk_succ]
    refine Reaches.bind advances fun r p' ⟨goesOn, rest⟩ => ?_
    rw [goesOn]
    exact ih rest (by omega)

end Advances

end Parser

end AdaptiveLL
