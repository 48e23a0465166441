import AdaptiveLL.Proofs.Parser.Repairing
import AdaptiveLL.Proofs.Prediction.Modes

/-!
# Parses that go alike in every mode

A parser uses its mode only for predictions, so what holds of them holds of whole parses: without predicates
and with an empty cache, a parse that reports no full context goes just the same way with local context only
(`parse_local`). The result, the tree, the counters, the automata and the journal are the same then.
-/

set_option autoImplicit false

namespace AdaptiveLL.Parser

open Session

variable {η : Type} {net : Network} {α : Type} {fuel rule root : Nat}

/-- Up to a report of full context, the step of a parser on the network goes alike with local context only, and
nothing is left to guards. -/
def Agrees (net : Network) (x : ParseM η α) : Prop :=
  ∀ p : Parser η, p.net = net → p.sim.cache.Guardless →
    Unison (inMode · .sll) Event.isFullContext x x p fun _ p' => p'.net = net ∧ p'.sim.cache.Guardless

namespace Agrees

theorem modifyGet {f : Parser η → α × Parser η}
    (blind : ∀ p : Parser η, f (p.inMode .sll) = ((f p).1, (f p).2.inMode .sll))
    (kept : ∀ p, (f p).2.net = p.net ∧ (f p).2.sim.cache = p.sim.cache) :
    Agrees net (modifyGet f : ParseM η α) := fun p onNet guardless =>
  .of_modifyGet (blind p) ⟨(kept p).1.trans onNet, (kept p).2 ▸ guardless⟩

theorem modify {next : Parser η → Parser η} (blind : ∀ p, next (p.inMode .sll) = (next p).inMode .sll)
    (kept : ∀ p, (next p).net = p.net ∧ (next p).sim.cache = p.sim.cache) :
    Agrees net (modify next : ParseM η PUnit) :=
  modifyGet (f := fun p => (PUnit.unit, next p)) (fun p => congrArg _ (blind p)) kept

theorem onTree (f : ParseTree → ParseTree) : Agrees net (onTree f : ParseM η Unit) :=
  modify (fun _ => rfl) fun _ => ⟨rfl, rfl⟩

theorem onSimulator {P : α → Prop} {step : Simulator.PredictM η α} (agrees : Simulator.Agrees P step) :
    Agrees net (onSimulator step) := fun p onNet guardless =>
  .get_bind <| (agrees p.sim guardless).part_bind fun _ _ ⟨guardless', _⟩ => .set_bind rfl (.pure ⟨onNet, guardless'⟩)

end Agrees

/-- Matching, choosing and repairing go alike. -/
theorem agrees_law (unguarded : net.Unguarded) : StepLaw (η := η) net (Agrees net) where
  pure _ _ onNet guardless := .pure ⟨onNet, guardless⟩
  failure _ _ _ := .failure
  bind first second p onNet guardless := (first p onNet guardless).bind fun a p' known => second a p' known.1 known.2
  get_bind rest blind p onNet guardless := by
    refine .get_bind ?_
    rw [blind]
    exact rest p onNet p onNet guardless
  onStream quiet := .onSimulator (.onStream quiet)
  predict fuel evaluator decision callStack precedence :=
    .onSimulator (Simulator.predict_agrees unguarded fuel evaluator decision callStack precedence)
  note recovery blind := .modify (fun p => congrArg (fun r => { p.inMode .sll with recovery := r }) (blind p .sll))
    fun _ => ⟨rfl, rfl⟩
  count := .modify (fun _ => rfl) fun _ => ⟨rfl, rfl⟩
  tell _ _ _ _ _ _ onNet guardless := .of_journal (fun _ => ⟨_, Array.push_eq_append⟩) ⟨onNet, guardless⟩
  addLeaf _ _ := .onTree _
  noteEof := .modify (fun _ => rfl) fun _ => ⟨rfl, rfl⟩
  ask _ _ := .modifyGet (fun _ => rfl) fun _ => ⟨rfl, rfl⟩
  act _ _ := .modify (fun _ => rfl) fun _ => ⟨rfl, rfl⟩

section

variable (unguarded : net.Unguarded)
include unguarded

/-! ## Rules that begin and end -/

theorem enterRule_agrees (node state : Nat) : Agrees net (enterRule fuel node state : ParseM η Unit) := by
  have law := agrees_law (η := η) unguarded
  refine law.bind (.modify (fun _ => rfl) fun _ => ⟨rfl, rfl⟩) fun _ => law.bind (law.tokenIndex 1) fun start => ?_
  refine law.bind (.onTree _) fun _ => law.get_bind (fun p _ => ?_) fun _ _ => rfl
  split
  · split
    · exact .onTree _
    · exact law.pure _
  · exact law.pure _

theorem exitRule_agrees : Agrees net (exitRule fuel : ParseM η Unit) := by
  have law := agrees_law (η := η) unguarded
  exact law.bind (law.tokenIndex (-1)) fun stop => .modify (fun _ => rfl) fun _ => ⟨rfl, rfl⟩

theorem enterRecursion_agrees (node state : Nat) (precedence : Int) :
    Agrees net (enterRecursion fuel node state precedence : ParseM η Unit) := by
  have law := agrees_law (η := η) unguarded
  exact law.bind (.modify (fun _ => rfl) fun _ => ⟨rfl, rfl⟩) fun _ => law.bind (law.tokenIndex 1) fun start =>
    .onTree _

theorem growRecursion_agrees (s : State) : Agrees net (growRecursion fuel s : ParseM η Unit) := by
  have law := agrees_law (η := η) unguarded
  have wraps (outer state : Nat) : Agrees net (wrapContext fuel outer state : ParseM η Unit) := by
    refine law.get_bind (fun p _ => law.bind (law.tokenIndex (-1)) fun stop => ?_) fun _ _ => rfl
    refine law.bind (.onTree _) fun _ => law.bind (.modify (fun _ => rfl) fun _ => ⟨rfl, rfl⟩) fun _ => ?_
    refine law.get_bind (fun p _ => ?_) fun _ _ => rfl
    split
    · exact .onTree _
    · exact law.pure _
  refine law.get_bind (fun p _ => ?_) fun _ _ => rfl
  exact law.bind (.modifyGet (fun _ => rfl) fun _ => ⟨rfl, rfl⟩) fun node => wraps _ _

theorem leaveRecursion_agrees (parent : Option Nat) : Agrees net (leaveRecursion fuel parent : ParseM η Unit) := by
  have law := agrees_law (η := η) unguarded
  refine law.bind (.modify (fun _ => rfl) fun _ => ⟨rfl, rfl⟩) fun _ => law.bind (law.tokenIndex (-1)) fun stop => ?_
  refine law.get_bind (fun p _ => law.bind (.onTree _) fun _ => ?_) fun _ _ => rfl
  split
  · exact law.pure _
  · refine law.bind (.modify (fun _ => rfl) fun _ => ⟨rfl, rfl⟩) fun _ => ?_
    split
    · exact .onTree _
    · exact law.pure _

omit unguarded in
theorem popCaller_agrees : Agrees net (popCaller : ParseM η (Option Caller)) :=
  .modifyGet (fun _ => rfl) fun _ => ⟨rfl, rfl⟩

/-! ## Turns of a parse -/

theorem take_agrees (s : State) (t : Transition) : Agrees net (take fuel s t : WalkM η Unit).run := by
  have law := agrees_law (η := η) unguarded
  by_cases calls : ∃ r q follow, t.label = .rule r q follow
  · obtain ⟨r, q, follow, label⟩ := calls
    unfold take
    refine law.walk_get_bind (fun p onNet => ?_) fun _ _ => rfl
    rw [onNet, label]
    refine law.walk_get_bind (fun p _ => ?_) fun _ _ => rfl
    refine law.walk_bind (law.lift (.modifyGet (fun _ => rfl) fun _ => ⟨rfl, rfl⟩)) fun node => ?_
    split
    · exact law.lift (enterRecursion_agrees unguarded _ _ _)
    · exact law.lift (enterRule_agrees unguarded _ _)
  by_cases grows : ∃ q, t.label = .epsilon q ∧
      (s.kind.isPrecedenceLoop && !(net.state t.target).kind.isLoopEnd) = true
  · obtain ⟨q, label, grows⟩ := grows
    unfold take
    refine law.walk_get_bind (fun p onNet => ?_) fun _ _ => rfl
    rw [onNet, label]
    dsimp only
    rw [if_pos grows]
    exact law.lift (growRecursion_agrees unguarded s)
  · exact law.take (fun r q follow label => calls ⟨r, q, follow, label⟩)
      fun q label => Bool.eq_false_iff.2 fun holds => grows ⟨q, label, holds⟩

theorem visit_agrees (s : State) : Agrees net (visit fuel s : WalkM η Unit).run := by
  have law := agrees_law (η := η) unguarded
  refine law.walk_bind (law.chooseAlt s) fun alt => ?_
  split
  · exact law.walk_get_bind (fun _ _ => law.throw _) fun _ _ => rfl
  · exact law.walk_bind (take_agrees unguarded s _) fun _ =>
      law.walk_modify (.modify (fun _ => rfl) fun _ => ⟨rfl, rfl⟩)

theorem returnFrom_agrees (s : State) : Agrees net (returnFrom fuel s : ParseM η (Except ParseError Unit)) := by
  have law := agrees_law (η := η) unguarded
  have resumes : Agrees net (returnFrom.resume : ParseM η (Except ParseError Unit)) := by
    refine fun p onNet guardless => .get_bind ?_
    rw [show (p.inMode .sll).net.follow? (p.inMode .sll).state = p.net.follow? p.state from rfl]
    cases p.net.follow? p.state with
    | none => exact .pure ⟨onNet, guardless⟩
    | some state => exact .set_bind rfl (.pure ⟨onNet, guardless⟩)
  unfold returnFrom
  refine law.get_bind (fun p _ => ?_) fun _ _ => rfl
  dsimp only
  split
  · exact law.pure _
  split
  · refine law.bind popCaller_agrees fun caller => ?_
    cases caller with
    | none => exact law.pure _
    | some caller =>
      refine law.bind (leaveRecursion_agrees unguarded _) fun _ => ?_
      split
      · exact law.pure _
      · exact law.bind (.modify (fun _ => rfl) fun _ => ⟨rfl, rfl⟩) fun _ => resumes
  · exact law.bind (exitRule_agrees unguarded) fun _ => resumes

theorem finish_agrees (leftRecursive : Bool) :
    Agrees net (finish fuel root leftRecursive : ParseM η (Except ParseError Nat)) := by
  have law := agrees_law (η := η) unguarded
  unfold finish
  split
  · refine law.get_bind (fun p _ => law.bind popCaller_agrees fun caller => ?_) fun _ _ => rfl
    cases caller with
    | none => exact law.pure _
    | some caller => exact law.bind (leaveRecursion_agrees unguarded _) fun _ => law.pure _
  · exact law.bind (exitRule_agrees unguarded) fun _ => law.pure _

theorem walk_agrees (leftRecursive : Bool) (rounds : Nat) :
    Agrees net (walk fuel root leftRecursive rounds : ParseM η (Except ParseError Nat)) := by
  have law := agrees_law (η := η) unguarded
  induction rounds with
  | zero => exact law.failure
  | succ rounds ih =>
    refine law.get_bind (fun p _ => ?_) fun _ _ => rfl
    dsimp only
    split
    · split
      · exact finish_agrees unguarded leftRecursive
      · refine law.bind (returnFrom_agrees unguarded _) fun result => ?_
        cases result with
        | ok _ => exact ih
        | error e => exact law.pure _
    · refine law.bind (visit_agrees unguarded _) fun result => ?_
      cases result with
      | ok _ => exact law.bind (x := pure ()) (law.pure _) fun _ => ih
      | error e =>
        exact law.bind (.modify (fun _ => rfl) fun _ => ⟨rfl, rfl⟩) fun _ => law.bind (law.reportError e) fun _ =>
          law.bind (law.recover e) fun _ => ih

/-! ## Whole parses -/

omit unguarded in
theorem logParse_agrees : Agrees net (logParse rule : ParseM η Unit) := fun p onNet guardless =>
  .get_bind <| (Unison.of_journal (P := fun _ p' => p' = p)
    (fun j => (Lexer.echo_adds _ j).imp fun _ => And.left) rfl).bind fun _ p' same => by
      subst same
      exact .of_set rfl ⟨onNet, guardless⟩

theorem parse_agrees : Agrees net (parse fuel rule : ParseM η (Except ParseError Nat)) := by
  have law := agrees_law (η := η) unguarded
  refine law.get_bind (fun p _ => ?_) fun _ _ => rfl
  dsimp only
  split
  · exact law.pure _
  · refine law.bind (.modify (fun _ => rfl) fun _ => ⟨rfl, rfl⟩) fun _ => ?_
    refine law.bind (.modifyGet (fun _ => rfl) fun _ => ⟨rfl, rfl⟩) fun root => ?_
    have rest (leftRecursive : Bool) {close : Except ParseError Nat → ParseM η (Except ParseError Nat)}
        (ok : ∀ top, close (.ok top) = do logParse rule; return .ok top)
        (error : ∀ e, close (.error e) = return .error e) :
        Agrees net (walk fuel root leftRecursive fuel >>= close) := by
      refine law.bind (walk_agrees unguarded leftRecursive fuel) fun result => ?_
      cases result with
      | ok top => exact ok top ▸ law.bind logParse_agrees fun _ => law.pure _
      | error e => exact error e ▸ law.pure _
    split
    · exact law.bind (enterRecursion_agrees unguarded _ _ _) fun _ => rest _ (fun _ => rfl) fun _ => rfl
    · exact law.bind (enterRule_agrees unguarded _ _) fun _ => rest _ (fun _ => rfl) fun _ => rfl

end

/-- Without predicates, a parse that begins with an empty cache and reports no full context goes just the same
way with local context only: with the same result, the same tree, the same counters and the same journal. -/
theorem parse_local {g : Grammar} {compiled : CompiledGrammar} {verify : Bool} {p p' : Parser η} {j j' : Journal}
    {result : Except ParseError Nat} (assembled : g.Assembled) (representable : g.Representable)
    (unguarded : g.Unguarded) (run : g.compile = .ok compiled)
    (decoded : Network.decode compiled.words verify = .ok net) (onNet : p.net = net)
    (fresh : p.sim.cache = .ofNetwork net)
    (ends : ((parse fuel rule).run p).run j = some ((result, p'), j')) :
    ∃ new : Journal, j' = j ++ new ∧ ((∀ e ∈ new.reports (· == .parser), e.isFullContext = false) →
      ((parse fuel rule).run (p.inMode .sll)).run j = some ((result, p'.inMode .sll), j')) := by
  have free := Grammar.compile_unguarded assembled representable run decoded unguarded
  have guardless : p.sim.cache.Guardless := fresh ▸ DfaCache.guardless_fresh net
  obtain ⟨new, added, -, alike⟩ := parse_agrees free p onNet guardless j result p' j' ends
  exact ⟨new, added, fun quiet => alike (List.any_eq_false.2 fun e member => by simp [quiet e member])⟩

/-- A choice between two tokens. -/
def choice : Grammar :=
  (Grammar.parser "Choice" { literalNames := [none, some "'a'", some "'b'"] })
    |>.rule "s" (.alt [.literal "a", .literal "b"])

/-- A parser of a choice, over the second token. -/
def choiceOver (net : Network) : Parser Unit where
  net
  info := choice.info
  hooks := .silent
  sim := {
    cache := .ofNetwork net
    mode := .ll
    stream := { source := .list { tokens := #[{
      type := 2, channel := 0, start := 0, stop := 1, line := 1, column := 0, index := none, text := none }] } () } }

theorem choice_leaves {r : RuleDef} (member : r ∈ choice.rules) {e : Element} (leaf : e ∈ r.body.leaves) :
    e = .literal "a" ∨ e = .literal "b" := by
  obtain rfl := List.mem_singleton.1 member
  simpa [Element.leaves, Element.leavesAll] using leaf

theorem choice_representable : choice.Representable := by
  intro r member e leaf
  rcases choice_leaves member leaf with rfl | rfl <;> trivial

theorem choice_unguarded : choice.Unguarded := by
  intro r member e leaf
  rcases choice_leaves member leaf with rfl | rfl <;> rfl

/-- The choice is predicted from one token, in every mode. -/
theorem parse_local_choice : ∃ compiled net, choice.compile = .ok compiled ∧
    Network.decode compiled.words true = .ok net ∧
    ∃ p' j', ((parse 20 0).run (choiceOver net)).run #[] = some ((.ok 0, p'), j') ∧
    p'.sim.stats.predictions = 1 ∧ p'.syntaxErrors = 0 ∧
    ((parse 20 0).run ((choiceOver net).inMode .sll)).run #[] = some ((.ok 0, p'.inMode .sll), j') := by
  have answer : (do
      let net ← (Network.decode (← choice.compile.toOption).words true).toOption
      let ran ← ((parse 20 0).run (choiceOver net)).run #[]
      return (ran.1.1.toOption, ran.1.2.sim.stats.predictions, ran.1.2.syntaxErrors, ran.2.size)) =
        some (some 0, 1, 0, 0) := by
    cbv
  simp only [Option.bind_eq_bind, Option.bind_eq_some_iff] at answer
  obtain ⟨compiled, compiles, net, decodes, ⟨⟨result, p'⟩, j'⟩, ends, same⟩ := answer
  simp only [pure, Option.some.injEq, Prod.mk.injEq] at same
  obtain ⟨isOk, predictions, errors, empty⟩ := same
  obtain rfl := except_ok_of_some isOk
  obtain rfl := Array.eq_empty_of_size_eq_zero empty
  obtain ⟨new, added, alike⟩ := parse_local (.rule _ _ (.parser _ _)) choice_representable choice_unguarded
    (except_ok_of_some compiles) (except_ok_of_some decodes) rfl rfl ends
  obtain rfl : new = #[] := by simpa using added.symm
  exact ⟨compiled, net, except_ok_of_some compiles, except_ok_of_some decodes, p', #[], ends, predictions, errors,
    alike (by simp [Journal.reports])⟩

end AdaptiveLL.Parser
