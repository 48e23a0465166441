import AdaptiveLL.Proofs.Lookahead.Exploring
import AdaptiveLL.Proofs.Network.Closed

/-!
# What can come next within a rule

The sets that are read with a network are canonical (`decode_canonicalSets`), so a walk notes at a transition just the
symbols that the transition consumes (`noted_iff`). The lookahead of a state of a rule is therefore exact: it has
the symbols that are consumed somewhere on the way through the rule and the rules called there, as far as nothing is
consumed before, and it has the epsilon symbol if the end of the rule is reached in this way (`nextTokens_exact`).
-/

set_option autoImplicit false

namespace AdaptiveLL

namespace Network

variable {net : Network} {g : Grammar} {compiled : CompiledGrammar} {verify : Bool} {lo hi y : Int} {n r : Nat}
  {stack : List Nat} {t : Transition} {θ θ' : Thread}

/-! ## Symbols -/

/-- The sets whose complements are taken are canonical. -/
def CanonicalSets (net : Network) : Prop := ∀ n, ∀ t ∈ net.out n, ∀ s, t.label = .notSet s → s.Canonical

/-- The sets of a network that is read from words are canonical. -/
theorem decode_canonicalSets {words : List Word} (decoded : decode words verify = .ok net) : net.CanonicalSets := by
  intro n t member s label
  obtain ⟨f, base, edges, cursor, -, listed, ⟨linked, ds, acted, links, -, acts, rfl⟩, -⟩ := decode_steps decoded
  obtain ⟨t', member', same⟩ := Transition.mem_of_casts (Decode.casts_completed links acts n).symm member
  obtain rfl : t' = t := Transition.eq_of_cast same (by simp [label])
  rcases listed.transition member' with written | ⟨m, call, r, p, o, -, -, free⟩
  · exact (listed.proper s ((listed.joins _ written).set s (by rw [label]; rfl))).canonical
  · rw [label] at free
    cases free

/-- A walk notes the symbols that a transition consumes. -/
theorem noted_iff (canonical : ∀ s, t.label = .notSet s → s.Canonical) :
    (net.noted t).contains y = true ↔ t.label.accepts y minTokenType net.maxTokenType = true := by
  unfold noted Label.accepts
  cases label : t.label with
  | wildcard => simp [SymbolSet.contains_ofRange]
  | notSet s => simp [SymbolSet.contains_complement (canonical s label)]
  | atom a => exact (SymbolSet.contains_singleton a y).trans (eq_comm.trans beq_iff_eq.symm)
  | range a b => simp [Label.symbols?, SymbolSet.contains_ofRange]
  | set s => simp [Label.symbols?]
  | epsilon | rule | predicate | action | precedence => simp [Label.symbols?, SymbolSet.contains_empty]

/-- No symbol below the end of the input is consumed anywhere. -/
def Regular (net : Network) : Prop :=
  ∀ n, ∀ t ∈ net.out n, ∀ y, t.label.accepts y minTokenType net.maxTokenType = true → endOfInput ≤ y

/-- No symbol below the end of the input is written anywhere. -/
theorem regular_of_intervals (written : ∀ n < net.states.size, ∀ t ∈ net.out n,
    ∀ r ∈ (t.label.symbols?.getD .empty).intervals, endOfInput ≤ r.1) : net.Regular := by
  intro n t member y accepts
  have known : ∀ symbols, t.label.symbols? = some symbols → symbols.contains y = true → endOfInput ≤ y := by
    intro symbols isSet among
    have inside : n < net.states.size := by
      by_contra outside
      rw [out_of_le (Nat.not_lt.1 outside)] at member
      cases member
    obtain ⟨r, here, low, -⟩ := SymbolSet.contains_iff.1 among
    exact Int.le_trans (written n inside t member r (by rw [isSet]; exact here)) low
  have ofUser (low : minTokenType ≤ y) : endOfInput ≤ y := Int.le_trans (by decide) low
  unfold Label.accepts at accepts
  cases label : t.label with
  | atom a =>
    rw [label] at accepts
    exact known _ (by rw [label]; rfl) ((SymbolSet.contains_singleton _ _).2 (beq_iff_eq.1 accepts).symm)
  | range a b =>
    rw [label] at accepts
    exact known _ (by rw [label]; rfl) ((SymbolSet.contains_ofRange _ _ _).2 (of_decide_eq_true accepts))
  | set s =>
    rw [label] at accepts
    exact known s (by rw [label]; rfl) accepts
  | notSet s =>
    rw [label] at accepts
    exact ofUser (of_decide_eq_true (Bool.and_eq_true_iff.1 accepts).1).1
  | wildcard =>
    rw [label] at accepts
    exact ofUser (of_decide_eq_true accepts).1
  | epsilon | rule | predicate | action | precedence =>
    rw [label] at accepts
    cases accepts

/-! ## Exact lookahead -/

theorem runs_nil_iff_reach : net.Runs lo hi θ [] θ' ↔ net.Reach θ θ' := by
  constructor
  · intro run
    generalize none' : ([] : List Int) = w at run
    induction run with
    | stay => exact .refl
    | silent step _ ih => exact .head step (ih none')
    | consume => cases none'
  · intro reach
    induction reach using Relation.ReflTransGen.head_induction_on with
    | refl => exact .stay _
    | head step _ ih => exact .silent step ih

/-- A thread shows what it can consume, and at the bottom of the stack what stands there. -/
theorem shows_iff {bottom : Int} (canonical : net.CanonicalSets) :
    net.Shows bottom θ y ↔ (y = bottom ∧ net.isStop θ.state = true ∧ θ.stack = []) ∨
      ∃ next, next ∈ net.consumeNext minTokenType net.maxTokenType y θ := by
  obtain ⟨n, stack⟩ := θ
  constructor
  · intro shown
    cases shown with
    | ends stop => exact .inl ⟨rfl, stop, rfl⟩
    | token inner member symbol =>
      exact .inr ⟨_, mem_consumeNext.2 ⟨inner, _, member, (noted_iff (canonical n _ member)).1 symbol, rfl⟩⟩
  · rintro (⟨rfl, stop, rfl⟩ | ⟨next, step⟩)
    · exact .ends stop
    · obtain ⟨inner, t, member, accepts, -⟩ := mem_consumeNext.1 step
      exact .token inner member ((noted_iff (canonical n t member)).2 accepts)

/-- Within the rule a thread that begins at the state comes without consuming to where it can consume the symbol. -/
def Offers (net : Network) (n : Nat) (y : Int) : Prop :=
  ∃ θ, net.Reach ⟨n, []⟩ θ ∧ ∃ next, next ∈ net.consumeNext minTokenType net.maxTokenType y θ

/-- A thread that begins at the state comes to the end of the rule without consuming. -/
def Ends (net : Network) (n : Nat) : Prop := ∃ stop, net.isStop stop = true ∧ net.Reach ⟨n, []⟩ ⟨stop, []⟩

/-- Within the rule something is shown if it is offered there, or if it stands behind the end of the rule. -/
theorem exists_shows_iff {bottom : Int} (canonical : net.CanonicalSets) :
    (∃ θ, net.Reach ⟨n, []⟩ θ ∧ net.Shows bottom θ y) ↔ net.Offers n y ∨ net.Ends n ∧ y = bottom := by
  simp only [shows_iff canonical]
  constructor
  · rintro ⟨⟨stop, stack⟩, reach, ⟨isEnd, isStop, empty⟩ | consumes⟩
    · obtain rfl : stack = [] := empty
      exact .inr ⟨⟨stop, isStop, reach⟩, isEnd⟩
    · exact .inl ⟨_, reach, consumes⟩
  · rintro (⟨θ, reach, consumes⟩ | ⟨⟨stop, isStop, reach⟩, isEnd⟩)
    · exact ⟨θ, reach, .inr consumes⟩
    · exact ⟨⟨stop, []⟩, reach, .inl ⟨isEnd, isStop, rfl⟩⟩

/-- Nothing that is written is epsilon, so it is not offered. -/
theorem Regular.not_offers (regular : net.Regular) : ¬ net.Offers n epsilonSymbol := by
  rintro ⟨θ, -, next, step⟩
  obtain ⟨-, t, member, accepts, -⟩ := mem_consumeNext.1 step
  exact absurd (regular _ t member _ accepts) (by decide)

section Lookahead

variable (built : net.Built g) (progressive : net.Progressive) (canonical : net.CanonicalSets)
  (owned : (net.state n).rule = some r)
include built progressive canonical owned

theorem nextTokens_iff :
    (net.nextTokens n).contains y = true ↔ net.Offers n y ∨ net.Ends n ∧ y = epsilonSymbol :=
  ((look_walks built progressive (List.forall_mem_singleton.2 ⟨r, owned⟩)).found_iff built progressive).trans
    (exists_shows_iff canonical)

/-- Apart from epsilon the lookahead has what is offered within the rule. -/
theorem nextTokens_offers (regular : net.Regular) :
    (net.nextTokens n).contains y = true ∧ y ≠ epsilonSymbol ↔ net.Offers n y := by
  rw [nextTokens_iff built progressive canonical owned]
  constructor
  · rintro ⟨offered | ends, other⟩
    · exact offered
    · exact absurd ends.2 other
  · intro offered
    exact ⟨.inl offered, fun same => regular.not_offers (same ▸ offered)⟩

/-- The lookahead has epsilon if the end of the rule is reached. -/
theorem nextTokens_ends (regular : net.Regular) : (net.nextTokens n).contains epsilonSymbol = true ↔ net.Ends n := by
  rw [nextTokens_iff built progressive canonical owned, or_iff_right regular.not_offers, and_iff_left rfl]

end Lookahead

/-- A walk within a rule ends just where that rule ends. -/
theorem Built.endsRule_of_reach (built : net.Built g) (owned : (net.state n).rule = some r) {stop : Nat}
    (isStop : net.isStop stop = true) (reach : net.Reach ⟨n, []⟩ ⟨stop, []⟩) : net.EndsRule r stop := by
  have path : net.Path 0 0 n [] stop := (runs_nil_iff_reach.2 reach).finishes built
  exact ⟨isStop, path.rule_eq built owned⟩

end Network

open Network

variable {net : Network} {g : Grammar} {compiled : CompiledGrammar} {verify : Bool} {n r : Nat}

/-- **Lookahead within a rule.** In the network of a compiled grammar in which no rule comes back to its start without
consuming and no symbol below the end of the input is consumed, the lookahead walk from a state of a rule ends. It
finds a symbol other than epsilon just if a thread that begins there, with nowhere to return to, comes without
consuming to where it can consume the symbol, and epsilon just if such a thread comes to the end of the rule. -/
theorem Grammar.nextTokens_exact (assembled : g.Assembled) (run : g.compile = .ok compiled)
    (decoded : decode compiled.words verify = .ok net) (progressive : net.Progressive) (regular : net.Regular)
    (owned : (net.state n).rule = some r) :
    net.Walks epsilonSymbol n [] [] {} (net.look epsilonSymbol (net.lookBound 0) n [] [] {}) ∧
    (∀ y ≠ epsilonSymbol, (net.nextTokens n).contains y = true ↔
      ∃ θ, net.Runs minTokenType net.maxTokenType ⟨n, []⟩ [] θ ∧
        ∃ next, next ∈ net.consumeNext minTokenType net.maxTokenType y θ) ∧
    ((net.nextTokens n).contains epsilonSymbol = true ↔
      ∃ stop, net.EndsRule r stop ∧ net.Runs minTokenType net.maxTokenType ⟨n, []⟩ [] ⟨stop, []⟩) := by
  obtain ⟨built, -⟩ := Grammar.compile_built assembled run decoded
  have canonical := decode_canonicalSets decoded
  refine ⟨look_walks built progressive (List.forall_mem_singleton.2 ⟨r, owned⟩), fun y other => ?_, ?_⟩
  · simp only [runs_nil_iff_reach]
    exact (and_iff_left other).symm.trans (nextTokens_offers built progressive canonical owned regular)
  · rw [nextTokens_ends built progressive canonical owned regular]
    simp only [runs_nil_iff_reach]
    constructor
    · rintro ⟨stop, isStop, reach⟩
      exact ⟨stop, built.endsRule_of_reach owned isStop reach, reach⟩
    · rintro ⟨stop, ends, reach⟩
      exact ⟨stop, ends.1, reach⟩

/-- A rule that calls another one twice, which may be empty. -/
def twice : Grammar :=
  ((Grammar.parser "Twice" { literalNames := [none, some "'a'", some "'b'", some "'c'", some "'d'", some "'e'"] }).rule
    "x" (.seq [.rule "q" 0, .rule "q" 0])).rule "q" (.alt [.literal "c", .seq [], .notSet (.ofRange 2 4)])

/-- The words of the grammar. -/
@[irreducible]
def twiceCompiled : CompiledGrammar := twice.compile.toOption.getD default

/-- The network of the grammar. -/
@[irreducible]
def twiceNetwork : Network := (decode twiceCompiled.words true).toOption.getD default

theorem twice_assembled : twice.Assembled := .rule "q" _ (.rule "x" _ (.parser "Twice" _))

/-- The grammar is written and read back, and its network has ranks and plain sets. -/
theorem twice_read : (twice.compile = .ok twiceCompiled ∧ decode twiceCompiled.words true = .ok twiceNetwork) ∧
    twiceNetwork.Progressive ∧ twiceNetwork.Regular := by
  refine ⟨⟨?compiles, ?decodes⟩, progressive_of_rank
    (fun n => [9, 0, 5, 0, 8, 7, 6, 1, 3, 2, 3, 2, 3, 2, 4, 1].getD n 0) (fun n => n != 8 && n != 12) ?stops ?falls,
    regular_of_intervals ?intervals⟩
  case compiles =>
    rw [twiceCompiled]
    exact except_ok_getD (by decide +kernel)
  case decodes =>
    rw [twiceNetwork]
    exact except_ok_getD (by decide +kernel)
  case stops => decide +kernel
  case falls => decide +kernel
  case intervals => decide +kernel

/-- The first call is completed without consuming, and then the second one is pending or completed as well. -/
theorem nextTokens_exact_twice : (twiceNetwork.state 0).rule = some 0 ∧ twiceNetwork.Progressive ∧ twiceNetwork.Regular ∧
    twiceNetwork.Walks epsilonSymbol 0 [] [] {} (twiceNetwork.look epsilonSymbol (twiceNetwork.lookBound 0) 0 [] [] {}) ∧
    (twiceNetwork.nextTokens 0).contains 5 = true ∧ (twiceNetwork.nextTokens 0).contains epsilonSymbol = true := by
  have owned : (twiceNetwork.state 0).rule = some 0 := by decide +kernel
  obtain ⟨⟨compiles, decodes⟩, progressive, regular⟩ := twice_read
  obtain ⟨ends, tokens, epsilon⟩ := Grammar.nextTokens_exact twice_assembled compiles decodes progressive regular owned
  have first : twiceNetwork.Reach ⟨0, []⟩ ⟨14, [7]⟩ := List.relationReflTransGen_of_exists_isChain_cons
    [⟨4, []⟩, ⟨2, [5]⟩, ⟨14, [5]⟩, ⟨10, [5]⟩, ⟨11, [5]⟩, ⟨15, [5]⟩, ⟨3, [5]⟩, ⟨5, []⟩, ⟨6, []⟩, ⟨2, [7]⟩, ⟨14, [7]⟩]
    (by decide +kernel) rfl
  have pending : twiceNetwork.Reach ⟨14, [7]⟩ ⟨12, [7]⟩ := .single (by decide +kernel)
  have completed : twiceNetwork.Reach ⟨14, [7]⟩ ⟨1, []⟩ := List.relationReflTransGen_of_exists_isChain_cons
    [⟨10, [7]⟩, ⟨11, [7]⟩, ⟨15, [7]⟩, ⟨3, [7]⟩, ⟨7, []⟩, ⟨1, []⟩] (by decide +kernel) rfl
  have consumed : (⟨13, [7]⟩ : Thread) ∈
      twiceNetwork.consumeNext minTokenType twiceNetwork.maxTokenType 5 ⟨12, [7]⟩ := by
    decide +kernel
  refine ⟨owned, progressive, regular, ends, ?_, ?_⟩
  · exact (tokens 5 (by decide)).2 ⟨_, runs_nil_iff_reach.2 (first.trans pending), _, consumed⟩
  · exact epsilon.2 ⟨1, by unfold EndsRule; decide +kernel, runs_nil_iff_reach.2 (first.trans completed)⟩

end AdaptiveLL
