import AdaptiveLL.Proofs.Grammar.Marks

/-!
# The returns and the decisions of a compiled grammar

The stop state of a rule leads back behind the calls of the rule, in the order of the calling states, and
nowhere else (`compile_ways`). So whichever state called a rule, its end leads to the state that is to
follow (`Returning`). A decision of a parser is made within a rule, between transitions that ask for nothing
(`compile_decisionState`).
-/

set_option autoImplicit false

namespace AdaptiveLL

namespace Network

/-- The end of a rule leads to the state behind each of its calls. -/
def Returning (net : Network) : Prop := ∀ n r start follow, net.isStop n = false →
  .call r start follow ∈ net.moves n → ∀ stop, net.EndsRule r stop → .free follow ∈ net.moves stop

end Network

namespace Grammar

open Layout Network

variable {g : Grammar} {compiled : CompiledGrammar} {net : Network} {verify : Bool}

/-- The transitions that leave the stop states are the ways back from the calls. -/
theorem compile_ways (assembled : g.Assembled) (representable : g.Representable)
    (run : g.compile = .ok compiled) (decoded : decode compiled.words verify = .ok net) {stop : Nat}
    (isStop : net.isStop stop = true) : net.out stop = edgesFrom stop (ways net) := by
  obtain ⟨base, derived, actions, -, laid, outfitted, -, isDerived, isMarked, restored⟩ :=
    compile_derived assembled representable run decoded
  have same : SameBare base net := by
    rw [isMarked]
    exact isDerived.same.trans (sameBare_mark { derived with actions })
  have out (n : Nat) : net.out n = derived.out n := by
    rw [isMarked]
    exact out_mark { derived with actions } n
  have free : EndsFree net := by
    intro n isStop t member
    rw [out] at member
    exact isDerived.returns n (same.isRuleStop n ▸ isStop) t member
  have sameWays : ways net = ways base := ways_eq same restored.ruleStarts restored.ruleStops
    (fun n inner => (out n).trans (isDerived.out n inner)) (endsFree laid) free
  rw [out, sameWays]
  exact isDerived.ways stop (same.isRuleStop stop ▸ isStop)

/-- The stop state of a rule is the only one that ends it. -/
theorem compile_ruleStop (assembled : g.Assembled) (representable : g.Representable)
    (run : g.compile = .ok compiled) (decoded : decode compiled.words verify = .ok net) {r stop : Nat}
    (ends : net.EndsRule r stop) : net.ruleStop? r = some stop := by
  obtain ⟨base, derived, actions, -, laid, -, -, -, -, restored⟩ :=
    compile_derived assembled representable run decoded
  obtain ⟨r', known, rfl, owner⟩ := stop_owner laid ((restored.isRuleStop stop).symm.trans ends.1)
  obtain rfl : r = r' := Option.some.inj (ends.2.symm.trans ((restored.rule _).trans owner))
  rw [ruleStop?, restored.ruleStops]
  change (base.ruleStops[r]?).join = some (2 * r + 1)
  simp [laid.ruleStops, known]

theorem compile_returning (assembled : g.Assembled) (representable : g.Representable)
    (run : g.compile = .ok compiled) (decoded : decode compiled.words verify = .ok net) : net.Returning := by
  intro n r start follow inner call stop ends
  obtain ⟨t, member, isCall⟩ := List.mem_map.1 call
  obtain ⟨q, label⟩ : ∃ q, t.label = .rule r q follow := by
    unfold Transition.move at isCall
    split at isCall
    · rename_i r' q follow' label
      cases isCall
      exact ⟨q, label⟩
    · split at isCall <;> cases isCall
  have inside : n < net.states.size := by
    by_contra outside
    rw [out_of_le (Nat.not_lt.1 outside)] at member
    cases member
  have stops := compile_ruleStop assembled representable run decoded ends
  obtain ⟨outermost, way⟩ : ∃ o, Decode.returnEdge? net t = some (stop, ⟨follow, .epsilon o⟩) := by
    rw [Decode.returnEdge?, label]
    simp only [stops, Option.map_some]
    exact ⟨_, rfl⟩
  refine List.mem_map.2 ⟨⟨follow, .epsilon outermost⟩, ?_, rfl⟩
  rw [compile_ways assembled representable run decoded ends.1]
  exact mem_edgesFrom.2 (List.mem_flatMap.2 ⟨n, List.mem_range.2 inside, List.mem_filterMap.2 ⟨t, member, way⟩⟩)

/-- A decision of a parser is made within a rule, and its alternatives are entered freely. -/
theorem compile_decisionState (assembled : g.Assembled) (representable : g.Representable)
    (run : g.compile = .ok compiled) (decoded : decode compiled.words verify = .ok net)
    (parser : g.isLexer = false) {d : Nat} (inside : d < net.decisions.size) :
    ∃ r, (net.decisionState d).rule = some r ∧ net.isStop (net.decisions.getD d 0) = false ∧
      ∀ t ∈ net.out (net.decisions.getD d 0), t.label = .epsilon none := by
  obtain ⟨base, derived, actions, -, laid, outfitted, -, -, -, restored⟩ :=
    compile_derived assembled representable run decoded
  have decisions : net.decisions = base.decisions := restored.decisions
  obtain ⟨n, found⟩ : ∃ n, base.decisions[d]? = some n := ⟨_, Array.getElem?_eq_getElem (decisions ▸ inside)⟩
  have owner : net.decisions.getD d 0 = n := by
    rw [decisions, Array.getD_eq_getD_getElem?, found, Option.getD_some]
  rw [decisionState, owner]
  obtain ⟨decided, isDecision⟩ := outfitted.equipped.decides d n found
  have below : n < base.states.size := by
    by_contra outside
    rw [state_of_le (Nat.not_lt.1 outside)] at decided
    cases decided
  have free : ∀ t ∈ base.out n, t.label = .epsilon none := by
    cases outfitted.fits n below with
    | blockStart _ _ _ free => exact free
    | plusLoopBack _ _ free => exact free
    | starLoopEntry _ _ two => exact (oneWay laid n).resolve_left fun ⟨t, one⟩ => by simp [one] at two
    | tokenStart kind =>
      rcases laid.states_cases below with ⟨r, known, rfl | rfl⟩ | ⟨mode, known, rfl⟩ |
        ⟨i, r, seg, lo, hi, -, body, low, high⟩
      · have isStart := (laid.startState r known).1
        simp [kind, StateKind.isRuleStart] at isStart
      · cases kind.symm.trans (laid.stopState r known).1
      · rw [laid.numModes, parser] at known
        cases known
      · have inner := body.inner n low high
        simp [kind, StateKind.isInner] at inner
    | ruleStart kind | ruleStop kind | basic kind | blockEnd _ kind | starLoopBack _ kind | loopEnd _ kind =>
      simp [kind, StateKind.isDecision] at isDecision
  have notStop : (base.state n).kind.isRuleStop = false := by
    cases kind : (base.state n).kind with
    | ruleStop => simp [kind, StateKind.isDecision] at isDecision
    | _ => rfl
  obtain ⟨r, owned⟩ : ∃ r, (base.state n).rule = some r := by
    rcases laid.states_cases below with ⟨r, known, rfl | rfl⟩ | ⟨mode, known, rfl⟩ |
      ⟨i, r, seg, lo, hi, -, body, low, high⟩
    · exact ⟨r, (laid.startState r known).2⟩
    · exact ⟨r, (laid.stopState r known).2.1⟩
    · rw [laid.numModes, parser] at known
      cases known
    · exact ⟨i, body.owner n low high⟩
  refine ⟨r, (restored.rule n).trans owned, (restored.isRuleStop n).trans notStop, fun t member => ?_⟩
  rw [(restored.out n notStop).1] at member
  exact free t member

end Grammar

end AdaptiveLL
