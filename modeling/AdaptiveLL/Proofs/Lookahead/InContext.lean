import AdaptiveLL.Proofs.Lookahead.Exact

/-!
# What can come next for a call stack

A thread with a stack goes on as if it had nowhere to return to, and behind the end of its rule as the state on top
of its stack does with the rest (`reach_split`). So what can come next for a stack is what can come next within the
rule, and if its end is reached also what can come next for the stack behind it (`inContext_iff`). One way to find
this out is a walk with the stack, another one joins the lookahead of the states to return to, as far as the ends of
the rules are reached. Both find the same set (`expectedTokens_eq`).
-/

set_option autoImplicit false

namespace AdaptiveLL

namespace Network

variable {net : Network} {g : Grammar} {compiled : CompiledGrammar} {verify : Bool} {y : Int} {n m r ret : Nat}
  {stack base : List Nat} {θ θ' : Thread}

/-! ## Threads on a stack -/

/-- The thread with further states to return to below its stack. -/
def Thread.above (base : List Nat) (θ : Thread) : Thread := ⟨θ.state, θ.stack ++ base⟩

theorem silentMove_above (base : List Nat) (stack : List Nat) (move : Move) :
    silentMove (stack ++ base) move = (silentMove stack move).map (Thread.above base) := by
  cases move <;> rfl

/-- Further states do not matter to a thread that goes on. -/
theorem silentNext_above (step : θ' ∈ net.silentNext θ) : θ'.above base ∈ net.silentNext (θ.above base) := by
  obtain ⟨n, stack⟩ := θ
  cases isStop : net.isStop n with
  | true =>
    cases stack with
    | nil => simp [silentNext, isStop] at step
    | cons ret stack =>
      obtain rfl : θ' = ⟨ret, stack⟩ := by simpa [silentNext, isStop] using step
      simp [silentNext, Thread.above, isStop]
  | false =>
    obtain ⟨t, member, moved⟩ := (mem_silentNext isStop).1 step
    exact (mem_silentNext isStop).2 ⟨t, member, by rw [silentMove_above, moved]; rfl⟩

theorem Reach.above (reach : net.Reach θ θ') : net.Reach (θ.above base) (θ'.above base) :=
  reach.lift (Thread.above base) fun _ _ => silentNext_above

/-- A thread on a stack stays above it, until its rule ends and it goes on from the top of the stack. -/
theorem reach_split (reach : net.Reach (θ.above (ret :: stack)) θ') :
    (∃ θ₀, θ' = θ₀.above (ret :: stack) ∧ net.Reach θ θ₀) ∨
      (∃ stop, net.isStop stop = true ∧ net.Reach θ ⟨stop, []⟩) ∧ net.Reach ⟨ret, stack⟩ θ' := by
  induction reach with
  | refl => exact .inl ⟨θ, rfl, .refl⟩
  | tail _ step ih =>
    rcases ih with ⟨⟨n, top⟩, rfl, reach⟩ | ⟨ends, reach⟩
    · cases isStop : net.isStop n with
      | true =>
        cases top with
        | nil =>
          simp only [silentNext, Thread.above, isStop, if_true, List.nil_append, List.mem_singleton] at step
          exact .inr ⟨⟨n, isStop, reach⟩, step ▸ .refl⟩
        | cons back top =>
          simp only [silentNext, Thread.above, isStop, if_true, List.cons_append, List.mem_singleton] at step
          exact .inl ⟨⟨back, top⟩, step, reach.tail (by simp [silentNext, isStop])⟩
      | false =>
        obtain ⟨t, member, moved⟩ := (mem_silentNext isStop).1 step
        rw [silentMove_above] at moved
        obtain ⟨θ₀, moved', rfl⟩ := Option.map_eq_some_iff.1 moved
        exact .inl ⟨θ₀, rfl, reach.tail ((mem_silentNext isStop).2 ⟨t, member, moved'⟩)⟩
    · exact .inr ⟨ends, reach.tail step⟩

/-! ## What can come next -/

/-- What can come next at a state for a stack. -/
def InContext (net : Network) (n : Nat) (stack : List Nat) (y : Int) : Prop :=
  ∃ θ, net.Reach ⟨n, stack⟩ θ ∧ net.Shows endOfInput θ y

/-- What can come next behind the end of a rule: the end of the input where the stack ends. -/
def Behind (net : Network) : List Nat → Int → Prop
  | [], y => y = endOfInput
  | ret :: stack, y => net.InContext ret stack y

theorem consumeNext_above : (∃ next, next ∈ net.consumeNext minTokenType net.maxTokenType y (θ.above base)) ↔
    ∃ next, next ∈ net.consumeNext minTokenType net.maxTokenType y θ := by
  obtain ⟨n, stack⟩ := θ
  simp [mem_consumeNext, Thread.above]

theorem inContext_iff (canonical : net.CanonicalSets) :
    net.InContext n stack y ↔ net.Offers n y ∨ net.Ends n ∧ net.Behind stack y := by
  cases stack with
  | nil => exact exists_shows_iff canonical
  | cons ret stack =>
    constructor
    · rintro ⟨θ, reach, shown⟩
      rcases reach_split (θ := ⟨n, []⟩) reach with ⟨θ₀, rfl, within⟩ | ⟨ends, behind⟩
      · rcases (shows_iff canonical).1 shown with ⟨-, -, empty⟩ | consumes
        · exact absurd empty (by simp [Thread.above])
        · exact .inl ⟨θ₀, within, consumeNext_above.1 consumes⟩
      · exact .inr ⟨ends, θ, behind, shown⟩
    · rintro (⟨θ, reach, consumes⟩ | ⟨⟨stop, isStop, reach⟩, θ, behind, shown⟩)
      · exact ⟨θ.above (ret :: stack), reach.above, (shows_iff canonical).2 (.inr (consumeNext_above.2 consumes))⟩
      · have back : (⟨ret, stack⟩ : Thread) ∈ net.silentNext ⟨stop, ret :: stack⟩ := by simp [silentNext, isStop]
        have toEnd : net.Reach ⟨n, ret :: stack⟩ ⟨stop, ret :: stack⟩ := Reach.above reach
        exact ⟨θ, toEnd.trans (.head back behind), shown⟩

/-! ## Joining the lookahead of the states to return to -/

/-- What is joined for the callers is what was expected before, and what can come next behind the end of the rule if
that is reached. -/
theorem expectedAfter_spec (built : net.Built g) (progressive : net.Progressive) (canonical : net.CanonicalSets)
    (regular : net.Regular) {callers : List Nat} (calling : ∀ c ∈ callers, ∃ m r, net.follow? c = some m ∧
    (net.state m).rule = some r) (following : SymbolSet) {expected : SymbolSet} (isCanonical : expected.Canonical)
    (noEpsilon : expected.contains epsilonSymbol = false) :
    (net.expectedAfter callers following expected).Canonical ∧
      ∀ y, (net.expectedAfter callers following expected).contains y = true ↔ expected.contains y = true ∨
        following.contains epsilonSymbol = true ∧ net.Behind (net.follows callers) y := by
  induction callers generalizing following expected with
  | nil =>
    rw [expectedAfter]
    split
    · rename_i ends
      refine ⟨isCanonical.add _, fun y => ?_⟩
      rw [SymbolSet.contains_add, and_iff_right ends]
      rfl
    · rename_i open'
      exact ⟨isCanonical, fun y => by rw [or_iff_left fun both => open' both.1]⟩
  | cons c callers ih =>
    obtain ⟨⟨m, r, follow, owned⟩, outer⟩ := List.forall_mem_cons.1 calling
    rw [expectedAfter]
    split
    · rename_i ends
      simp only [follow]
      have behind : net.follows (c :: callers) = m :: net.follows callers := by
        rw [follows, List.filterMap_cons, follow]
        rfl
      obtain ⟨isCanonical', members⟩ := ih outer (net.nextTokens m)
        ((isCanonical.union (net.nextTokens m)).remove epsilonSymbol) (SymbolSet.not_contains_remove _ _)
      refine ⟨isCanonical', fun y => ?_⟩
      have other (among : expected.contains y = true) : y ≠ epsilonSymbol := by
        rintro rfl
        cases noEpsilon.symm.trans among
      rw [members, nextTokens_ends built progressive canonical owned regular, SymbolSet.contains_remove,
        SymbolSet.contains_union, or_and_right, nextTokens_offers built progressive canonical owned regular,
        and_iff_left_of_imp other, behind, and_iff_right ends, or_assoc, ← inContext_iff canonical]
      rfl
    · rename_i open'
      exact ⟨isCanonical, fun y => by rw [or_iff_left fun both => open' both.1]⟩

/-! ## The states to return to -/

/-- A state that has a state to return to calls a rule. -/
theorem call_of_follow (follow : net.follow? n = some m) : ∃ p start, .call p start m ∈ net.moves n := by
  unfold follow? State.follow? at follow
  split at follow
  · rename_i start p q back rest out
    cases follow
    exact ⟨p, start, List.mem_map.2 ⟨⟨start, .rule p q m⟩, by rw [Network.out, out]; exact List.mem_cons_self, rfl⟩⟩
  · cases follow

/-- In a laid out network calls are made by states of rules. -/
theorem LaidOut.caller_owned (laid : net.LaidOut g) {p start : Nat} (move : .call p start m ∈ net.moves n) :
    ∃ r, (net.state n).rule = some r := by
  obtain ⟨t, member, same⟩ := List.mem_map.1 move
  rcases laid.out_cases member with ⟨_, _, _, _, _, -, -, -, -, rfl⟩ | ⟨_, -, -, -, _, -, rfl⟩ |
    ⟨i, _, _, _, _, -, body, low, high, -⟩
  · cases same
  · cases same
  · exact ⟨i, body.owner n low high⟩

end Network

open Network

variable {net : Network} {g : Grammar} {compiled : CompiledGrammar} {verify : Bool} {n m r : Nat}
  {callStack : List Nat}

/-- The state to return to belongs to a rule, as the calling state does. -/
theorem Grammar.follow_owned (assembled : g.Assembled) (run : g.compile = .ok compiled)
    (decoded : decode compiled.words verify = .ok net) (follow : net.follow? n = some m) :
    ∃ r, (net.state m).rule = some r := by
  obtain ⟨_, base, -, -, layOut, -, encoded⟩ := Grammar.compile_steps run
  have laid := Grammar.layOut_laidOut assembled.moded layOut
  obtain ⟨reread, -⟩ := decode_encode (laid.writable encoded) encoded decoded
  obtain ⟨built, -⟩ := Grammar.compile_built assembled run decoded
  obtain ⟨p, start, move⟩ := call_of_follow follow
  have inner : net.isStop n = false := by
    refine Bool.eq_false_iff.2 fun isStop => ?_
    obtain ⟨_, free⟩ := built.returns n isStop _ move
    cases free
  obtain ⟨r, owned⟩ := laid.caller_owned (reread.moves_eq inner ▸ move)
  exact ⟨r, built.owner n r ((reread.rules.states.rule n).trans owned) inner _ move⟩

/-- **Lookahead for a call stack.** In the network of a compiled grammar in which no rule comes back to its start
without consuming and no symbol below the end of the input is consumed, the walk from a state of a rule with the
states to return to for a stack of calling states ends, and it finds just what is joined for the callers. Whether
each of them calls the rule of the next one does not matter. -/
theorem Grammar.expectedTokens_eq (assembled : g.Assembled) (run : g.compile = .ok compiled)
    (decoded : decode compiled.words verify = .ok net) (progressive : net.Progressive) (regular : net.Regular)
    (owned : (net.state n).rule = some r) (calling : ∀ c ∈ callStack, (net.follow? c).isSome = true) :
    net.Walks endOfInput n (net.follows callStack).reverse [] {}
      (net.look endOfInput (net.lookBound (net.follows callStack).reverse.length) n
        (net.follows callStack).reverse [] {}) ∧
    net.expectedTokens n callStack = net.nextTokensInContext n callStack := by
  obtain ⟨built, -⟩ := Grammar.compile_built assembled run decoded
  have canonical := decode_canonicalSets decoded
  have returning : ∀ c ∈ callStack.reverse, ∃ m r, net.follow? c = some m ∧ (net.state m).rule = some r := by
    intro c member
    obtain ⟨m, follow⟩ := Option.isSome_iff_exists.1 (calling c (List.mem_reverse.1 member))
    obtain ⟨r, owned⟩ := Grammar.follow_owned assembled run decoded follow
    exact ⟨m, r, follow, owned⟩
  have housed : net.Housed n (net.follows callStack).reverse := by
    refine List.forall_mem_cons.2 ⟨⟨r, owned⟩, fun m member => ?_⟩
    obtain ⟨c, caller, follow⟩ := List.mem_filterMap.1 (List.mem_reverse.1 member)
    exact Grammar.follow_owned assembled run decoded follow
  have walks : net.Walks endOfInput n (net.follows callStack).reverse [] {} _ := look_walks built progressive housed
  refine ⟨walks, ?_⟩
  have isCanonical : (net.nextTokens n).Canonical :=
    (look_walks built progressive (List.forall_mem_singleton.2 ⟨r, owned⟩)).canonical built progressive
  obtain ⟨joined, members⟩ := expectedAfter_spec built progressive canonical regular returning (net.nextTokens n)
    (isCanonical.remove epsilonSymbol) (SymbolSet.not_contains_remove _ _)
  refine joined.ext (walks.canonical built progressive) fun y => ?_
  have found : (net.nextTokensInContext n callStack).contains y = true ↔
      net.InContext n (net.follows callStack).reverse y := walks.found_iff built progressive
  rw [members, SymbolSet.contains_remove, nextTokens_offers built progressive canonical owned regular,
    nextTokens_ends built progressive canonical owned regular, ← inContext_iff canonical, found, follows, follows,
    List.filterMap_reverse]

/-- Behind the first call the second one is completed without consuming, and then the input can end. -/
theorem expectedTokens_eq_twice : (twiceNetwork.state 14).rule = some 1 ∧
    (∀ c ∈ [4], (twiceNetwork.follow? c).isSome = true) ∧
    twiceNetwork.expectedTokens 14 [4] = twiceNetwork.nextTokensInContext 14 [4] ∧
    (twiceNetwork.expectedTokens 14 [4]).contains endOfInput = true := by
  have owned : (twiceNetwork.state 14).rule = some 1 := by decide +kernel
  have calling : ∀ c ∈ [4], (twiceNetwork.follow? c).isSome = true := by decide +kernel
  obtain ⟨⟨compiles, decodes⟩, progressive, regular⟩ := twice_read
  obtain ⟨walks, same⟩ := Grammar.expectedTokens_eq twice_assembled compiles decodes progressive regular owned calling
  refine ⟨owned, calling, same, ?_⟩
  obtain ⟨built, -⟩ := Grammar.compile_built twice_assembled compiles decodes
  have behind : (twiceNetwork.follows [4]).reverse = [5] := by decide +kernel
  have completed : twiceNetwork.Reach ⟨14, [5]⟩ ⟨1, []⟩ := List.relationReflTransGen_of_exists_isChain_cons
    [⟨10, [5]⟩, ⟨11, [5]⟩, ⟨15, [5]⟩, ⟨3, [5]⟩, ⟨5, []⟩, ⟨6, []⟩, ⟨2, [7]⟩, ⟨14, [7]⟩, ⟨10, [7]⟩, ⟨11, [7]⟩,
      ⟨15, [7]⟩, ⟨3, [7]⟩, ⟨7, []⟩, ⟨1, []⟩] (by decide +kernel) rfl
  rw [same]
  exact (walks.found_iff built progressive).2 ⟨⟨1, []⟩, behind ▸ completed, .ends (by decide +kernel)⟩

end AdaptiveLL
