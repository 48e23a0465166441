import AdaptiveLL.Proofs.Lexer.LongestMatch
import AdaptiveLL.Proofs.Lexer.Trusting

/-!
# A cache shows only in the time it saves

In a lexer without custom actions it cannot be told from a match which matches came before it. Whatever
earlier matches have left in the cache, on whatever inputs and with whatever user code, a match that
ends on a fresh cache ends on this one in the same way. The user code may keep a record of the
questions it is asked, so it is asked the same questions in the same order.

The caches that matches leave behind are kept ones, and on two kept caches a match ends as the match
without a memory does.
-/

set_option autoImplicit false

namespace AdaptiveLL

open Network

namespace Lexer

variable {η : Type} {net : Network} {mode : Nat}

/-- Matches, with any user code, leave kept caches behind. -/
theorem Reachable.kept (lexer : net.isLexer = true) {cache : DfaCache} (reachable : Reachable net cache) :
    CacheKept net cache := by
  induction reachable with
  | fresh => exact cacheKept_fresh lexer
  | @matched η hooks fuel mode m m' result before known run ih =>
    exact (matchToken_leaves known ih result m' run).1

/-- A match that ends on a fresh cache ends on every cache that earlier matches can have left, with the
same token and the same actions, at the same place, with the same user code state. -/
theorem matchToken_cache_transparent (lexer : net.isLexer = true)
    (noCustom : ∀ a ∈ net.actions, a.isCustom = false) (known : mode < net.modeStarts.size)
    (hooks : LexerHooks η) {cache : DfaCache} (reachable : Reachable net cache) {fuel : Nat}
    (m : Matcher η) {result : Except RecognitionError TokenMatch} {fresh : Matcher η}
    (ends : (matchToken net hooks fuel mode).run { m with cache := .ofNetwork net } =
      some (result, fresh)) :
    ∃ enough recalled, (∀ fuel', enough ≤ fuel' →
        (matchToken net hooks fuel' mode).run { m with cache } = some (result, recalled)) ∧
      recalled.input = fresh.input ∧ recalled.line = fresh.line ∧ recalled.column = fresh.column ∧
      recalled.startIndex = fresh.startIndex ∧ recalled.hooks = fresh.hooks := by
  let env : MatchEnv η := { net, hooks, mode, fuel }
  let start : Matcher η := { m with cache := .ofNetwork net }
  have kept : CacheKept net start.cache := cacheKept_fresh lexer
  have steady : Steady env _ := steady_of_customLast (customLast_of_noCustom noCustom)
  have guided : GuidedMatch env start := guidedMatch_of_steady steady known kept
  -- What the fresh match did is what the match without a memory does, and that does not see the cache.
  have unremembered : Matches env m.sight result fresh.sight :=
    (matchToken_leaves known kept result fresh ends).2 guided
  let later : Matcher η := { m with cache }
  have kept' : CacheKept net later.cache := reachable.kept lexer
  have same : later.sight = m.sight := rfl
  rw [← same] at unremembered
  obtain ⟨enough, recalled, again, sight⟩ := unremembered.matchToken steady known kept'
  exact ⟨enough, recalled, again, congrArg Sight.input sight, congrArg Sight.line sight,
    congrArg Sight.column sight, congrArg Sight.startIndex sight, congrArg Sight.hooks sight⟩

/-- A lexer of words, each of which a predicate has to allow, and of numbers. -/
def guardedLexer : Grammar :=
  ((Grammar.lexer "Guarded").rule "WORD" (.seq [.pred 0, .plus (.chars 'a' 'z')])).rule "NUMBER"
    (.plus (.chars '0' '9'))

/-- The words of the guarded lexer. -/
def guardedCompiled : CompiledGrammar := (guardedLexer.compile.toOption).getD default

/-- The network of the guarded lexer. -/
def guardedNetwork : Network := ((decode guardedCompiled.words true).toOption).getD default

/-- User code that allows every other word and keeps a record of the places at which it was asked. -/
def alternatingHooks : LexerHooks (List Nat) where
  predicate input _ _ asked := (asked.length % 2 == 0, asked ++ [input.pos])
  action s _ _ _ asked := (s, asked)

/-- A match of the guarded lexer on a text, as the first one that its user code sees. -/
def guardedMatch (cache : DfaCache) (text : String) :
    Option (Except RecognitionError TokenMatch × Matcher (List Nat)) :=
  (matchToken guardedNetwork alternatingHooks 20 0).run { cache, input := .ofString text, hooks := [] }

/-- The cache of the guarded lexer after a number and a word. -/
def guardedCache : DfaCache :=
  let first := (guardedMatch (.ofNetwork guardedNetwork) "12").elim (.ofNetwork guardedNetwork) (·.2.cache)
  (guardedMatch first "ab").elim first (·.2.cache)

theorem guardedCache_reachable : Reachable guardedNetwork guardedCache := by
  have next {cache : DfaCache} (before : Reachable guardedNetwork cache) (text : String) :
      Reachable guardedNetwork ((guardedMatch cache text).elim cache (·.2.cache)) := by
    cases ran : guardedMatch cache text with
    | none => exact before
    | some found =>
      have known : 0 < guardedNetwork.modeStarts.size := by decide +kernel
      exact .matched before known ran
  exact next (next .fresh "12") "ab"

theorem matchToken_cache_transparent_guarded : ∃ enough recalled, (∀ fuel, enough ≤ fuel →
      (matchToken guardedNetwork alternatingHooks fuel 0).run
        { cache := guardedCache, input := .ofString "abc1", hooks := [] } =
          some (.ok ⟨1, []⟩, recalled)) ∧
    recalled.input.pos = 3 ∧ recalled.column = 3 ∧ recalled.hooks = [0] := by
  have known : 0 < guardedNetwork.modeStarts.size := by decide +kernel
  have answer : (guardedMatch (.ofNetwork guardedNetwork) "abc1").map
      (fun found => (found.1.toOption, found.2.input.pos, found.2.column, found.2.hooks)) =
        some (some ⟨1, []⟩, 3, 3, [0]) := by decide +kernel
  obtain ⟨⟨result, fresh⟩, ends, facts⟩ := Option.map_eq_some_iff.1 answer
  obtain ⟨enough, recalled, again, input, -, column, -, asked⟩ :=
    matchToken_cache_transparent (by decide +kernel) (by decide +kernel) known alternatingHooks
      guardedCache_reachable { cache := {}, input := .ofString "abc1", hooks := [] } ends
  simp only [Prod.mk.injEq] at facts
  obtain ⟨isToken, place, inLine, questions⟩ := facts
  have isToken' : result = .ok ⟨1, []⟩ := by
    cases result with
    | error e => cases isToken
    | ok token =>
      cases isToken
      rfl
  subst isToken'
  exact ⟨enough, recalled, again, by rw [input, place], by rw [column, inLine], by rw [asked, questions]⟩

end Lexer

end AdaptiveLL
