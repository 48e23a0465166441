import AdaptiveLL.Network.Basic
import Std.Data.HashSet

/-!
# One symbol of lookahead

`nextTokens` collects the symbols that can come next at a state without leaving its rule; when the
end of the rule can be reached, the set also holds the epsilon symbol. `nextTokensInContext` goes on
behind the end of the rule with the calls of an exact call stack, and at its bottom stands the end of
the input. `expectedTokens` answers the same question by joining the sets of the states to return to.

The walk follows calls into rules, but no rule into itself, so the stack of return states never grows
beyond the given one by more than the number of rules. A pair of a state and a stack is visited once.
The number of such pairs bounds the depth of the walk, and `lookBound` is not below it.
-/

set_option autoImplicit false

namespace AdaptiveLL

/-- What a lookahead walk has seen and found. -/
structure Look where
  seen : Std.HashSet (Nat × List Nat) := {}
  found : SymbolSet := {}

namespace Network

/-- Walks from a state over all transitions that consume nothing and collects the symbols of those
that consume one. `stack` holds the states to return to, innermost first, `called` the rules that
the walk is in, and `bottom` is the symbol found where the stack ends. -/
def look (net : Network) (bottom : Int) : Nat → Nat → List Nat → List Nat → Look → Look
  | 0, _, _, _, acc => acc
  | fuel + 1, n, stack, called, acc =>
    if acc.seen.contains (n, stack) then acc
    else
      let acc := { acc with seen := acc.seen.insert (n, stack) }
      let s := net.state n
      if s.kind.isRuleStop then
        match stack with
        | [] => { acc with found := acc.found.add bottom }
        | ret :: stack => look net bottom fuel ret stack (called.filter (· ≠ s.rule.getD 0)) acc
      else
        s.transitions.foldl (fun acc t =>
          match t.label with
          | .rule r _ follow =>
            if called.contains r then acc
            else look net bottom fuel t.target (follow :: stack) (r :: called) acc
          | .predicate _ _ _ | .precedence _ | .epsilon _ | .action _ _ _ =>
            look net bottom fuel t.target stack called acc
          | .wildcard =>
            { acc with found := acc.found.addRange minTokenType net.maxTokenType }
          | .notSet s =>
            { acc with found := acc.found.union (s.complement minTokenType net.maxTokenType) }
          | l =>
            match l.symbols? with
            | some symbols => { acc with found := acc.found.union symbols }
            | none => acc) acc

/-- A bound on the number of pairs of a state and a stack that a walk can visit when it starts with
`depth` states to return to. -/
def lookBound (net : Network) (depth : Nat) : Nat :=
  Nat.pow (net.states.size + 1) (depth + net.numRules + 2)

/-- The symbols that can come next at a state without leaving its rule, and the epsilon symbol when
the end of the rule can be reached. -/
def nextTokens (net : Network) (n : Nat) : SymbolSet :=
  (net.look epsilonSymbol (net.lookBound 0) n [] [] {}).found

/-- The symbols that can come next at a state for a call stack of calling states, outermost first;
where the stack ends stands the end of the input. -/
def nextTokensInContext (net : Network) (n : Nat) (callStack : List Nat) : SymbolSet :=
  let stack := (net.follows callStack).reverse
  (net.look endOfInput (net.lookBound stack.length) n stack [] {}).found

/-- Joins what can follow the callers, innermost first, as long as the end of the rule can be
reached. -/
def expectedAfter (net : Network) : List Nat → SymbolSet → SymbolSet → SymbolSet
  | callers, following, expected =>
    if following.contains epsilonSymbol then
      match callers with
      | [] => expected.add endOfInput
      | caller :: callers =>
        match net.follow? caller with
        | none => expected.add endOfInput
        | some n =>
          let following := net.nextTokens n
          net.expectedAfter callers following ((expected.union following).remove epsilonSymbol)
    else expected

/-- The symbols that a parser could accept at a state, with the calling states outermost first. -/
def expectedTokens (net : Network) (n : Nat) (callStack : List Nat) : SymbolSet :=
  let following := net.nextTokens n
  net.expectedAfter callStack.reverse following (following.remove epsilonSymbol)

end Network

/-! ## Remembered lookahead -/

/-- Lookahead sets that were asked for. The first answer for a state is kept, also when the network
gets further transitions afterwards. -/
structure LookaheadMemo where
  known : List (Nat × SymbolSet) := []

/-- The lookahead set of a state, as first computed. -/
def LookaheadMemo.nextTokens (memo : LookaheadMemo) (net : Network) (n : Nat) :
    SymbolSet × LookaheadMemo :=
  match memo.known.find? (·.1 == n) with
  | some (_, symbols) => (symbols, memo)
  | none =>
    let symbols := net.nextTokens n
    (symbols, ⟨(n, symbols) :: memo.known⟩)

end AdaptiveLL
