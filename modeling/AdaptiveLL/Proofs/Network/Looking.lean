import AdaptiveLL.Network.Lookahead
import AdaptiveLL.Proofs.Grammar.Laid
import AdaptiveLL.Proofs.Symbols.Canonical
import AdaptiveLL.Proofs.Network.Threads
import Mathlib.Data.List.Basic

/-!
# Lookahead within a rule

A lookahead walk that comes to a state for the first time goes on along the transitions that consume nothing
(`look_free`), notes a token (`look_token`), and notes the end of the rule where no call is pending (`look_end`).
-/

set_option autoImplicit false

namespace AdaptiveLL

variable {net : Network} {bottom : Int} {fuel n : Nat} {acc : Look}

/-- The walk comes to a state for the first time. -/
def Look.enter (acc : Look) (n : Nat) : Look := { acc with seen := acc.seen.insert (n, []) }

theorem Look.seen_enter {m : Nat} :
    (acc.enter n).seen.contains (m, []) = true ↔ n = m ∨ acc.seen.contains (m, []) = true := by
  simp [Look.enter, Std.HashSet.contains_insert]

namespace Network

open Layout

/-- Where nothing is consumed the walk goes on along the transitions. -/
theorem look_free (fresh : acc.seen.contains (n, []) = false) (inner : net.isStop n = false)
    (free : ∀ t ∈ net.out n, (∃ o, t.label = .epsilon o) ∨ ∃ q, t.label = .precedence q) :
    net.look bottom (fuel + 1) n [] [] acc =
      (net.out n).foldl (fun acc t => net.look bottom fuel t.target [] [] acc) (acc.enter n) := by
  have inner' : (net.state n).kind.isRuleStop = false := inner
  rw [look, if_neg (by rw [fresh]; exact Bool.false_ne_true)]
  dsimp only
  rw [if_neg (by rw [inner']; exact Bool.false_ne_true)]
  refine List.foldl_ext _ _ _ fun acc t member => ?_
  rcases free t member with ⟨o, label⟩ | ⟨q, label⟩ <;> rw [label]

theorem look_one (fresh : acc.seen.contains (n, []) = false) (inner : net.isStop n = false) {target : Nat}
    {label : Label} (out : net.out n = [⟨target, label⟩])
    (free : (∃ o, label = .epsilon o) ∨ ∃ q, label = .precedence q) :
    net.look bottom (fuel + 1) n [] [] acc = net.look bottom fuel target [] [] (acc.enter n) := by
  rw [look_free fresh inner (by rw [out]; exact fun t' member => List.mem_singleton.1 member ▸ free), out]
  rfl

/-- A token is noted. -/
theorem look_token (fresh : acc.seen.contains (n, []) = false) (inner : net.isStop n = false) {target : Nat} {a : Int}
    (out : net.out n = [⟨target, atomLabel a⟩]) : net.look bottom (fuel + 1) n [] [] acc =
      { acc.enter n with found := acc.found.union (.singleton a) } := by
  have inner' : (net.state n).kind.isRuleStop = false := inner
  have label : atomLabel a = .set (.singleton a) ∨ atomLabel a = .atom a := by
    unfold atomLabel
    split
    · exact .inl rfl
    · exact .inr rfl
  rw [look, if_neg (by rw [fresh]; exact Bool.false_ne_true)]
  dsimp only
  rw [if_neg (by rw [inner']; exact Bool.false_ne_true), show (net.state n).transitions = _ from out]
  rcases label with label | label <;>
    · rw [label]
      rfl

/-- The end of the rule is noted. -/
theorem look_end (fresh : acc.seen.contains (n, []) = false) (stop : net.isStop n = true) :
    (net.look bottom (fuel + 1) n [] [] acc).found.contains bottom = true := by
  have stop' : (net.state n).kind.isRuleStop = true := stop
  rw [look, if_neg (by rw [fresh]; exact Bool.false_ne_true)]
  dsimp only
  rw [if_pos stop']
  exact (SymbolSet.contains_addRange _ _ _ _).2 (.inr ⟨Int.le_refl _, Int.le_refl _⟩)

end Network

end AdaptiveLL
