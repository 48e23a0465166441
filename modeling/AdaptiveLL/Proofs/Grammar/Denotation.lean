import Mathlib.Computability.Language
import Mathlib.Order.CompletePartialOrder
import AdaptiveLL.Proofs.Grammar.Laid

/-!
# What an element denotes

An element stands for a set of words, without any network: a leaf for the symbols it names, a sequence for
the words put together from those of its parts, and a reference to a rule for whatever the body of the rule
stands for. `Denotes` is the least relation that says so, which gives recursive rules their meaning.
Predicates and actions stand for the empty word. The languages of composite elements are those that the
operations on languages give (`language_seq_cons`, `language_star`, ...), and later arguments calculate
with them.
-/

set_option autoImplicit false

namespace AdaptiveLL

open scoped Computability

namespace Grammar

/-! ## Words -/

/-- The element denotes the word. Complements and the wildcard range over the symbols from `lo` to
`hi`. -/
inductive Denotes (g : Grammar) (lo hi : Int) : Element → List Int → Prop
  | symbol (v : Int) : Denotes g lo hi (.symbol v) [v]
  | token {name : String} {type : Nat} (known : g.vocabulary.tokenType name = some type) :
      Denotes g lo hi (.token name) [(type : Int)]
  | chars {text : String} (lexer : g.isLexer = true) :
      Denotes g lo hi (.literal text) (text.toList.map fun c => (c.toNat : Int))
  | literal {text : String} {type : Nat} (parser : g.isLexer = false)
      (known : g.vocabulary.tokenType ("'" ++ text ++ "'") = some type) :
      Denotes g lo hi (.literal text) [(type : Int)]
  | range {first last v : Int} (above : first ≤ v) (below : v ≤ last) :
      Denotes g lo hi (.range first last) [v]
  | set {s : SymbolSet} {v : Int} (member : s.contains v = true) : Denotes g lo hi (.set s) [v]
  | notSet {s : SymbolSet} {v : Int} (above : lo ≤ v) (below : v ≤ hi) (apart : s.contains v = false) :
      Denotes g lo hi (.notSet s) [v]
  | wildcard {v : Int} (above : lo ≤ v) (below : v ≤ hi) : Denotes g lo hi .wildcard [v]
  | eof : Denotes g lo hi .eof [endOfInput]
  | rule {name : String} {precedence : Int} {i : Nat} {r : RuleDef} {w : List Int}
      (known : g.ruleIndex name = .ok i) (found : g.rules[i]? = some r)
      (body : Denotes g lo hi r.body w) : Denotes g lo hi (.rule name precedence) w
  | predicate (pred : Nat) (ctx : Bool) : Denotes g lo hi (.predicate pred ctx) []
  | precedence (p : Int) : Denotes g lo hi (.precedence p) []
  | action (i : Nat) : Denotes g lo hi (.action i) []
  | command (a : LexerAction) : Denotes g lo hi (.command a) []
  | done : Denotes g lo hi (.seq []) []
  | seq {e : Element} {es : List Element} {u v : List Int} (first : Denotes g lo hi e u)
      (rest : Denotes g lo hi (.seq es) v) : Denotes g lo hi (.seq (e :: es)) (u ++ v)
  | alt {e : Element} {es : List Element} {w : List Int} (member : e ∈ es)
      (chosen : Denotes g lo hi e w) : Denotes g lo hi (.alt es) w
  | skip {greedy : Bool} {body : Element} : Denotes g lo hi (.repeated .optional greedy body) []
  | take {greedy : Bool} {body : Element} {w : List Int} (taken : Denotes g lo hi body w) :
      Denotes g lo hi (.repeated .optional greedy body) w
  | finish {greedy : Bool} {body : Element} : Denotes g lo hi (.repeated .star greedy body) []
  | again {greedy : Bool} {body : Element} {u v : List Int} (round : Denotes g lo hi body u)
      (rest : Denotes g lo hi (.repeated .star greedy body) v) :
      Denotes g lo hi (.repeated .star greedy body) (u ++ v)
  | once {greedy : Bool} {body : Element} {w : List Int} (round : Denotes g lo hi body w) :
      Denotes g lo hi (.repeated .plus greedy body) w
  | more {greedy : Bool} {body : Element} {u v : List Int} (round : Denotes g lo hi body u)
      (rest : Denotes g lo hi (.repeated .plus greedy body) v) :
      Denotes g lo hi (.repeated .plus greedy body) (u ++ v)

/-- The words that an element denotes. -/
def language (g : Grammar) (lo hi : Int) (e : Element) : Language Int := {w | g.Denotes lo hi e w}

/-! ## The languages of composite elements -/

section Languages

variable {g : Grammar} {lo hi : Int}

theorem within_iff {L M : Language Int} : L ≤ M ↔ ∀ w ∈ L, w ∈ M := Iff.rfl

theorem mem_language {e : Element} {w : List Int} : w ∈ g.language lo hi e ↔ g.Denotes lo hi e w := Iff.rfl

theorem language_rule {name : String} {i : Nat} {r : RuleDef} (known : g.ruleIndex name = .ok i)
    (found : g.rules[i]? = some r) (precedence : Int) :
    g.language lo hi (.rule name precedence) = g.language lo hi r.body := by
  ext w
  constructor
  · intro denotes
    cases denotes with
    | rule known' found' body =>
      rw [known] at known'
      cases known'
      rw [found] at found'
      cases found'
      exact body
  · exact fun body => .rule known found body

theorem language_nothing : g.language lo hi (.seq []) = 1 := by
  ext w
  constructor
  · intro denotes
    cases denotes
    exact Language.nil_mem_one
  · intro empty
    rw [Language.mem_one] at empty
    subst empty
    exact Denotes.done

theorem language_seq_cons (e : Element) (es : List Element) :
    g.language lo hi (.seq (e :: es)) = g.language lo hi e * g.language lo hi (.seq es) := by
  ext w
  constructor
  · intro denotes
    cases denotes with
    | seq first rest => exact Language.append_mem_mul first rest
  · intro parts
    obtain ⟨u, first, v, rest, rfl⟩ := Language.mem_mul.1 parts
    exact Denotes.seq first rest

theorem mem_language_alt {es : List Element} {w : List Int} :
    w ∈ g.language lo hi (.alt es) ↔ ∃ e ∈ es, w ∈ g.language lo hi e := by
  constructor
  · intro denotes
    cases denotes with
    | alt member chosen => exact ⟨_, member, chosen⟩
  · rintro ⟨e, member, chosen⟩
    exact Denotes.alt member chosen

theorem language_le_alt {e : Element} {es : List Element} (member : e ∈ es) :
    g.language lo hi e ≤ g.language lo hi (.alt es) :=
  within_iff.2 fun _ chosen => mem_language_alt.2 ⟨e, member, chosen⟩

theorem language_only (e : Element) : g.language lo hi (.alt [e]) = g.language lo hi e := by
  ext w
  simp [mem_language_alt]

/-- The body of a repetition denotes what its alternatives do. -/
theorem language_branches (body : Element) :
    g.language lo hi (.alt body.branches) = g.language lo hi body := by
  cases body with
  | alt es => rfl
  | _ => exact language_only _

theorem language_optional (greedy : Bool) (body : Element) :
    g.language lo hi (.repeated .optional greedy body) = 1 + g.language lo hi body := by
  ext w
  rw [Language.mem_add, Language.mem_one]
  constructor
  · intro denotes
    cases denotes with
    | skip => exact .inl rfl
    | take taken => exact .inr taken
  · rintro (rfl | taken)
    · exact Denotes.skip
    · exact Denotes.take taken

theorem language_star (greedy : Bool) (body : Element) :
    g.language lo hi (.repeated .star greedy body) = (g.language lo hi body)∗ := by
  refine le_antisymm (within_iff.2 fun w denotes => ?_) (kstar_le_of_mul_le_right ?_ ?_)
  · rw [mem_language] at denotes
    generalize whole : Element.repeated .star greedy body = e at denotes
    induction denotes with
    | finish => exact Language.nil_mem_kstar _
    | again round rest _ ih =>
      cases whole
      exact within_iff.1 mul_kstar_le_kstar _ (Language.append_mem_mul round (ih rfl))
    | _ => cases whole
  · refine within_iff.2 fun w empty => ?_
    rw [(Language.mem_one w).1 empty]
    exact Denotes.finish
  · refine within_iff.2 fun w parts => ?_
    obtain ⟨u, round, v, rest, rfl⟩ := Language.mem_mul.1 parts
    exact Denotes.again round rest

theorem language_plus (greedy : Bool) (body : Element) :
    g.language lo hi (.repeated .plus greedy body) =
      g.language lo hi body * (g.language lo hi body)∗ := by
  refine le_antisymm (within_iff.2 fun w denotes => ?_) ?_
  · rw [mem_language] at denotes
    generalize whole : Element.repeated .plus greedy body = e at denotes
    induction denotes with
    | once round _ =>
      cases whole
      exact Language.mem_mul.2 ⟨_, round, [], Language.nil_mem_kstar _, List.append_nil _⟩
    | more round rest _ ih =>
      cases whole
      exact Language.append_mem_mul round (within_iff.1 mul_kstar_le_kstar _ (ih rfl))
    | _ => cases whole
  · rw [← Language.mul_self_kstar_comm]
    refine kstar_mul_le (within_iff.2 fun w round => Denotes.once round) (within_iff.2 fun w parts => ?_)
    obtain ⟨u, round, v, rest, rfl⟩ := Language.mem_mul.1 parts
    exact Denotes.more round rest

end Languages

end Grammar

end AdaptiveLL
