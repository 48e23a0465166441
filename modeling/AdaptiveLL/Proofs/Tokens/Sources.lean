import AdaptiveLL.TokenSource
import AdaptiveLL.Proofs.Session

/-!
# What sources supply

The tokens of a source follow each other, and between two of them user code may change the state that it
shares with the source. `Supplies` says of a property of token types that every token has it, whatever
happens in between. A list of tokens supplies the types that are in it and the end of the input
(`supplies_list`). `Delivers` says which tokens come next when nothing happens in between.
-/

set_option autoImplicit false

namespace AdaptiveLL.TokenSource

open Session

variable {η : Type} {P : Int → Prop} {s s' s'' : TokenSource η}

/-- What a source becomes while tokens are read from it and user code runs. -/
inductive Later (s : TokenSource η) : TokenSource η → Prop
  | refl : Later s s
  | next {s' s'' : TokenSource η} {fuel : Nat} {j j' : Journal} {t : Token} (earlier : Later s s')
      (given : ((nextToken fuel).run s').run j = some ((t, s''), j')) : Later s s''
  | hooked {s' : TokenSource η} (earlier : Later s s') (h : η) : Later s (s'.setHooks h)

/-- Every token that the source gives, now or later, has a type with the property. -/
def Supplies (P : Int → Prop) (s : TokenSource η) : Prop :=
  ∀ s', Later s s' → ∀ fuel, Leads (nextToken fuel) s' fun t _ => P t.type

theorem Later.trans (first : Later s s') (second : Later s' s'') : Later s s'' := by
  induction second with
  | refl => exact first
  | next earlier given ih => exact .next ih given
  | hooked earlier h ih => exact .hooked ih h

theorem Supplies.later (supplies : s.Supplies P) (later : Later s s') : s'.Supplies P :=
  fun _ further => supplies _ (later.trans further)

theorem Supplies.setHooks (supplies : s.Supplies P) (h : η) : (s.setHooks h).Supplies P :=
  supplies.later (.hooked .refl h)

theorem Supplies.nextToken (supplies : s.Supplies P) (fuel : Nat) :
    Leads (nextToken fuel) s fun t s' => P t.type ∧ s'.Supplies P :=
  fun j t s' j' given =>
    ⟨supplies s .refl fuel j t s' j' given, supplies.later (.next .refl given)⟩

/-- Every source supplies tokens of some type. -/
theorem supplies_any (s : TokenSource η) : s.Supplies fun _ => True :=
  fun _ _ _ _ _ _ _ _ => trivial

theorem supplies_list {tokens : TokenList} (types : ∀ t ∈ tokens.tokens, P t.type)
    (atEnd : P endOfInput) (h : η) : (list tokens h).Supplies P := by
  have keeps {s : TokenSource η} (later : Later (list tokens h) s) :
      ∃ rest h', s = list rest h' ∧ rest.tokens = tokens.tokens := by
    induction later with
    | refl => exact ⟨tokens, h, rfl, rfl⟩
    | next earlier given ih =>
      obtain ⟨rest, h', rfl, same⟩ := ih
      cases given
      refine ⟨_, h', rfl, ?_⟩
      split
      · split <;> exact same
      · exact same
    | hooked earlier h'' ih =>
      obtain ⟨rest, h', rfl, same⟩ := ih
      exact ⟨rest, h'', rfl, same⟩
  intro s later fuel j t s' j' given
  obtain ⟨rest, h', rfl, same⟩ := keeps later
  cases given
  split
  · rename_i t found
    exact types t (same ▸ Array.mem_of_getElem? found)
  · exact atEnd

/-- The next tokens of the source are those of the list, one behind the other. -/
def Delivers (fuel : Nat) : List Token → TokenSource η → Prop
  | [], _ => True
  | t :: rest, s => Reaches (nextToken fuel) s fun t' s' => t' = t ∧ Delivers fuel rest s'

/-- A list delivers its tokens and then the end of the input. -/
theorem delivers_list (tokens : TokenList) (inner : ∀ t ∈ tokens.tokens, t.isEof = false) (h : η)
    (fuel : Nat) : (list tokens h).Delivers fuel (tokens.tokens.toList.drop tokens.pos ++ [tokens.eof]) := by
  induction left : tokens.tokens.size - tokens.pos generalizing tokens with
  | zero =>
    have behind : tokens.tokens.size ≤ tokens.pos := by omega
    rw [List.drop_of_length_le (by simpa using behind)]
    have next : tokens.next = (tokens.eof, tokens) := by
      rw [TokenList.next, Array.getElem?_eq_none behind]
    refine fun j => ⟨tokens.eof, list tokens h, j, ?_, rfl, trivial⟩
    show some ((tokens.next.1, list tokens.next.2 h), j) = _
    rw [next]
  | succ n ih =>
    have inside : tokens.pos < tokens.tokens.size := by omega
    rw [List.drop_eq_getElem_cons (by simpa using inside), Array.getElem_toList]
    let rest : TokenList := { tokens with pos := tokens.pos + 1 }
    have next : tokens.next = (tokens.tokens[tokens.pos], rest) := by
      rw [TokenList.next, Array.getElem?_eq_getElem inside]
      simp [inner _ (Array.getElem_mem inside), rest]
    refine fun j => ⟨tokens.tokens[tokens.pos], list rest h, j, ?_, rfl, ih rest inner (by simp [rest]; omega)⟩
    show some ((tokens.next.1, list tokens.next.2 h), j) = _
    rw [next]

end AdaptiveLL.TokenSource
