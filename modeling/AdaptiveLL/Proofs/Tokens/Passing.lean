import AdaptiveLL.Proofs.Tokens.Viewing
import AdaptiveLL.Proofs.Tokens.Streams

/-!
# Passing along a tape

The shown tokens from a place on are what a reader that passes one token after the other gets to see
(`TokenTape.Ahead`), and the end of the input is behind them.
-/

set_option autoImplicit false

namespace AdaptiveLL

namespace TokenTape

variable {tape : TokenTape} {i : Nat} {t : Token} {ts : List Token}

/-- The shown tokens of a tape before the end of the input, each with its place. -/
def shown (tape : TokenTape) : List Token := (tape.tokens.take tape.body.length).filter tape.onChannel

/-- The shown tokens from a place on, before the end of the input. -/
inductive Ahead (tape : TokenTape) : Nat → List Token → Prop
  | done : Ahead tape tape.body.length []
  | next {i : Nat} {t : Token} {ts : List Token} (found : tape.body[i]? = some t) (on : tape.onChannel t = true)
    (rest : Ahead tape (tape.firstFrom (i + 1)) ts) : Ahead tape i ({ t with index := some i } :: ts)

/-- The reader is at the first token of those that are ahead, which is not the end of the input, and passes it. -/
theorem Ahead.first (ahead : tape.Ahead i (t :: ts)) : tape.lt? (some i) 1 = some t ∧ t.isEof = false ∧
    ∃ j, (tape.call (some i) .consume).2 = some j ∧ tape.Ahead j ts := by
  cases ahead with
  | @next _ t' _ found on rest =>
    have here : tape.Shows i := .inr ⟨t', found, on⟩
    have inside := (List.getElem?_eq_some_iff.1 found).1
    refine ⟨?_, tape.inner t' (List.mem_of_getElem? found), tape.firstFrom (i + 1), ?_, rest⟩
    · have same := tokens_of_shows here
      rw [tokens_body found] at same
      exact congrArg some (Option.some.inj same).symm
    · change some (if i < tape.body.length then tape.firstFrom (i + 1) else i) = _
      rw [if_pos inside]

/-- Behind all shown tokens the reader is at the end of the input. -/
theorem Ahead.last (ahead : tape.Ahead i []) : tape.lt? (some i) 1 = some tape.last := by
  cases ahead with
  | done => exact congrArg some (nth_length tape 0)

/-- The type of the token at a place. -/
def typeAt (tape : TokenTape) (place : Nat) : Int := ((tape.lt? (some place) 1).map (·.type)).getD invalidType

theorem Ahead.typeAt_first (ahead : tape.Ahead i (t :: ts)) : tape.typeAt i = t.type := by
  rw [typeAt, ahead.first.1]
  rfl

theorem Ahead.typeAt_last (ahead : tape.Ahead i []) : tape.typeAt i = endOfInput := by
  rw [typeAt, ahead.last]
  exact beq_iff_eq.1 tape.ends

theorem ahead_firstFrom {i k : Nat} (whole : i + k = tape.body.length) :
    tape.Ahead (tape.firstFrom i) (((tape.tokens.take tape.body.length).drop i).filter tape.onChannel) := by
  induction k generalizing i with
  | zero =>
    obtain rfl : i = tape.body.length := whole
    rw [firstFrom_of_le (Nat.le_refl _), List.drop_of_length_le (by simp)]
    exact .done
  | succ k ih =>
    have inside : i < tape.body.length := by omega
    have found : tape.body[i]? = some tape.body[i] := List.getElem?_eq_getElem inside
    have behind := ih (i := i + 1) (by omega)
    have here : (tape.tokens.take tape.body.length).drop i =
        { tape.body[i] with index := some i } :: (tape.tokens.take tape.body.length).drop (i + 1) := by
      rw [List.drop_take, List.drop_take, drop_tokens found,
        show tape.body.length - i = (tape.body.length - (i + 1)) + 1 by omega,
        List.take_succ_cons]
    rw [here, List.filter_cons]
    cases on : tape.onChannel tape.body[i] with
    | true =>
      rw [firstFrom_of_shows (.inr ⟨_, found, on⟩),
        if_pos (show tape.onChannel { tape.body[i] with index := some i } = true from on)]
      exact .next found on behind
    | false =>
      rw [firstFrom_of_hidden found on, if_neg (show ¬ tape.onChannel { tape.body[i] with index := some i } = true by
        rw [show tape.onChannel { tape.body[i] with index := some i } = tape.onChannel tape.body[i] from rfl, on]
        exact Bool.false_ne_true)]
      exact behind

theorem ahead_shown (tape : TokenTape) : tape.Ahead (tape.firstFrom 0) tape.shown :=
  ahead_firstFrom (Nat.zero_add _)

/-- From the place of a shown token some tokens are ahead. -/
theorem Shows.ahead (here : tape.Shows i) : ∃ ts, tape.Ahead i ts :=
  ⟨_, firstFrom_of_shows here ▸ ahead_firstFrom (k := tape.body.length - i) (by have := here.le; omega)⟩

end TokenTape

/-- A stream that shows a tape is sound. -/
theorem TokenStream.Views.sound {η : Type} {s : TokenStream η} {fuel : Nat} {tape : TokenTape} {pos : Option Nat}
    (views : s.Views fuel tape pos) : s.Sound fun _ => True := by
  have onTape {i : Nat} {t : Token} (found : s.tokens[i]? = some t) : tape.tokens[i]? = some t := by
    rw [← views.tokens_eq (Array.getElem?_eq_some_iff.1 found).1]
    exact found
  have size := views.size_le
  refine ⟨TokenSource.supplies_any _, fun i t found => ⟨TokenTape.index_of_tokens (onTape found), trivial⟩,
    fun i t found isEof => ?_, fun fetched => ?_, fun p place => ?_⟩
  · have inside := (Array.getElem?_eq_some_iff.1 found).1
    have whole := onTape found
    have before : i < (tape.body ++ [tape.eof]).length := by
      rw [List.length_append, List.length_singleton]
      omega
    rw [TokenTape.tokens, List.getElem?_mapIdx, List.getElem?_eq_getElem before] at whole
    obtain rfl := Option.some.inj whole
    have atEnd : tape.body.length ≤ i := (TokenTape.isEof_iff before).1 isEof
    exact ⟨by omega, views.fetched.2 (by omega)⟩
  · have read := views.fetched.1 fetched
    have isSize : s.tokens.size - 1 = tape.body.length := by omega
    refine ⟨tape.last, ?_, tape.ends⟩
    rw [isSize, views.tokens_eq read, tape.tokens_last]
  · rw [views.position] at place
    have inside := views.inside p place
    rw [views.tokens_eq inside]
    rcases views.placed p place with rfl | ⟨t, found, on⟩
    · refine ⟨_, tape.tokens_last, ?_⟩
      rw [TokenStream.shows, show tape.last.isEof = true from tape.ends, Bool.or_true]
    · exact ⟨_, TokenTape.tokens_body found, (views.shows_eq found).trans on⟩

end AdaptiveLL
