import AdaptiveLL.TokenStream
import AdaptiveLL.Proofs.Session

/-!
# Reading tokens reports nothing for a parser

While a stream reads on, a lexer may report errors and show messages of its log. All of that is the lexer's:
no step on a token stream writes a report of a parser (`Quiet`). So whatever a parser reports between two
steps on its stream was reported by the parser itself.
-/

set_option autoImplicit false

namespace AdaptiveLL

namespace Session

/-- The step never adds a report of a parser to the journal. -/
def Quiet {σ α : Type} (x : StateT σ Session α) : Prop := ∀ s, Mute x s fun _ _ => True

namespace Quiet

variable {σ α β : Type}

theorem bind {x : StateT σ Session α} {f : α → StateT σ Session β} (first : Quiet x)
    (second : ∀ a, Quiet (f a)) : Quiet (x >>= f) := fun s => (first s).bind fun a s' _ => second a s'

theorem pure (a : α) : Quiet (Pure.pure a : StateT σ Session α) := fun _ => .pure trivial

theorem get_bind {f : σ → StateT σ Session α} (rest : ∀ s, Quiet (f s)) : Quiet (get >>= f) :=
  fun s => rest s s

theorem failure : Quiet (failure : StateT σ Session α) := fun _ => .of_failure

theorem modify (next : σ → σ) : Quiet (modify next : StateT σ Session PUnit) := fun _ => .of_modify trivial

theorem set (next : σ) : Quiet (set next : StateT σ Session PUnit) := fun _ => .of_set trivial

theorem modifyGet (f : σ → α × σ) : Quiet (modifyGet f : StateT σ Session α) := fun _ => .of_modifyGet trivial

theorem journal {f : Journal → Journal}
    (adds : ∀ j, ∃ new : Journal, f j = j ++ new ∧ new.reports (· == .parser) = []) :
    Quiet (modifyThe Journal f : StateT σ Session PUnit) := fun _ => .of_journal adds trivial

end Quiet

end Session

open Session

variable {η : Type} {fuel : Nat}

/-! ## Lexers -/

namespace Lexer

theorem matchOne_quiet : Quiet (matchOne fuel : LexM η (Except RecognitionError TokenMatch)) := by
  refine .get_bind fun l => ?_
  split
  · exact (Quiet.set _).bind fun _ => .pure _
  · exact .failure

theorem echo_adds (shown : String) (j : Journal) :
    ∃ new : Journal, j.echo shown = j ++ new ∧ new.reports (· == .parser) = [] := by
  unfold Journal.echo
  split
  · exact ⟨#[], Array.append_empty.symm, rfl⟩
  · exact ⟨#[.echo shown], Array.push_eq_append, rfl⟩

theorem runMatchActions_quiet (actions : List LexerAction) : Quiet (runMatchActions actions : LexM η Unit) := by
  refine .get_bind fun l => ?_
  dsimp only
  split
  · exact .set _
  · exact (Quiet.journal (echo_adds _)).bind fun _ => .set _

theorem recover_quiet (e : RecognitionError) : Quiet (recover e : LexM η Unit) := by
  refine .get_bind fun l => (Quiet.journal fun j => ?_).bind fun _ => ?_
  · exact ⟨#[.report .lexer (l.errorEvent e)], Array.push_eq_append, rfl⟩
  · split
    · exact .modify _
    · exact .pure _

theorem attempt_quiet : Quiet (attempt fuel : LexM η Unit) := by
  refine (Quiet.modify _).bind fun _ => matchOne_quiet.bind fun result => ?_
  cases result with
  | ok m => exact (runMatchActions_quiet m.actions).bind fun _ => (Quiet.pure _).bind fun _ => .modify _
  | error e => exact (recover_quiet e).bind fun _ => (Quiet.pure _).bind fun _ => .modify _

theorem extend_quiet (rounds : Nat) : Quiet (extend fuel rounds : LexM η Bool) := by
  induction rounds with
  | zero => exact .failure
  | succ rounds ih =>
    refine attempt_quiet.bind fun _ => Quiet.get_bind fun l => ?_
    dsimp only
    split
    · exact .pure _
    · split
      · exact ih
      · exact .pure _

theorem nextTokenFrom_quiet (rounds : Nat) : Quiet (nextTokenFrom fuel rounds : LexM η Token) := by
  induction rounds with
  | zero => exact .failure
  | succ rounds ih =>
    refine .get_bind fun l => ?_
    split
    · exact .get_bind fun l => .pure _
    · refine (Quiet.modify _).bind fun _ => (extend_quiet fuel).bind fun built => ?_
      split
      · exact .modifyGet _
      · exact ih

end Lexer

theorem TokenSource.nextToken_quiet : Quiet (TokenSource.nextToken (η := η) fuel) := by
  intro s
  cases s with
  | list tokens hooks =>
    intro j t s' j' given
    cases given
    exact ⟨#[], Array.append_empty.symm, rfl, trivial⟩
  | lexer l =>
    intro j t s' j' given
    obtain ⟨⟨⟨t, l'⟩, j₁⟩, ran, same⟩ := Option.bind_eq_some_iff.1 given
    cases same
    obtain ⟨new, rfl, none, -⟩ := Lexer.nextTokenFrom_quiet fuel l j t l' _ ran
    exact ⟨new, rfl, none, trivial⟩

/-! ## Streams -/

namespace TokenStream

theorem fetchOne_quiet : Quiet (fetchOne (η := η) fuel) := fun s =>
  .get_bind ((TokenSource.nextToken_quiet s.source).part_bind fun _ _ _ => .set_bind (.pure trivial))

theorem fetch_quiet (n : Nat) : Quiet (fetch (η := η) fuel n) := by
  induction n with
  | zero => exact .pure _
  | succ n ih =>
    refine .get_bind fun s => ?_
    split
    · exact .pure _
    · exact fetchOne_quiet.bind fun _ => ih.bind fun _ => .pure _

theorem nextShown_quiet (rounds i : Nat) : Quiet (nextShown (η := η) fuel rounds i) := by
  induction rounds generalizing i with
  | zero => exact .failure
  | succ rounds ih =>
    refine (Quiet.get_bind fun s => (fetch_quiet _).bind fun _ => .pure _).bind fun _ => .get_bind fun s => ?_
    split
    · exact .pure _
    · split
      · exact .pure _
      · exact ih (i + 1)

theorem current_quiet : Quiet (current (η := η) fuel) := by
  refine .get_bind fun s => ?_
  split
  · exact .pure _
  · exact (nextShown_quiet fuel 0).bind fun p => (Quiet.modify _).bind fun _ => .pure _

theorem ahead_quiet (n i : Nat) : Quiet (ahead (η := η) fuel n i) := by
  induction n generalizing i with
  | zero => exact .pure _
  | succ n ih =>
    refine .get_bind fun s => ?_
    split
    · exact .pure _
    · split
      · exact .pure _
      · exact (nextShown_quiet fuel (i + 1)).bind fun next => ih next

theorem lt_quiet (k : Int) : Quiet (lt (η := η) fuel k) := by
  refine current_quiet.bind fun p => ?_
  split
  · exact .pure _
  · split
    · exact .get_bind fun s => .pure _
    · exact (ahead_quiet _ p).bind fun i => .get_bind fun s => .pure _

theorem la_quiet (k : Int) : Quiet (la (η := η) fuel k) := (lt_quiet k).bind fun _ => .pure _

theorem returnTo_quiet (i : Nat) : Quiet (returnTo (η := η) fuel i) :=
  current_quiet.bind fun _ => (nextShown_quiet fuel i).bind fun _ => .modify _

theorem consume_quiet : Quiet (consume (η := η) fuel) := by
  refine current_quiet.bind fun p => .get_bind fun s => ?_
  split
  · exact .pure _
  · split
    · exact (nextShown_quiet fuel (p + 1)).bind fun next => .modify _
    · exact .pure _

end TokenStream

end AdaptiveLL
