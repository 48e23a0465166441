import AdaptiveLL.Proofs.Lexer.Tiling

/-!
# Lines and columns

A lexer counts lines and columns code point by code point, and it goes back at the end of a match, shows
its user code places that it has not come to, and passes over errors. The count stays that of the text
through all of it, also when the lexer is reset (`uses_place`): the line is one more than the line breaks
before the place, the column is the number of code points behind the last of them. A token carries the
line and the column of its start.
-/

set_option autoImplicit false

namespace AdaptiveLL

namespace Lexer

variable {η : Type} {text : CharStream} {l l' : Lexer η} {j j' : Journal} {tokens : List Token}

/-- The token carries the line and the column of its start. -/
def Placed (text : CharStream) (t : Token) : Prop :=
  t.line = text.lineAt t.start ∧ t.column = text.columnAt t.start

/-- A token that was built is placed where the lexer began it. -/
theorem BeganAt.placed {start : Nat} {t : Token} (began : BeganAt text start l.state)
    (emitted : Ends emit l j t l' j') : Placed text t := by
  obtain ⟨-, -, index, -, line, column⟩ := emit_inv emitted
  rw [Placed, line, column, index, began.index]
  exact ⟨began.line, began.column⟩

/-- A token for the end is placed where the lexer stands. -/
theorem Tracks.placed {t : Token} (tracks : Tracks text l.matcher) (emitted : Ends emitEof l j t l' j') :
    Placed text t := by
  obtain ⟨-, -, -, index, -, line, column⟩ := emitEof_inv emitted
  rw [Placed, line, column, index]
  exact ⟨tracks.line, tracks.column⟩

/-- The tokens of a course are placed. -/
theorem Course.placed {pieces : List Piece} (course : Course l j pieces tokens l' j')
    (between : Between text l) : ∀ t ∈ tokens, Placed text t := by
  induction course with
  | stop l j => exact nofun
  | passed opened turn unbuilt rest ih =>
    obtain ⟨between', -⟩ := between.turn turn
    exact ih between'
  | built opened turn emitted rest ih =>
    obtain ⟨between', -, began, -⟩ := between.turn turn
    exact List.forall_mem_cons.2 ⟨began.placed emitted, ih (between'.emitted emitted)⟩
  | ended closed emitted rest ih =>
    have placed := between.tracks.placed emitted
    obtain ⟨-, rfl, -⟩ := emitEof_inv emitted
    exact List.forall_mem_cons.2 ⟨placed, ih between⟩

theorem Calls.keep_place (calls : Calls l j tokens l' j') (between : Between text l) :
    Between text l' ∧ ∀ t ∈ tokens, Placed text t := by
  obtain ⟨pieces, course⟩ := calls.course
  exact ⟨(course.tiles between).1, course.placed between⟩

/-- A reset lexer is at the start of the text. -/
theorem Between.reset (between : Between text l) : Between text l.reset := by
  have place : l.input.seek 0 = { text with pos := 0 } := between.tracks.reads.seek (Nat.zero_le _)
  refine ⟨between.polite, ⟨?_, ?_, ?_⟩, nofun⟩
  · show text.Reads (l.input.seek 0)
    rw [place]
    exact ⟨rfl, Nat.zero_le _⟩
  · show 1 = text.lineAt (l.input.seek 0).pos
    rw [place, text.lineAt_zero]
  · show 0 = text.columnAt (l.input.seek 0).pos
    rw [place, text.columnAt_zero]

/-- What a lexer is used for: calls for tokens, in rounds, with a reset between two rounds. -/
inductive Uses : Lexer η → Journal → List Token → Lexer η → Journal → Prop
  | round {l l' : Lexer η} {j j' : Journal} {tokens : List Token} (calls : Calls l j tokens l' j') :
      Uses l j tokens l' j'
  | reset {l l' l'' : Lexer η} {j j' j'' : Journal} {tokens tokens' : List Token}
      (before : Uses l j tokens l' j') (calls : Calls l'.reset j' tokens' l'' j'') :
      Uses l j (tokens ++ tokens') l'' j''

theorem Uses.keep_place (between : Between text l) (uses : Uses l j tokens l' j') :
    Between text l' ∧ ∀ t ∈ tokens, Placed text t := by
  induction uses with
  | round calls => exact calls.keep_place between
  | reset before calls ih =>
    obtain ⟨between', placed⟩ := ih
    obtain ⟨between'', placed'⟩ := calls.keep_place between'.reset
    exact ⟨between'', List.forall_mem_append.2 ⟨placed, placed'⟩⟩

/-- However a lexer is used that began at the start of the text, it knows the line and the column of the
place where it stands, and each of its tokens carries those of its start. -/
theorem uses_place (polite : l.hooks.Polite) (atStart : l.AtStart) (uses : Uses l j tokens l' j') :
    l.input.Reads l'.input ∧ l'.matcher.line = l.input.lineAt l'.input.pos ∧
      l'.matcher.column = l.input.columnAt l'.input.pos ∧
      ∀ t ∈ tokens, t.line = l.input.lineAt t.start ∧ t.column = l.input.columnAt t.start := by
  obtain ⟨between, placed⟩ := uses.keep_place (atStart.between polite)
  exact ⟨between.tracks.reads, between.tracks.line, between.tracks.column, placed⟩

/-- Two rounds of calls with a reset between them. -/
def twoRounds (fuel n n' : Nat) : LexM η (List Token) := do
  let first ← callTimes fuel n
  modify Lexer.reset
  let second ← callTimes fuel n'
  return first ++ second

theorem twoRounds_uses {fuel n n' : Nat} (ends : Ends (twoRounds fuel n n') l j tokens l' j') :
    Uses l j tokens l' j' := by
  obtain ⟨first, l₁, j₁, called, ends'⟩ := Ends.bind_inv ends
  obtain ⟨_, l₂, j₂, wasReset, ends''⟩ := Ends.bind_inv ends'
  obtain ⟨second, l₃, j₃, calledAgain, ends'''⟩ := Ends.bind_inv ends''
  cases wasReset
  cases ends'''
  exact .reset (.round (callTimes_calls called)) (callTimes_calls calledAgain)

/-- The lexer of dashed words reads a text up to its end, is reset and reads the first words again. -/
def dashedRounds (cache : DfaCache) (text : String) : Option ((List Token × Lexer Unit) × Journal) :=
  ((twoRounds 20 3 2).run (dashedOver cache text)).run #[]

theorem uses_place_dashed : ∃ tokens l' j',
    dashedRounds (.ofNetwork dashedNetwork) "a\n-b?" = some ((tokens, l'), j') ∧
    tokens.map (fun t => (t.start, t.line, t.column)) =
      [(0, 1, 0), (2, 2, 0), (5, 2, 3), (0, 1, 0), (2, 2, 0)] ∧
    l'.input.pos = 4 ∧ l'.matcher.line = 2 ∧ l'.matcher.column = 2 := by
  have answer : (dashedRounds (.ofNetwork dashedNetwork) "a\n-b?").map (fun r =>
      (r.1.1.map (·.start), r.1.2.input.pos)) = some ([0, 2, 5, 0, 2], 4) := by decide +kernel
  have placed (cache : DfaCache) {tokens : List Token} {l' : Lexer Unit} {j' : Journal}
      (ends : dashedRounds cache "a\n-b?" = some ((tokens, l'), j')) :=
    uses_place (dashedOver_polite cache "a\n-b?") (dashedOver_atStart cache "a\n-b?")
      (twoRounds_uses ends)
  obtain ⟨⟨⟨tokens, l'⟩, j'⟩, ends, facts⟩ := Option.map_eq_some_iff.1 answer
  simp only [Prod.mk.injEq] at facts
  obtain ⟨starts, place⟩ := facts
  obtain ⟨-, line, column, places⟩ := placed _ ends
  rw [place] at line column
  refine ⟨tokens, l', j', ends, ?_, place, line, column⟩
  let read : CharStream := .ofString "a\n-b?"
  calc tokens.map (fun t => (t.start, t.line, t.column))
      = tokens.map (fun t => (t.start, read.lineAt t.start, read.columnAt t.start)) := by
        refine List.map_congr_left fun t isToken => ?_
        obtain ⟨inLine, inColumn⟩ := places t isToken
        exact congrArg₂ (fun line column => (t.start, line, column)) inLine inColumn
    _ = (tokens.map (·.start)).map fun i => (i, read.lineAt i, read.columnAt i) := by
        rw [List.map_map]
        rfl
    _ = [(0, 1, 0), (2, 2, 0), (5, 2, 3), (0, 1, 0), (2, 2, 0)] := by
        rw [starts]
        rfl

end Lexer

end AdaptiveLL
