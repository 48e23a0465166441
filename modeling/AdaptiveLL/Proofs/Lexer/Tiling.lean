import AdaptiveLL.Proofs.Lexer.Turns

/-!
# Every piece of the input is accounted for

The turns of a lexer cut the text into pieces that lie side by side from its start to the place where
the lexer stands (`Course.tiles`). Each piece is the span of a token, or was matched and dropped, or is
quoted by the report of one error (`Course.yields`). Hence nothing is lost and nothing is seen twice: the
texts of the pieces, one behind the other, are the text that was read.
-/

set_option autoImplicit false

namespace AdaptiveLL

open Network

namespace Lexer

/-! ## Pieces side by side -/

/-- The text of a piece. -/
def Piece.text (p : Piece) (s : CharStream) : String := s.slice p.start p.stop

variable {η : Type} {text : CharStream} {l l' : Lexer η} {j j' : Journal} {pieces : List Piece}
  {tokens : List Token}

/-- The pieces lie side by side from one place to another. -/
def Tiles : Nat → List Piece → Nat → Prop
  | start, [], stop => start = stop
  | start, p :: pieces, stop => p.start = start ∧ start ≤ p.stop ∧ Tiles p.stop pieces stop

theorem Tiles.le {start stop : Nat} (tiles : Tiles start pieces stop) : start ≤ stop := by
  induction pieces generalizing start with
  | nil => exact Nat.le_of_eq tiles
  | cons p pieces ih =>
    obtain ⟨-, further, rest⟩ := tiles
    exact Nat.le_trans further (ih rest)

/-- The texts of pieces that lie side by side make the text from the first to the last. -/
theorem Tiles.join {start stop : Nat} (tiles : Tiles start pieces stop) (inside : stop ≤ text.size) :
    String.join (pieces.map (·.text text)) = text.slice start stop := by
  induction pieces generalizing start with
  | nil =>
    obtain rfl : start = stop := tiles
    rw [text.slice_self]
    rfl
  | cons p pieces ih =>
    obtain ⟨rfl, further, rest⟩ := tiles
    rw [List.map_cons, String.join_cons, ih rest, Piece.text,
      CharStream.slice_append further rest.le inside]

/-- What the pieces of a text came to: a token with the span of its piece, nothing, or the report of an
error that quotes its piece. Behind them there may be tokens for the end of the text. -/
inductive Yields (text : CharStream) : List Piece → List Token → List Event → Prop
  | stop : Yields text [] [] []
  | token {p : Piece} {t : Token} {pieces : List Piece} {tokens : List Token} {events : List Event}
      (fate : p.fate = .token) (start : t.start = p.start) (stop : t.stop = p.stop)
      (rest : Yields text pieces tokens events) : Yields text (p :: pieces) (t :: tokens) events
  | dropped {p : Piece} {pieces : List Piece} {tokens : List Token} {events : List Event}
      (fate : p.fate = .dropped) (rest : Yields text pieces tokens events) :
      Yields text (p :: pieces) tokens events
  | refused {p : Piece} {e : RecognitionError} {pieces : List Piece} {tokens : List Token}
      {events : List Event} (fate : p.fate = .refused) (rest : Yields text pieces tokens events) :
      Yields text (p :: pieces) tokens (refusal text p.start p.stop e :: events)
  | ended {t : Token} {tokens : List Token} (isEof : t.isEof = true) (start : t.start = text.size)
      (stop : t.stop = text.size) (rest : Yields text [] tokens []) : Yields text [] (t :: tokens) []

/-! ## Courses -/

theorem Between.emitted {t : Token} (between : Between text l) (emitted : Ends emit l j t l' j') :
    Between text l' := by
  obtain ⟨-, rfl, -⟩ := emit_inv emitted
  exact ⟨between.polite, between.tracks, between.endNoted⟩

/-- The turns of a course cut the text into pieces that lie side by side, and no token reaches behind the
last of them. -/
theorem Course.tiles (course : Course l j pieces tokens l' j') (between : Between text l) :
    Between text l' ∧ Tiles l.input.pos pieces l'.input.pos ∧ ∀ t ∈ tokens, t.stop ≤ l'.input.pos := by
  induction course with
  | stop l j => exact ⟨between, rfl, nofun⟩
  | passed opened turn unbuilt rest ih =>
    obtain ⟨between', further, -⟩ := between.turn turn
    obtain ⟨between'', tiles, stops⟩ := ih between'
    exact ⟨between'', ⟨rfl, further, tiles⟩, stops⟩
  | built opened turn emitted rest ih =>
    obtain ⟨between', further, -⟩ := between.turn turn
    obtain ⟨between'', tiles, stops⟩ := ih (between'.emitted emitted)
    obtain ⟨-, rfl, -, stop, -⟩ := emit_inv emitted
    refine ⟨between'', ⟨rfl, further, tiles⟩, List.forall_mem_cons.2 ⟨?_, stops⟩⟩
    rw [stop]
    exact tiles.le
  | ended closed emitted rest ih =>
    obtain ⟨-, rfl, -, -, stop, -⟩ := emitEof_inv emitted
    obtain ⟨between', tiles, stops⟩ := ih between
    refine ⟨between', tiles, List.forall_mem_cons.2 ⟨?_, stops⟩⟩
    rw [stop]
    exact tiles.le

/-- At the end of the input no turn is left. -/
theorem Course.atEnd (course : Course l j pieces tokens l' j') (closed : l.hitEof = true) :
    pieces = [] ∧ j' = j := by
  induction course with
  | stop l j => exact ⟨rfl, rfl⟩
  | passed opened | built opened =>
    rw [closed] at opened
    cases opened
  | ended closed' emitted rest ih =>
    obtain ⟨rfl, rfl, -⟩ := emitEof_inv emitted
    exact ih closed

/-- Every piece of a course comes to a token, to nothing or to the report of an error. -/
theorem Course.yields (keeps : text.keepsText = true) (course : Course l j pieces tokens l' j')
    (between : Between text l) : ∃ events, Yields text pieces tokens events ∧
      j'.reports (· == .lexer) = j.reports (· == .lexer) ++ events := by
  induction course with
  | stop l j => exact ⟨[], .stop, (List.append_nil _).symm⟩
  | @passed l l₁ l' j j₁ j' fuel fate pieces tokens opened turn unbuilt rest ih =>
    obtain ⟨between', -, -, reported⟩ := between.turn turn
    obtain ⟨events, yields, reports⟩ := ih between'
    cases fate with
    | token => exact absurd rfl unbuilt
    | dropped =>
      rw [reported.quiet nofun] at reports
      exact ⟨events, .dropped rfl yields, reports⟩
    | refused =>
      obtain ⟨e, quoted⟩ := reported.quotes rfl keeps
      rw [quoted, List.append_assoc, List.singleton_append] at reports
      exact ⟨_, .refused rfl yields, reports⟩
  | built opened turn emitted rest ih =>
    obtain ⟨between', -, began, reported⟩ := between.turn turn
    obtain ⟨events, yields, reports⟩ := ih (between'.emitted emitted)
    obtain ⟨rfl, -, start, stop, -⟩ := emit_inv emitted
    rw [reported.quiet nofun] at reports
    exact ⟨events, .token rfl (start.trans began.index) stop yields, reports⟩
  | ended closed emitted rest ih =>
    obtain ⟨rfl, rfl, isEof, start, stop, -⟩ := emitEof_inv emitted
    obtain ⟨events, yields, reports⟩ := ih between
    obtain ⟨rfl, rfl⟩ := rest.atEnd closed
    obtain rfl : events = [] := List.append_right_eq_self.1 reports.symm
    have place := between.endNoted closed
    exact ⟨[], .ended isEof (start.trans place) (stop.trans place) yields, reports⟩

/-! ## Runs -/

/-- The calls of a lexer that begins at the start of the text cut what they read into pieces that lie
side by side. Each is the span of one of the tokens, or was dropped, or is quoted by one of the reports,
and there are no other tokens (but those for the end) and no other reports. With a token for the end at
the end of the text the pieces make up the whole text. -/
theorem calls_tile_input (polite : l.hooks.Polite) (keeps : l.input.keepsText = true)
    (atStart : l.AtStart) (calls : Calls l j tokens l' j') :
    ∃ pieces events, Course l j pieces tokens l' j' ∧ Tiles 0 pieces l'.input.pos ∧
      Yields l.input pieces tokens events ∧
      j'.reports (· == .lexer) = j.reports (· == .lexer) ++ events ∧
      String.join (pieces.map (·.text l.input)) = l.input.slice 0 l'.input.pos ∧
      ∀ t ∈ tokens, t.isEof = true → t.stop = l.input.size →
        String.join (pieces.map (·.text l.input)) = String.ofList l.input.data.toList := by
  obtain ⟨pieces, course⟩ := calls.course
  have between := atStart.between polite
  obtain ⟨between', tiles, stops⟩ := course.tiles between
  obtain ⟨events, yields, reports⟩ := course.yields keeps between
  rw [atStart.index] at tiles
  have inside : l'.input.pos ≤ l.input.size := between'.tracks.reads.inside
  have joined := tiles.join inside
  refine ⟨pieces, events, course, tiles, yields, reports, joined, ?_⟩
  intro t isToken _ atEnd
  have passed : l.input.size ≤ l'.input.pos := by
    rw [← atEnd]
    exact stops t isToken
  rw [joined, Nat.le_antisymm inside passed, l.input.slice_all]

/-- A lexer of words, which dashes may begin, and of the space between them. -/
def dashedLexer : Grammar :=
  (((Grammar.lexer "Dashed").rule "WORD" (.plus (.chars 'a' 'z'))).rule "DASH"
    (.seq [.literal "-", .command .more])).rule "SPACE" (.seq [.oneOf " \n", .command .skip])

/-- The words of the lexer of dashed words. -/
def dashedCompiled : CompiledGrammar := (dashedLexer.compile.toOption).getD default

/-- The network of the lexer of dashed words. -/
def dashedNetwork : Network := ((decode dashedCompiled.words true).toOption).getD default

/-- The lexer of dashed words at the start of a text. -/
def dashedOver (cache : DfaCache) (text : String) : Lexer Unit :=
  { net := dashedNetwork, info := dashedCompiled.info, hooks := .silent,
    matcher := { cache, input := .ofString text, hooks := () } }

/-- A number of calls of the lexer of dashed words. -/
def dashedCalls (cache : DfaCache) (text : String) (n : Nat) :
    Option ((List Token × Lexer Unit) × Journal) :=
  ((callTimes 20 n).run (dashedOver cache text)).run #[]

theorem dashedOver_polite (cache : DfaCache) (text : String) : (dashedOver cache text).hooks.Polite :=
  fun s _ _ _ _ => SamePlace.refl s

theorem dashedOver_atStart (cache : DfaCache) (text : String) : (dashedOver cache text).AtStart :=
  ⟨rfl, rfl, rfl, rfl⟩

theorem calls_tile_input_dashed : ∃ pieces tokens events,
    tokens.map (fun t => (t.start, t.stop)) = [(0, 1), (2, 4), (5, 5)] ∧ events.length = 1 ∧
    Tiles 0 pieces 5 ∧ Yields (.ofString "a -b?") pieces tokens events ∧
    String.join (pieces.map (·.text (.ofString "a -b?"))) = "a -b?" := by
  have answer : (dashedCalls (.ofNetwork dashedNetwork) "a -b?" 3).map (fun r =>
      (r.1.1.map (fun t => (t.start, t.stop)), r.1.2.input.pos,
        (r.2.reports (· == .lexer)).length)) = some ([(0, 1), (2, 4), (5, 5)], 5, 1) := by decide +kernel
  have tiled (cache : DfaCache) {tokens : List Token} {l' : Lexer Unit} {j' : Journal}
      (ends : dashedCalls cache "a -b?" 3 = some ((tokens, l'), j')) :=
    calls_tile_input (dashedOver_polite cache "a -b?") rfl (dashedOver_atStart cache "a -b?")
      (callTimes_calls ends)
  obtain ⟨⟨⟨tokens, l'⟩, j'⟩, ends, facts⟩ := Option.map_eq_some_iff.1 answer
  simp only [Prod.mk.injEq] at facts
  obtain ⟨spans, place, reported⟩ := facts
  obtain ⟨pieces, events, -, tiles, yields, reports, joined, -⟩ := tiled _ ends
  rw [place] at tiles joined
  refine ⟨pieces, tokens, events, spans, ?_, tiles, yields, joined⟩
  rw [reports] at reported
  exact reported

end Lexer

end AdaptiveLL
