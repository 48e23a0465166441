import AdaptiveLL.LoadedGrammar
import AdaptiveLL.Proofs.Lexer.Moving

/-!
# The turns of a lexer

A lexer that is asked for a token takes turns: each begins where the input stands, makes attempts as
long as the text is to be extended and ends with a token, with a dropped text or with an error. `Turn`
and `Course` tell which turns a number of calls took, and with which end; every run of the lexer is such
a course (`nextToken_course`). A turn moves forwards and reports exactly the errors (`Turn.moves`).
-/

set_option autoImplicit false

namespace AdaptiveLL.Lexer

variable {η : Type} {text : CharStream} {l l' l'' : Lexer η} {j j' j'' : Journal} {fuel : Nat}

/-! ## One turn -/

/-- How a turn ends. -/
inductive Fate where
  /-- A token was built. -/
  | token
  /-- The text was matched and dropped. -/
  | dropped
  /-- No rule matched, and an error was reported. -/
  | refused
  deriving DecidableEq

/-- The attempts of one turn, and how it ends: an error ends it, and so does a match, unless the text is
to be extended. -/
inductive Turn (fuel : Nat) : Lexer η → Journal → Fate → Lexer η → Journal → Prop
  | refused {l l' : Lexer η} {j j' : Journal} (attempt : Attempt fuel l j false l' j') :
      Turn fuel l j .refused l' j'
  | dropped {l l' : Lexer η} {j j' : Journal} (attempt : Attempt fuel l j true l' j')
      (skipped : l'.state.type = skipType) : Turn fuel l j .dropped l' j'
  | built {l l' : Lexer η} {j j' : Journal} (attempt : Attempt fuel l j true l' j')
      (kept : l'.state.type ≠ skipType) (complete : l'.state.type ≠ moreType) :
      Turn fuel l j .token l' j'
  | extended {l l' l'' : Lexer η} {j j' j'' : Journal} {fate : Fate}
      (attempt : Attempt fuel l j true l' j') (incomplete : l'.state.type = moreType)
      (rest : Turn fuel l' j' fate l'' j'') : Turn fuel l j fate l'' j''

theorem extend_inv {rounds : Nat} {built : Bool} (ends : Ends (extend fuel rounds) l j built l' j') :
    ∃ fate, Turn fuel l j fate l' j' ∧ (built = true ↔ fate = .token) := by
  induction rounds generalizing l j with
  | zero => cases ends
  | succ rounds ih =>
    rw [extend] at ends
    obtain ⟨u, l₁, j₁, attempted, rest⟩ := Ends.bind_inv ends
    obtain ⟨matched, attempt⟩ := attempt_inv attempted
    obtain ⟨_, l₂, j₂, got, rest'⟩ := Ends.bind_inv rest
    cases got
    simp only [] at rest'
    split at rest'
    · rename_i skipped
      cases rest'
      cases matched with
      | false => exact ⟨.refused, .refused attempt, by simp⟩
      | true => exact ⟨.dropped, .dropped attempt skipped, by simp⟩
    · rename_i kept
      have isMatch : matched = true := by
        cases matched with
        | true => rfl
        | false => exact absurd attempt.refused_type kept
      subst isMatch
      split at rest'
      · rename_i incomplete
        obtain ⟨fate, turn, isToken⟩ := ih rest'
        exact ⟨fate, .extended attempt incomplete turn, isToken⟩
      · rename_i complete
        cases rest'
        exact ⟨.token, .built attempt kept complete, by simp⟩

/-- A turn moves forwards, and it reports an error if it ends with one. -/
theorem Turn.moves {start : Nat} {fate : Fate} (turn : Turn fuel l j fate l' j')
    (building : Building text start l) (endNoted : EndNoted text l) :
    Building text start l' ∧ l.input.pos ≤ l'.input.pos ∧ EndNoted text l' ∧
      Reported text start l'.input.pos (fate = .refused) j j' := by
  induction turn with
  | refused attempt =>
    obtain ⟨building', further, endNoted', reported⟩ := attempt.moves building endNoted
    exact ⟨building', further, endNoted', fun isQuiet => absurd rfl isQuiet,
      fun _ => reported.quotes rfl⟩
  | dropped attempt skipped =>
    obtain ⟨building', further, endNoted', reported⟩ := attempt.moves building endNoted
    exact ⟨building', further, endNoted', fun _ => reported.quiet (by simp), nofun⟩
  | built attempt kept complete =>
    obtain ⟨building', further, endNoted', reported⟩ := attempt.moves building endNoted
    exact ⟨building', further, endNoted', fun _ => reported.quiet (by simp), nofun⟩
  | extended attempt incomplete rest ih =>
    obtain ⟨building', further, endNoted', reported⟩ := attempt.moves building endNoted
    obtain ⟨building'', further', endNoted'', reported'⟩ := ih building' endNoted'
    have before := reported.quiet (by simp)
    refine ⟨building'', Nat.le_trans further further', endNoted'', ?_, ?_⟩
    · exact fun isQuiet => (reported'.quiet isQuiet).trans before
    · rw [← before]
      exact reported'.quotes

/-! ## Many turns -/

/-- A span of the text and what became of it. -/
structure Piece where
  fate : Fate
  start : Nat
  stop : Nat

/-- The turns that a lexer takes, with the spans that they passed and the tokens that they gave. At the
end of the input no turn is left, and there are tokens for the end. -/
inductive Course : Lexer η → Journal → List Piece → List Token → Lexer η → Journal → Prop
  | stop (l : Lexer η) (j : Journal) : Course l j [] [] l j
  | passed {l l' l'' : Lexer η} {j j' j'' : Journal} {fuel : Nat} {fate : Fate} {pieces : List Piece}
      {tokens : List Token} (opened : l.hitEof = false) (turn : Turn fuel l.beginToken j fate l' j')
      (unbuilt : fate ≠ .token) (rest : Course l' j' pieces tokens l'' j'') :
      Course l j (⟨fate, l.input.pos, l'.input.pos⟩ :: pieces) tokens l'' j''
  | built {l l₁ l' l'' : Lexer η} {j j₁ j' j'' : Journal} {fuel : Nat} {t : Token}
      {pieces : List Piece} {tokens : List Token} (opened : l.hitEof = false)
      (turn : Turn fuel l.beginToken j .token l₁ j₁) (emitted : Ends emit l₁ j₁ t l' j')
      (rest : Course l' j' pieces tokens l'' j'') :
      Course l j (⟨.token, l.input.pos, l₁.input.pos⟩ :: pieces) (t :: tokens) l'' j''
  | ended {l l' l'' : Lexer η} {j j' j'' : Journal} {t : Token} {pieces : List Piece}
      {tokens : List Token} (closed : l.hitEof = true) (emitted : Ends emitEof l j t l' j')
      (rest : Course l' j' pieces tokens l'' j'') : Course l j pieces (t :: tokens) l'' j''

/-- A call for a token is a course with one token. -/
theorem nextTokenFrom_course {rounds : Nat} {t : Token} {pieces : List Piece} {tokens : List Token}
    (ends : Ends (nextTokenFrom fuel rounds) l j t l' j') (rest : Course l' j' pieces tokens l'' j'') :
    ∃ pieces', Course l j pieces' (t :: tokens) l'' j'' := by
  induction rounds generalizing l j with
  | zero => cases ends
  | succ rounds ih =>
    rw [nextTokenFrom] at ends
    obtain ⟨_, l₁, j₁, got, ends'⟩ := Ends.bind_inv ends
    cases got
    split at ends'
    · rename_i closed
      exact ⟨_, .ended closed ends' rest⟩
    · rename_i isOpen
      have opened := Bool.eq_false_of_not_eq_true isOpen
      obtain ⟨_, l₂, j₂, begun, ends''⟩ := Ends.bind_inv ends'
      cases begun
      obtain ⟨built, l₃, j₃, extended, ends'''⟩ := Ends.bind_inv ends''
      obtain ⟨fate, turn, isToken⟩ := extend_inv extended
      cases built with
      | true =>
        obtain rfl := isToken.1 rfl
        exact ⟨_, .built opened turn ends''' rest⟩
      | false =>
        have unbuilt : fate ≠ .token := fun same => nomatch isToken.2 same
        obtain ⟨pieces', course⟩ := ih ends'''
        exact ⟨_, .passed opened turn unbuilt course⟩

/-- Calls for tokens, one after the other. -/
inductive Calls : Lexer η → Journal → List Token → Lexer η → Journal → Prop
  | stop (l : Lexer η) (j : Journal) : Calls l j [] l j
  | next {l l' l'' : Lexer η} {j j' j'' : Journal} {fuel : Nat} {t : Token} {tokens : List Token}
      (called : Ends (nextToken fuel) l j t l' j') (rest : Calls l' j' tokens l'' j'') :
      Calls l j (t :: tokens) l'' j''

/-- What the lexer does while it is called for tokens is a course. -/
theorem Calls.course {tokens : List Token} (calls : Calls l j tokens l' j') :
    ∃ pieces, Course l j pieces tokens l' j' := by
  induction calls with
  | stop l j => exact ⟨[], .stop l j⟩
  | next called rest ih =>
    obtain ⟨pieces, course⟩ := ih
    exact nextTokenFrom_course called course

/-- Calls for a number of tokens. -/
def callTimes (fuel : Nat) : Nat → LexM η (List Token)
  | 0 => pure []
  | n + 1 => do
    let t ← nextToken fuel
    let tokens ← callTimes fuel n
    return t :: tokens

theorem callTimes_calls {n : Nat} {tokens : List Token}
    (ends : Ends (callTimes fuel n) l j tokens l' j') : Calls l j tokens l' j' := by
  induction n generalizing l j tokens with
  | zero =>
    cases ends
    exact .stop _ _
  | succ n ih =>
    rw [callTimes] at ends
    obtain ⟨t, l₁, j₁, called, ends'⟩ := Ends.bind_inv ends
    obtain ⟨rest, l₂, j₂, further, ends''⟩ := Ends.bind_inv ends'
    cases ends''
    exact .next called (ih further)

/-! ## Where turns begin -/

/-- A lexer between two turns: it has polite user code, knows its place, and is at the end of the input
if it has noted it. -/
structure Between (text : CharStream) (l : Lexer η) : Prop where
  polite : l.hooks.Polite
  tracks : Tracks text l.matcher
  endNoted : EndNoted text l

theorem Between.building (between : Between text l) :
    Building text l.input.pos l.beginToken ∧ EndNoted text l.beginToken :=
  ⟨⟨between.polite, between.tracks, Nat.le_refl _, ⟨rfl, between.tracks.line, between.tracks.column⟩⟩,
    between.endNoted⟩

theorem Between.turn {fate : Fate} (between : Between text l)
    (turn : Turn fuel l.beginToken j fate l' j') :
    Between text l' ∧ l.input.pos ≤ l'.input.pos ∧ BeganAt text l.input.pos l'.state ∧
      Reported text l.input.pos l'.input.pos (fate = .refused) j j' := by
  obtain ⟨building, endNoted⟩ := between.building
  obtain ⟨building', further, endNoted', reported⟩ := turn.moves building endNoted
  exact ⟨⟨building'.polite, building'.tracks, endNoted'⟩, further, building'.began, reported⟩

theorem emit_inv {t : Token} (emitted : Ends emit l j t l' j') :
    j' = j ∧ l' = { l with state := { l.state with text := none } } ∧ t.start = l.state.startIndex ∧
      t.stop = l.input.pos ∧ t.line = l.state.startLine ∧ t.column = l.state.startColumn := by
  cases emitted
  exact ⟨rfl, rfl, rfl, rfl, rfl, rfl⟩

theorem emitEof_inv {t : Token} (emitted : Ends emitEof l j t l' j') :
    j' = j ∧ l' = l ∧ t.isEof = true ∧ t.start = l.input.pos ∧ t.stop = l.input.pos ∧
      t.line = l.matcher.line ∧ t.column = l.matcher.column := by
  cases emitted
  exact ⟨rfl, rfl, rfl, rfl, rfl, rfl, rfl⟩

/-- The lexer has not consumed anything, or it was reset. -/
structure AtStart (l : Lexer η) : Prop where
  index : l.input.pos = 0
  hitEof : l.hitEof = false
  line : l.matcher.line = 1
  column : l.matcher.column = 0

theorem reset_atStart (l : Lexer η) : l.reset.AtStart := ⟨Nat.zero_min _, rfl, rfl, rfl⟩

/-- A lexer over a stream at the start of its text begins there. -/
theorem lexer_atStart {g : LoadedGrammar} {hooks : LexerHooks η} {h : η} {input : CharStream}
    (index : input.pos = 0) (made : g.lexer hooks h input = .ok l) : l.AtStart ∧ l.input = input := by
  unfold LoadedGrammar.lexer at made
  split at made
  · cases made
    exact ⟨⟨index, rfl, rfl, rfl⟩, rfl⟩
  · cases made

theorem AtStart.between (atStart : l.AtStart) (polite : l.hooks.Polite) : Between l.input l := by
  obtain ⟨index, hitEof, line, column⟩ := atStart
  have inside : l.input.pos ≤ l.input.size := by
    rw [index]
    exact Nat.zero_le _
  refine ⟨polite, ⟨CharStream.Reads.refl inside, ?_, ?_⟩, ?_⟩
  · rw [line, ← l.input.lineAt_zero, ← index]
    rfl
  · rw [column, ← l.input.columnAt_zero, ← index]
    rfl
  · intro isHit
    rw [hitEof] at isHit
    cases isHit

end AdaptiveLL.Lexer
