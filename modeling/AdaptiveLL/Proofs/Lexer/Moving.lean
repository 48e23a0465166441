import AdaptiveLL.Lexer.Basic
import AdaptiveLL.Proofs.Lexer.Acting
import AdaptiveLL.Proofs.Lexer.Trusting
import AdaptiveLL.Proofs.Text.Reading

/-!
# How a lexer moves

A matcher moves forwards along its text and counts lines and columns. Whatever it has learned, a match
leaves it at a place that is not before the one at which it began, with the line and the column of that
place (`matchToken_tracks`). A step of the lexer is one match with its actions or one error that is
passed over (`Attempt`); neither loses the place, and an error is reported with the text from the start
of the token to the place behind it (`Attempt.moves`).
-/

set_option autoImplicit false

namespace AdaptiveLL.Lexer

variable {η : Type} {text : CharStream}

/-! ## Matches -/

/-- The matcher stands somewhere in the text and knows the line and the column. -/
structure Tracks (text : CharStream) (m : Matcher η) : Prop where
  reads : text.Reads m.input
  line : m.line = text.lineAt m.input.pos
  column : m.column = text.columnAt m.input.pos

variable {m m' : Matcher η}

/-- What is tracked does not depend on what was learned, asked or counted. -/
theorem Tracks.of_sight {h : η} (tracks : Tracks text m) (same : m'.sight = m.sight.asked h) :
    Tracks text m' := by
  have input : m'.input = m.input := congrArg Sight.input same
  have line : m'.line = m.line := congrArg Sight.line same
  have column : m'.column = m.column := congrArg Sight.column same
  exact ⟨by rw [input]; exact tracks.reads, by rw [line, input]; exact tracks.line,
    by rw [column, input]; exact tracks.column⟩

/-- Moving past a code point counts it. -/
theorem Tracks.consume (tracks : Tracks text m) (goes : m.input.la 1 ≠ endOfInput) :
    Tracks text m.consume ∧ m.consume.input.pos = m.input.pos + 1 := by
  have inside : m.input.pos < text.data.size := by
    have below : m.input.pos < m.input.size :=
      Nat.lt_of_not_le fun atEnd => goes (CharStream.la_eq_eof_iff.2 atEnd)
    rwa [tracks.reads.size] at below
  obtain ⟨reads, pos⟩ := tracks.reads.consume inside
  have symbol : m.input.la 1 = text.data[m.input.pos].toNat := by
    rw [tracks.reads.la, CharStream.symbolAt_natCast, Array.getElem?_eq_getElem inside]
    rfl
  by_cases newline : text.data[m.input.pos] = '\n'
  · have isNewline : m.input.la 1 = '\n'.toNat := by rw [symbol, newline]
    obtain ⟨line, column⟩ := CharStream.place_newline inside newline
    rw [Matcher.consume, if_pos isNewline]
    refine ⟨⟨reads, ?_, ?_⟩, pos⟩
    · simp only [pos, line, tracks.line]
    · simp only [pos, column]
  · have other : ¬ m.input.la 1 = '\n'.toNat := by
      intro same
      rw [symbol] at same
      exact newline (Char.toNat_inj.1 (Int.ofNat.inj same))
    obtain ⟨line, column⟩ := CharStream.place_same_line inside newline
    rw [Matcher.consume, if_neg other]
    refine ⟨⟨reads, ?_, ?_⟩, pos⟩
    · simp only [pos, line, tracks.line]
    · simp only [pos, column, tracks.column]

theorem Tracks.moved (tracks : Tracks text m) :
    Tracks text m.moved ∧ m.moved.input.pos = min (m.input.pos + 1) text.size := by
  have inside := tracks.reads.inside
  unfold Matcher.moved
  split
  · rename_i goes
    obtain ⟨tracks', pos⟩ := tracks.consume goes
    have inside' := tracks'.reads.inside
    exact ⟨tracks', by omega⟩
  · rename_i atEnd
    have atEnd' := CharStream.la_eq_eof_iff.1 (not_not.1 atEnd)
    rw [tracks.reads.size] at atEnd'
    exact ⟨tracks, by omega⟩

/-- The matcher is not before `start`, and neither is the last place at which a rule was complete. -/
structure Along (text : CharStream) (start : Nat) (m : Matcher η) (last : Option Accepted) : Prop where
  tracks : Tracks text m
  after : start ≤ m.input.pos
  last : ∀ a, last = some a → start ≤ a.index ∧ a.index ≤ text.size ∧
    a.line = text.lineAt a.index ∧ a.column = text.columnAt a.index

theorem Along.note {start : Nat} {last : Option Accepted} (along : Along text start m last)
    (s : DfaState) : Along text start m (note s m last) := by
  refine ⟨along.tracks, along.after, ?_⟩
  intro a isNoted
  unfold Lexer.note at isNoted
  split at isNoted
  · cases isNoted
    exact ⟨along.after, along.tracks.reads.inside, along.tracks.line, along.tracks.column⟩
  · exact along.last a isNoted

theorem Along.moved {start : Nat} {last : Option Accepted} (along : Along text start m last) :
    Along text start m.moved last := by
  obtain ⟨tracks, pos⟩ := along.tracks.moved
  have inside := along.tracks.reads.inside
  have after := along.after
  exact ⟨tracks, by omega, along.last⟩

theorem Along.of_sight {start : Nat} {last : Option Accepted} {h : η}
    (along : Along text start m last) (same : m'.sight = m.sight.asked h) :
    Along text start m' last := by
  have input : m'.input = m.input := congrArg Sight.input same
  exact ⟨along.tracks.of_sight same, by rw [input]; exact along.after, along.last⟩

/-- The loop of a match stays along the text. -/
theorem run_along {env : MatchEnv η} {rounds n start : Nat} {last : Option Accepted}
    (along : Along text start m last) :
    Leaves (run env rounds n last) m fun r m' => Along text start m' r.2 := by
  induction rounds generalizing m n last with
  | zero => exact fun r m' run => nomatch run
  | succ rounds ih =>
    intro r m₂ ran
    cases first : (target env n (m.input.la 1)).run m with
    | none =>
      rw [run] at ran
      simp [first] at ran
    | some found =>
      obtain ⟨e, m'⟩ := found
      have sight := (target_hits first).1
      have along' := along.of_sight sight
      cases e with
      | dead =>
        rw [run_dead first] at ran
        cases ran
        exact along'
      | target next =>
        rw [run_target first (congrArg Sight.input sight)] at ran
        split at ran
        · cases ran
          exact along'.moved.note _
        · exact ih (along'.moved.note _) r m₂ ran

theorem conclude_tracks {start : Nat} {symbol : Int} {last : Option Accepted}
    (along : Along text start m last) :
    Leaves (conclude symbol last) m fun _ m' => Tracks text m' ∧ start ≤ m'.input.pos := by
  intro result m' ran
  cases last with
  | some a =>
    cases ran
    obtain ⟨after, inside, line, column⟩ := along.last a rfl
    have place := along.tracks.reads.seek inside
    refine ⟨⟨?_, ?_, ?_⟩, ?_⟩
    · simp only [place]
      exact ⟨rfl, inside⟩
    · simp only [place, line]
    · simp only [place, column]
    · simp only [place, after]
  | none =>
    have same : m' = m := by
      simp only [conclude, modifyGet, MonadStateOf.modifyGet, StateT.modifyGet, StateT.run] at ran
      split at ran <;> cases ran <;> rfl
    rw [same]
    exact ⟨along.tracks, along.after⟩

/-- A match keeps track of the place and does not go back, whatever the matcher has learned. -/
theorem matchToken_tracks {net : Network} {hooks : LexerHooks η} {fuel mode : Nat}
    (tracks : Tracks text m) :
    Leaves (matchToken net hooks fuel mode) m fun _ m' =>
      Tracks text m' ∧ m.input.pos ≤ m'.input.pos := by
  intro result m' ran
  obtain ⟨n, m₁, found, m₂, started, looped, concluded⟩ := matchToken_parts result m' ran
  have start : Along text m.input.pos m.begun none :=
    ⟨⟨tracks.reads, tracks.line, tracks.column⟩, Nat.le_refl _, fun a isNoted => nomatch isNoted⟩
  have along := (start.of_sight (startState_uncounted n m₁ started).sight).note
    ((m₁.cache.dfa mode).state n)
  exact conclude_tracks (run_along along found m₂ looped) result m' concluded

/-! ## Steps of the lexer -/

/-- The computation ends with the result, the lexer and the journal. -/
def Ends {α : Type} (x : LexM η α) (l : Lexer η) (j : Journal) (a : α) (l' : Lexer η) (j' : Journal) :
    Prop :=
  (x.run l).run j = some ((a, l'), j')

variable {l l' l'' : Lexer η} {j j' j'' : Journal}

theorem Ends.bind_inv {α β : Type} {x : LexM η α} {f : α → LexM η β} {b : β}
    (ends : Ends (x >>= f) l j b l'' j'') :
    ∃ a l' j', Ends x l j a l' j' ∧ Ends (f a) l' j' b l'' j'' := by
  unfold Ends at ends
  rw [StateT.run_bind, StateT.run_bind] at ends
  obtain ⟨⟨⟨a, l'⟩, j'⟩, ran, rest⟩ := Option.bind_eq_some_iff.1 ends
  exact ⟨a, l', j', ran, rest⟩

theorem matchOne_inv {fuel : Nat} {result : Except RecognitionError TokenMatch}
    (ends : Ends (matchOne fuel) l j result l' j') : j' = j ∧ ∃ matcher,
      (matchToken l.net l.hooks fuel l.state.mode).run l.matcher = some (result, matcher) ∧
      l' = { l with matcher } := by
  obtain ⟨_, l₁, j₁, got, rest⟩ := Ends.bind_inv ends
  cases got
  cases ran : (matchToken l.net l.hooks fuel l.state.mode).run l.matcher with
  | none =>
    rw [ran] at rest
    cases rest
  | some found =>
    rw [ran] at rest
    cases rest
    exact ⟨rfl, found.2, rfl, rfl⟩

theorem reports_echo (j : Journal) (shown : String) (select : Origin → Bool) :
    (j.echo shown).reports select = j.reports select := by
  unfold Journal.echo
  split
  · rfl
  · simp [Journal.reports]

theorem reports_push_report (j : Journal) (event : Event) :
    (Journal.reports (j.push (.report .lexer event)) (· == .lexer)) = j.reports (· == .lexer) ++ [event] := by
  simp [Journal.reports]

/-- Actions change the state of the token and the user code; they may say something in the log. -/
theorem runMatchActions_inv {actions : List LexerAction} {u : Unit}
    (ends : Ends (runMatchActions actions) l j u l' j') :
    (∀ select, j'.reports select = j.reports select) ∧ ∃ r logger,
      r = (runActions l.hooks l.matcher.startIndex actions
        { state := l.state, input := l.input, hooks := l.matcher.hooks }).1 ∧
      l' = { l with state := r.state, matcher := { l.matcher with input := r.input, hooks := r.hooks },
                    logger } := by
  obtain ⟨_, l₁, j₁, got, rest⟩ := Ends.bind_inv ends
  cases got
  generalize runActions l.hooks l.matcher.startIndex actions
    { state := l.state, input := l.input, hooks := l.matcher.hooks } = found at rest ⊢
  obtain ⟨r, result⟩ := found
  cases result with
  | ok =>
    cases rest
    exact ⟨fun select => rfl, r, l.logger, rfl, rfl⟩
  | error e =>
    obtain ⟨_, l₂, j₂, echoed, rest'⟩ := Ends.bind_inv rest
    cases echoed
    cases rest'
    exact ⟨fun select => reports_echo _ _ select, r, _, rfl, rfl⟩

/-- An error is reported, and one code point is passed over if there is one. -/
theorem recover_inv {e : RecognitionError} {u : Unit} (ends : Ends (recover e) l j u l' j') :
    j' = j.push (.report .lexer (l.errorEvent e)) ∧
      l' = { l with matcher := l.matcher.moved } := by
  obtain ⟨_, l₁, j₁, got, rest⟩ := Ends.bind_inv ends
  cases got
  obtain ⟨_, l₂, j₂, reported, rest'⟩ := Ends.bind_inv rest
  cases reported
  split at rest'
  · rename_i goes
    have moved : l.matcher.moved = l.matcher.consume := if_pos goes
    cases rest'
    rw [moved]
    exact ⟨rfl, rfl⟩
  · rename_i atEnd
    have stays : l.matcher.moved = l.matcher := if_neg atEnd
    cases rest'
    rw [stays]
    exact ⟨rfl, rfl⟩

/-- The lexer behind a match: the end of the input is noted, and a token without a type gets one. -/
def typed (l : Lexer η) (type : Int) : Lexer η :=
  { l with
    hitEof := l.hitEof || l.input.la 1 == endOfInput
    state := if l.state.type = invalidType then { l.state with type } else l.state }

/-- What one attempt does: a match with its actions, or an error that is passed over. -/
inductive Attempt (fuel : Nat) (l : Lexer η) (j : Journal) : Bool → Lexer η → Journal → Prop
  | matched {token : TokenMatch} {matcher : Matcher η} {after : Lexer η} {j' : Journal} {u : Unit}
      (found : (matchToken l.net l.hooks fuel l.state.mode).run l.matcher = some (.ok token, matcher))
      (acted : Ends (runMatchActions token.actions)
        { l with state := { l.state with type := invalidType }, matcher } j u after j') :
      Attempt fuel l j true (after.typed token.type) j'
  | refused {e : RecognitionError} {matcher : Matcher η} {after : Lexer η} {j' : Journal} {u : Unit}
      (found : (matchToken l.net l.hooks fuel l.state.mode).run l.matcher = some (.error e, matcher))
      (recovered : Ends (recover e)
        { l with state := { l.state with type := invalidType }, matcher } j u after j') :
      Attempt fuel l j false (after.typed skipType) j'

theorem attempt_inv {fuel : Nat} {u : Unit} (ends : Ends (attempt fuel) l j u l' j') :
    ∃ matched, Attempt fuel l j matched l' j' := by
  obtain ⟨_, l₁, j₁, untyped, rest⟩ := Ends.bind_inv ends
  cases untyped
  obtain ⟨result, l₂, j₂, matched, settled⟩ := Ends.bind_inv rest
  obtain ⟨rfl, matcher, found, rfl⟩ := matchOne_inv matched
  cases result with
  | ok token =>
    obtain ⟨u', after, j₃, acted, typed⟩ := Ends.bind_inv settled
    cases typed
    exact ⟨true, .matched found acted⟩
  | error e =>
    obtain ⟨u', after, j₃, recovered, typed⟩ := Ends.bind_inv settled
    cases typed
    exact ⟨false, .refused found recovered⟩

/-! ## Where steps lead -/

/-- The token that is being built began at the place. -/
structure BeganAt (text : CharStream) (start : Nat) (s : LexerState) : Prop where
  index : s.startIndex = start
  line : s.startLine = text.lineAt start
  column : s.startColumn = text.columnAt start

theorem BeganAt.samePlace {start : Nat} {s s' : LexerState} (began : BeganAt text start s)
    (same : SamePlace s s') : BeganAt text start s' :=
  ⟨same.start.trans began.index, same.line.trans began.line, same.column.trans began.column⟩

/-- A lexer with polite user code that is building a token from `start` on. -/
structure Building (text : CharStream) (start : Nat) (l : Lexer η) : Prop where
  polite : l.hooks.Polite
  tracks : Tracks text l.matcher
  after : start ≤ l.input.pos
  began : BeganAt text start l.state

/-- The report of an error quotes the text from the start of the token to the place behind the error. -/
def refusal (text : CharStream) (start stop : Nat) (e : RecognitionError) : Event :=
  .syntaxError none (text.lineAt start) (text.columnAt start)
    s!"token recognition error at: '{Text.escapeWhitespace (text.slice start stop)}'" (some e)

theorem Building.typed {start : Nat} (building : Building text start l) (type : Int) :
    Building text start (l.typed type) := by
  refine ⟨building.polite, building.tracks, building.after, building.began.samePlace ?_⟩
  unfold Lexer.typed
  split <;> exact ⟨rfl, rfl, rfl⟩

theorem Building.matched {start : Nat} (building : Building text start l) {fuel : Nat}
    {result : Except RecognitionError TokenMatch} {matcher : Matcher η}
    (found : (matchToken l.net l.hooks fuel l.state.mode).run l.matcher = some (result, matcher)) :
    Building text start { l with state := { l.state with type := invalidType }, matcher } ∧
      l.input.pos ≤ matcher.input.pos := by
  obtain ⟨tracks, further⟩ := matchToken_tracks building.tracks _ matcher found
  have same : SamePlace l.state { l.state with type := invalidType } := ⟨rfl, rfl, rfl⟩
  exact ⟨⟨building.polite, tracks, Nat.le_trans building.after further, building.began.samePlace same⟩,
    further⟩

theorem Building.acted {start : Nat} (building : Building text start l) {actions : List LexerAction}
    {u : Unit} (acted : Ends (runMatchActions actions) l j u l' j') :
    Building text start l' ∧ l'.input.pos = l.input.pos ∧ l'.hitEof = l.hitEof ∧
      ∀ select, j'.reports select = j.reports select := by
  obtain ⟨reports, r, logger, isRun, rfl⟩ := runMatchActions_inv acted
  have inside : l.input.pos ≤ l.input.size := by
    rw [show l.input.size = text.size from building.tracks.reads.size]
    exact building.tracks.reads.inside
  have input : r.input = l.input := by
    rw [isRun]
    exact runActions_input inside
  have same : SamePlace l.state r.state := by
    rw [isRun]
    exact runActions_samePlace building.polite _ actions
      ({ state := l.state, input := l.input, hooks := l.matcher.hooks } : ActionRun η)
  refine ⟨⟨building.polite, ⟨?_, ?_, ?_⟩, ?_, building.began.samePlace same⟩, ?_, rfl, reports⟩
  · show text.Reads r.input
    rw [input]
    exact building.tracks.reads
  · show l.matcher.line = text.lineAt r.input.pos
    rw [input]
    exact building.tracks.line
  · show l.matcher.column = text.columnAt r.input.pos
    rw [input]
    exact building.tracks.column
  · show start ≤ r.input.pos
    rw [input]
    exact building.after
  · exact congrArg CharStream.pos input

/-- An error is reported with everything from the start of the token to the place behind it. -/
theorem Building.recovered {start : Nat} (building : Building text start l) {e : RecognitionError}
    {u : Unit} (recovered : Ends (recover e) l j u l' j') :
    Building text start l' ∧ l.input.pos ≤ l'.input.pos ∧ l'.hitEof = l.hitEof ∧
      (text.keepsText = true → j'.reports (· == .lexer) =
        j.reports (· == .lexer) ++ [refusal text start l'.input.pos e]) := by
  obtain ⟨rfl, rfl⟩ := recover_inv recovered
  obtain ⟨tracks, pos⟩ := building.tracks.moved
  have inside := building.tracks.reads.inside
  have further : l.input.pos ≤ l.matcher.moved.input.pos := by
    rw [pos]
    exact Nat.le_min.2 ⟨Nat.le_succ _, inside⟩
  refine ⟨⟨building.polite, tracks, Nat.le_trans building.after further, building.began⟩, further, rfl, ?_⟩
  intro keeps
  have quoted : l.errorEvent e = refusal text start l.matcher.moved.input.pos e := by
    have size : l.input.size = text.size := building.tracks.reads.size
    have read : l.input.text? start (min (l.input.pos + 1) text.size) = _ :=
      building.tracks.reads.text? keeps start (min (l.input.pos + 1) text.size)
    obtain ⟨index, line, column⟩ := building.began
    rw [errorEvent, index, line, column, size, read, pos]
    rfl
  rw [reports_push_report, quoted]
  rfl

/-- The reports of a lexer that has come to a place. -/
structure Reported (text : CharStream) (start stop : Nat) (refused : Prop) (j j' : Journal) : Prop where
  quiet : ¬ refused → j'.reports (· == .lexer) = j.reports (· == .lexer)
  quotes : refused → text.keepsText = true → ∃ e,
    j'.reports (· == .lexer) = j.reports (· == .lexer) ++ [refusal text start stop e]

/-- A lexer that has noted the end of the input is there. -/
def EndNoted (text : CharStream) (l : Lexer η) : Prop := l.hitEof = true → l.input.pos = text.size

/-- What one attempt does to a token that is being built. -/
theorem Attempt.moves {start fuel : Nat} {matched : Bool} (building : Building text start l)
    (endNoted : EndNoted text l) (attempt : Attempt fuel l j matched l' j') :
    Building text start l' ∧ l.input.pos ≤ l'.input.pos ∧ EndNoted text l' ∧
      Reported text start l'.input.pos (matched = false) j j' := by
  have noted {after : Lexer η} {type : Int} (building : Building text start after)
      (further : l.input.pos ≤ after.input.pos) (hitEof : after.hitEof = l.hitEof) :
      EndNoted text (after.typed type) := by
    intro hit
    have inside : after.input.pos ≤ text.size := building.tracks.reads.inside
    show after.input.pos = text.size
    rcases Bool.or_eq_true_iff.1 hit with before | atEof
    · rw [hitEof] at before
      have atEnd := endNoted before
      omega
    · have atEnd := CharStream.la_eq_eof_iff.1 (beq_iff_eq.1 atEof)
      rw [show after.input.size = text.size from building.tracks.reads.size] at atEnd
      omega
  cases attempt with
  | matched found acted =>
    obtain ⟨building', further⟩ := building.matched found
    obtain ⟨building'', pos, hitEof, reports⟩ := building'.acted acted
    have further' : l.input.pos ≤ _ := Nat.le_trans further (Nat.le_of_eq pos.symm)
    exact ⟨building''.typed _, further', noted building'' further' hitEof, fun _ => reports _,
      fun isRefused => nomatch isRefused⟩
  | refused found recovered =>
    obtain ⟨building', further⟩ := building.matched found
    obtain ⟨building'', further', hitEof, reports⟩ := building'.recovered recovered
    have further'' : l.input.pos ≤ _ := Nat.le_trans further further'
    exact ⟨building''.typed _, further'', noted building'' further'' hitEof,
      fun isMatched => absurd rfl isMatched, fun _ keeps => ⟨_, reports keeps⟩⟩

/-- An attempt that ends in an error drops the token. -/
theorem Attempt.refused_type {fuel : Nat} (attempt : Attempt fuel l j false l' j') :
    l'.state.type = skipType := by
  cases attempt with
  | refused found recovered =>
    obtain ⟨-, rfl⟩ := recover_inv recovered
    rfl

end AdaptiveLL.Lexer
