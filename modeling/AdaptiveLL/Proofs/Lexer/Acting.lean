import AdaptiveLL.Lexer.Action
import Mathlib.Data.List.Forall2

/-!
# Running the actions of a match

A match gives its actions in order, custom ones pinned to the place where they are to run. Run in this
way they do what they would do if each of them ran at the place where it was met (`runActions_met`),
and when they are done the input stands where it stood (`runActions_input`). User code that keeps to the
type, the channel, the modes and the text of a token leaves its place alone (`runActions_samePlace`).
-/

set_option autoImplicit false

namespace AdaptiveLL

variable {η : Type} {hooks : LexerHooks η}

/-! ## Moving the input -/

/-- The two have the same state and the same text, though they may stand at different places of it. -/
def Alike (r r' : ActionRun η) : Prop := ∀ i, r.seek i = r'.seek i

theorem Alike.refl (r : ActionRun η) : Alike r r := fun _ => rfl

theorem ActionRun.seek_self {r : ActionRun η} (inside : r.input.pos ≤ r.input.size) :
    r.seek r.input.pos = r := by
  have same : r.input.seek r.input.pos = r.input := by rw [CharStream.seek, Nat.min_eq_left inside]
  rw [ActionRun.seek, same]

/-! ## One action -/

/-- Actions leave the input where it is. -/
theorem LexerAction.input_run (a : LexerAction) (r : ActionRun η) : (a.run hooks r).1.input = r.input := by
  induction a with
  | popMode =>
    unfold run
    split <;> rfl
  | indexed offset a ih => exact ih
  | _ => rfl

/-- The place of the input does not matter to an action that is not custom. -/
theorem LexerAction.run_seek {a : LexerAction} (independent : a.isPositionDependent = false)
    (r : ActionRun η) (i : Nat) :
    a.run hooks (r.seek i) = ((a.run hooks r).1.seek i, (a.run hooks r).2) := by
  cases a with
  | custom rule action => cases independent
  | indexed offset a => cases independent
  | popMode =>
    simp only [run, ActionRun.seek]
    split <;> rfl
  | _ => rfl

theorem LexerAction.run_alike {a : LexerAction} (independent : a.isPositionDependent = false)
    {r r' : ActionRun η} (alike : Alike r r') :
    Alike (a.run hooks r).1 (a.run hooks r').1 ∧ (a.run hooks r).2 = (a.run hooks r').2 := by
  have same (i : Nat) : ((a.run hooks r).1.seek i, (a.run hooks r).2) =
      ((a.run hooks r').1.seek i, (a.run hooks r').2) := by
    rw [← run_seek independent, ← run_seek independent, alike i]
  exact ⟨fun i => (Prod.mk.inj (same i)).1, (Prod.mk.inj (same 0)).2⟩

/-- An action that is run behind its place has the input there, or it does not look at it. -/
theorem LexerAction.unmoved_run (a : LexerAction) {r : ActionRun η} {stop : Nat}
    (unmoved : r.seek stop = r) : (a.run hooks r).1.seek stop = (a.run hooks r).1 := by
  have there : r.input.seek stop = r.input := congrArg ActionRun.input unmoved
  rw [ActionRun.seek, input_run, there, ← input_run a r]

/-! ## Actions where they were met -/

/-- Runs actions one after the other, each with the input at its place, up to the first that fails. -/
def runMet (hooks : LexerHooks η) :
    List (Nat × LexerAction) → ActionRun η → ActionRun η × Except ActionError Unit
  | [], r => (r, .ok ())
  | (place, a) :: rest, r =>
    match a.run hooks (r.seek place) with
    | (r, .ok ()) => runMet hooks rest r
    | (r, .error e) => (r, .error e)

/-- An action met at a place, as the action of a match that began at `start` and has come to `stop`: a
custom one is pinned to the place, or it waits because the match has not gone on. -/
structure Pinned (start stop : Nat) (met : Nat × LexerAction) (a : LexerAction) : Prop where
  after : start ≤ met.1
  plain : met.2.isPositionDependent = met.2.isCustom
  pinned : a = met.2.pin (met.1 - start) ∨ a = met.2 ∧ met.1 = stop

variable (hooks) in
/-- At its own place an action does what it would do where it was met. -/
theorem Pinned.run {start stop : Nat} {met : Nat × LexerAction} {a : LexerAction}
    (pinned : Pinned start stop met a) {moved : Bool} {r r' : ActionRun η} (alike : Alike r r')
    (unmoved : moved = false → r.seek stop = r) :
    ∃ s moved', a.place start stop r moved = (s, moved') ∧ (moved' = false → s.seek stop = s) ∧
      Alike (a.run hooks s).1 (met.2.run hooks (r'.seek met.1)).1 ∧
      (a.run hooks s).2 = (met.2.run hooks (r'.seek met.1)).2 := by
  obtain ⟨place, b⟩ := met
  obtain ⟨after, plain, isPinned⟩ := pinned
  simp only at after plain isPinned ⊢
  cases custom : b.isCustom with
  | false =>
    rw [custom] at plain
    have same : a = b := by
      rcases isPinned with pinned | ⟨same, -⟩
      · rw [pinned, LexerAction.pin, custom]
        rfl
      · exact same
    subst same
    have alike' : Alike r (r'.seek place) := fun i => alike i
    refine ⟨r, moved, ?_, unmoved, LexerAction.run_alike plain alike'⟩
    cases a <;> first | rfl | cases plain
  | true =>
    obtain ⟨rule, action, rfl⟩ : ∃ rule action, b = .custom rule action := by
      cases b <;> first | exact ⟨_, _, rfl⟩ | cases custom
    rcases isPinned with rfl | ⟨rfl, rfl⟩
    · have there : start + (place - start) = place := Nat.add_sub_cancel' after
      refine ⟨r.seek place, decide (place ≠ stop), ?_, ?_, ?_, ?_⟩
      · simp only [LexerAction.pin, LexerAction.isCustom, if_true, LexerAction.place, there]
      · intro atStop
        have same : place = stop := by simpa using atStop
        subst same
        rfl
      · rw [alike place]
        exact Alike.refl _
      · rw [alike place]
        rfl
    · refine ⟨r.seek place, false, rfl, fun _ => rfl, ?_, ?_⟩
      · rw [alike place]
        exact Alike.refl _
      · rw [alike place]

/-- Actions of a match do what they would do where they were met. -/
theorem runActionList_met {start stop : Nat} {met : List (Nat × LexerAction)} {actions : List LexerAction}
    (pinned : List.Forall₂ (Pinned start stop) met actions) {moved : Bool} {r r' : ActionRun η}
    (alike : Alike r r') (unmoved : moved = false → r.seek stop = r) :
    runActionList hooks start stop actions moved r =
      ((runMet hooks met r').1.seek stop, (runMet hooks met r').2) := by
  induction pinned generalizing moved r r' with
  | nil =>
    rw [runActionList, runMet, ← alike stop]
    cases moved with
    | false => rw [unmoved rfl]; rfl
    | true => rfl
  | @cons met a rest actions here _ ih =>
    obtain ⟨place, b⟩ := met
    obtain ⟨s, moved', placed, unmoved', alike', sameResult⟩ := here.run hooks alike unmoved
    have stays (there : s.seek stop = s) : (a.run hooks s).1.seek stop = (a.run hooks s).1 :=
      LexerAction.unmoved_run a there
    rw [runActionList, placed, runMet]
    simp only []
    generalize a.run hooks s = found at alike' sameResult stays ⊢
    generalize b.run hooks (r'.seek place) = expected at alike' sameResult ⊢
    obtain ⟨found, result⟩ := found
    obtain ⟨expected, result'⟩ := expected
    simp only at alike' sameResult stays ⊢
    subst sameResult
    cases result with
    | error e =>
      show (found.seek stop, _) = (expected.seek stop, _)
      rw [alike' stop]
    | ok => exact ih alike' fun isUnmoved => stays (unmoved' isUnmoved)

/-- The actions of a match, run where the match stands, do what they would do where they were met. -/
theorem runActions_met {start : Nat} {met : List (Nat × LexerAction)} {actions : List LexerAction}
    {r : ActionRun η} (pinned : List.Forall₂ (Pinned start r.input.pos) met actions)
    (inside : r.input.pos ≤ r.input.size) :
    runActions hooks start actions r =
      ((runMet hooks met r).1.seek r.input.pos, (runMet hooks met r).2) :=
  runActionList_met pinned (Alike.refl r) fun _ => ActionRun.seek_self inside

/-! ## What running actions leaves alone -/

theorem runActionList_input {start stop : Nat} (actions : List LexerAction) {moved : Bool}
    {r : ActionRun η} (unmoved : moved = false → r.input.seek stop = r.input) :
    (runActionList hooks start stop actions moved r).1.input = r.input.seek stop := by
  induction actions generalizing moved r with
  | nil =>
    cases moved with
    | false => exact (unmoved rfl).symm
    | true => rfl
  | cons a rest ih =>
    obtain ⟨s, moved', placed, same, unmoved'⟩ : ∃ s moved', a.place start stop r moved = (s, moved') ∧
        s.input.seek stop = r.input.seek stop ∧ (moved' = false → s.input.seek stop = s.input) := by
      cases a with
      | custom rule action => exact ⟨_, _, rfl, rfl, fun _ => rfl⟩
      | indexed offset a =>
        refine ⟨_, _, rfl, rfl, fun atStop => ?_⟩
        have there : start + offset = stop := by simpa using atStop
        rw [there]
        rfl
      | _ => exact ⟨_, _, rfl, rfl, unmoved⟩
    have stays : (a.run hooks s).1.input = s.input := a.input_run s
    rw [runActionList, placed]
    simp only []
    generalize a.run hooks s = found at stays ⊢
    obtain ⟨found, result⟩ := found
    cases result with
    | error e => exact (congrArg (CharStream.seek · stop) stays).trans same
    | ok =>
      have there : moved' = false → found.input.seek stop = found.input := by
        intro isUnmoved
        rw [stays, unmoved' isUnmoved]
      rw [← same, ← stays]
      exact ih there

/-- When the actions of a match are done, the input stands where it stood. -/
theorem runActions_input {start : Nat} {actions : List LexerAction} {r : ActionRun η}
    (inside : r.input.pos ≤ r.input.size) : (runActions hooks start actions r).1.input = r.input := by
  have there : r.input.seek r.input.pos = r.input := congrArg ActionRun.input (ActionRun.seek_self inside)
  rw [runActions, runActionList_input actions fun _ => there, there]

/-- The tokens begin at the same place. -/
structure SamePlace (s s' : LexerState) : Prop where
  start : s'.startIndex = s.startIndex
  line : s'.startLine = s.startLine
  column : s'.startColumn = s.startColumn

theorem SamePlace.refl (s : LexerState) : SamePlace s s := ⟨rfl, rfl, rfl⟩

theorem SamePlace.trans {s s' s'' : LexerState} (first : SamePlace s s') (second : SamePlace s' s'') :
    SamePlace s s'' :=
  ⟨second.start.trans first.start, second.line.trans first.line, second.column.trans first.column⟩

/-- Actions of the user code change a token at most in its type, its channel, its text and the modes. -/
def LexerHooks.Polite (hooks : LexerHooks η) : Prop :=
  ∀ s input rule action h, SamePlace s (hooks.action s input rule action h).1

theorem LexerAction.samePlace_run (polite : hooks.Polite) (a : LexerAction) (r : ActionRun η) :
    SamePlace r.state (a.run hooks r).1.state := by
  induction a with
  | custom rule action => exact polite _ _ _ _ _
  | popMode =>
    unfold run
    split
    · rename_i state popped
      unfold LexerState.popMode at popped
      split at popped
      · cases popped
        exact ⟨rfl, rfl, rfl⟩
      · cases popped
    · exact SamePlace.refl _
  | indexed offset a ih => exact ih
  | _ => exact ⟨rfl, rfl, rfl⟩

theorem runActions_samePlace (polite : hooks.Polite) (start : Nat) (actions : List LexerAction)
    (r : ActionRun η) : SamePlace r.state (runActions hooks start actions r).1.state := by
  unfold runActions
  generalize r.input.pos = stop
  generalize false = moved
  induction actions generalizing moved r with
  | nil => cases moved <;> exact SamePlace.refl _
  | cons a rest ih =>
    obtain ⟨s, moved', placed, same⟩ :
        ∃ s moved', a.place start stop r moved = (s, moved') ∧ s.state = r.state := by
      cases a <;> exact ⟨_, _, rfl, rfl⟩
    have stays := a.samePlace_run polite s
    rw [runActionList, placed, ← same]
    simp only []
    generalize a.run hooks s = found at stays ⊢
    obtain ⟨found, result⟩ := found
    cases result with
    | error e => exact stays
    | ok => exact stays.trans (ih found moved')

end AdaptiveLL
