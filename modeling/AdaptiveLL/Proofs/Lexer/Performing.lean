import AdaptiveLL.Proofs.Lexer.Acting

/-!
# What the actions of a token do

`Does` says what one action does to the token that is being built and to the user code, when the input
shows a given place. `Performed` says what actions do one after the other, each with the input at its own
site: a pinned action at its offset from the start of the token, any other at the end of the token.

Running actions moves the input from site to site and takes it back only where that seems to be needed.
Nothing of this can be seen when the run is over (`runActions_performs`): the input is what it was, and the
token and the user code are what the actions have made of them, up to the first action that fails. Only a
return from a mode can fail, when no mode was entered before.
-/

set_option autoImplicit false

namespace AdaptiveLL

variable {η : Type} {hooks : LexerHooks η}

/-! ## One action -/

namespace LexerAction

/-- Where the input stands when an action of a token runs that goes from `start` to `stop`. -/
def site (start stop : Nat) : LexerAction → Nat
  | .indexed offset _ => start + offset
  | _ => stop

/-- What an action makes of the token and of the state of the user code, which sees the given input. -/
inductive Does (hooks : LexerHooks η) (input : CharStream) :
    LexerAction → LexerState → η → LexerState → η → Prop
  | channel (c : Int) (s : LexerState) (h : η) : Does hooks input (.channel c) s h { s with channel := c } h
  | custom (rule action : Nat) (s : LexerState) (h : η) : Does hooks input (.custom rule action) s h
      (hooks.action s input rule action h).1 (hooks.action s input rule action h).2
  | mode (m : Nat) (s : LexerState) (h : η) : Does hooks input (.mode m) s h { s with mode := m } h
  | more (s : LexerState) (h : η) : Does hooks input .more s h { s with type := moreType } h
  | popMode {s : LexerState} {m : Nat} {outer : List Nat} (entered : s.modeStack = m :: outer) (h : η) :
      Does hooks input .popMode s h { s with mode := m, modeStack := outer } h
  | pushMode (m : Nat) (s : LexerState) (h : η) :
      Does hooks input (.pushMode m) s h { s with mode := m, modeStack := s.mode :: s.modeStack } h
  | skip (s : LexerState) (h : η) : Does hooks input .skip s h { s with type := skipType } h
  | type (t : Int) (s : LexerState) (h : η) : Does hooks input (.type t) s h { s with type := t } h
  | indexed (offset : Nat) {a : LexerAction} {s s' : LexerState} {h h' : η}
      (inner : Does hooks input a s h s' h') : Does hooks input (.indexed offset a) s h s' h'

/-- The action cannot be done: it returns from a mode, and none was entered. -/
inductive Fails (s : LexerState) : LexerAction → Prop
  | popMode (bottom : s.modeStack = []) : Fails s .popMode
  | indexed (offset : Nat) {a : LexerAction} (inner : Fails s a) : Fails s (.indexed offset a)

/-- An action is done, or it fails and changes nothing. -/
theorem run_cases (a : LexerAction) (r : ActionRun η) :
    ((a.run hooks r).2 = .ok () ∧ a.Does hooks r.input r.state r.hooks (a.run hooks r).1.state
      (a.run hooks r).1.hooks) ∨ (a.run hooks r = (r, .error .emptyModeStack) ∧ a.Fails r.state) := by
  induction a with
  | channel c => exact .inl ⟨rfl, .channel c _ _⟩
  | custom rule action => exact .inl ⟨rfl, .custom rule action _ _⟩
  | mode m => exact .inl ⟨rfl, .mode m _ _⟩
  | more => exact .inl ⟨rfl, .more _ _⟩
  | pushMode m => exact .inl ⟨rfl, .pushMode m _ _⟩
  | skip => exact .inl ⟨rfl, .skip _ _⟩
  | type t => exact .inl ⟨rfl, .type t _ _⟩
  | popMode =>
    cases stack : r.state.modeStack with
    | nil =>
      right
      exact ⟨by simp only [run, LexerState.popMode, stack], .popMode stack⟩
    | cons m outer =>
      left
      simp only [run, LexerState.popMode, stack]
      exact ⟨trivial, .popMode stack _⟩
  | indexed offset a ih =>
    rcases ih with ⟨ok, does⟩ | ⟨same, fails⟩
    · exact .inl ⟨ok, .indexed offset does⟩
    · exact .inr ⟨same, .indexed offset fails⟩

/-- Only custom and pinned actions can tell where the input stands. -/
theorem Does.anywhere {a : LexerAction} (independent : a.isPositionDependent = false)
    {input : CharStream} {s s' : LexerState} {h h' : η} (does : a.Does hooks input s h s' h')
    (other : CharStream) : a.Does hooks other s h s' h' := by
  cases does with
  | custom rule action => cases independent
  | indexed offset inner => cases independent
  | channel c => exact .channel c _ _
  | mode m => exact .mode m _ _
  | more => exact .more _ _
  | popMode entered => exact .popMode entered _
  | pushMode m => exact .pushMode m _ _
  | skip => exact .skip _ _
  | type t => exact .type t _ _

/-- Before an action runs the input is moved to its site, or the action cannot tell. -/
theorem place_site (a : LexerAction) {input : CharStream} {start stop : Nat}
    (within : a.site start stop ≤ input.size) {r : ActionRun η} {pos : Nat}
    (shows : r.input = { input with pos }) (moved : Bool) :
    (a.place start stop r moved).1.state = r.state ∧ (a.place start stop r moved).1.hooks = r.hooks ∧
      ∃ pos', (a.place start stop r moved).1.input = { input with pos := pos' } ∧
        (a.isPositionDependent = true → pos' = a.site start stop) := by
  have moves {i : Nat} (inside : i ≤ input.size) : r.input.seek i = { input with pos := i } := by
    rw [shows, CharStream.seek]
    exact congrArg (fun pos => { input with pos }) (Nat.min_eq_left inside)
  cases a with
  | indexed offset a => exact ⟨rfl, rfl, start + offset, moves within, fun _ => rfl⟩
  | custom rule action => exact ⟨rfl, rfl, stop, moves within, fun _ => rfl⟩
  | _ => exact ⟨rfl, rfl, pos, shows, fun dependent => absurd dependent Bool.false_ne_true⟩

end LexerAction

/-! ## Several actions -/

/-- What the actions of a token that goes from `start` to `stop` do in order, each with the input at its
site. -/
inductive Performed (hooks : LexerHooks η) (input : CharStream) (start stop : Nat) :
    List LexerAction → LexerState → η → LexerState → η → Prop
  | nil (s : LexerState) (h : η) : Performed hooks input start stop [] s h s h
  | cons {a : LexerAction} {rest : List LexerAction} {s s' s'' : LexerState} {h h' h'' : η}
      (first : a.Does hooks { input with pos := a.site start stop } s h s' h')
      (later : Performed hooks input start stop rest s' h' s'' h'') :
      Performed hooks input start stop (a :: rest) s h s'' h''

/-- How the actions of a token end: all are done, or those before the first that fails. -/
def Concluded (hooks : LexerHooks η) (input : CharStream) (start stop : Nat) (actions : List LexerAction)
    (s : LexerState) (h : η) (s' : LexerState) (h' : η) (result : Except ActionError Unit) : Prop :=
  (result = .ok () ∧ Performed hooks input start stop actions s h s' h') ∨
    ∃ before a after, actions = before ++ a :: after ∧ result = .error .emptyModeStack ∧
      Performed hooks input start stop before s h s' h' ∧ a.Fails s'

theorem Concluded.cons {input : CharStream} {start stop : Nat} {a : LexerAction} {rest : List LexerAction}
    {s s' s'' : LexerState} {h h' h'' : η} {result : Except ActionError Unit}
    (first : a.Does hooks { input with pos := a.site start stop } s h s' h')
    (later : Concluded hooks input start stop rest s' h' s'' h'' result) :
    Concluded hooks input start stop (a :: rest) s h s'' h'' result := by
  rcases later with ⟨ok, done⟩ | ⟨before, b, after, rfl, failed, done, fails⟩
  · exact .inl ⟨ok, .cons first done⟩
  · exact .inr ⟨a :: before, b, after, rfl, failed, .cons first done, fails⟩

/-- By induction on the actions that are left; wherever the actions before them have taken the input, it
is the same text. -/
theorem runActionList_performs {input : CharStream} {start stop : Nat} (actions : List LexerAction)
    (within : ∀ a ∈ actions, a.site start stop ≤ input.size) {moved : Bool} {r : ActionRun η} {pos : Nat}
    (shows : r.input = { input with pos }) :
    Concluded hooks input start stop actions r.state r.hooks
      (runActionList hooks start stop actions moved r).1.state
      (runActionList hooks start stop actions moved r).1.hooks
      (runActionList hooks start stop actions moved r).2 := by
  induction actions generalizing moved r pos with
  | nil =>
    left
    cases moved <;> exact ⟨rfl, .nil _ _⟩
  | cons a rest ih =>
    obtain ⟨state, user, pos', shows', atSite⟩ :=
      a.place_site (within a List.mem_cons_self) shows moved
    rw [runActionList]
    generalize a.place start stop r moved = placed at state user shows' ⊢
    obtain ⟨s, moved'⟩ := placed
    simp only at state user shows' ⊢
    have stays : (a.run hooks s).1.input = s.input := a.input_run s
    rw [← state, ← user]
    have outcome := @LexerAction.run_cases η hooks a s
    rcases outcome with ⟨ok, does⟩ | ⟨same, fails⟩
    · have first : a.Does hooks { input with pos := a.site start stop } s.state s.hooks
          (a.run hooks s).1.state (a.run hooks s).1.hooks := by
        cases dependent : a.isPositionDependent with
        | true =>
          rw [← atSite dependent, ← shows']
          exact does
        | false => exact does.anywhere dependent _
      generalize a.run hooks s = found at ok stays first ⊢
      obtain ⟨found, result⟩ := found
      subst ok
      apply Concluded.cons first
      exact ih (fun b member => within b (List.mem_cons_of_mem a member)) (stays.trans shows')
    · rw [same]
      exact .inr ⟨[], a, rest, rfl, rfl, .nil _ _, fails⟩

/-- Running the actions of a token leaves the input as it was. The token and the user code are what the
actions make of them, each with the input at its site; if one fails, those before it are done and those
behind it are not. -/
theorem runActions_performs (hooks : LexerHooks η) (start : Nat) (actions : List LexerAction)
    (r : ActionRun η) (inside : r.input.pos ≤ r.input.size)
    (within : ∀ offset a, .indexed offset a ∈ actions → start + offset ≤ r.input.size) :
    (runActions hooks start actions r).1.input = r.input ∧
      Concluded hooks r.input start r.input.pos actions r.state r.hooks
        (runActions hooks start actions r).1.state (runActions hooks start actions r).1.hooks
        (runActions hooks start actions r).2 := by
  constructor
  · exact runActions_input inside
  · have sites : ∀ a ∈ actions, a.site start r.input.pos ≤ r.input.size := by
      intro a member
      cases a with
      | indexed offset a => exact within offset a member
      | _ => exact inside
    have shows : r.input = { r.input with pos := r.input.pos } := rfl
    exact runActionList_performs actions sites shows

/-- User code that keeps the places at which its actions were called. -/
def recordingHooks : LexerHooks (List (Nat × Nat)) where
  predicate _ _ _ calls := (true, calls)
  action s input _ action calls := (s, calls ++ [(action, input.pos)])

/-- Two custom actions around a pinned one, then a return from a mode that was not entered. -/
def tailedActions : List LexerAction :=
  [.indexed 1 (.custom 0 7), .pushMode 2, .custom 0 8, .popMode, .indexed 0 (.custom 0 9), .popMode, .skip]

theorem runActions_performs_tailed :
    let run : ActionRun (List (Nat × Nat)) :=
      { state := {}, input := { data := #['a', 'b', 'c', 'd'], pos := 3 }, hooks := [] }
    let final := runActions recordingHooks 1 tailedActions run
    final.1.input.pos = 3 ∧ final.1.hooks = [(7, 2), (8, 3), (9, 1)] ∧ final.1.state = {} ∧
      Concluded recordingHooks run.input 1 3 tailedActions {} [] final.1.state final.1.hooks final.2 := by
  intro run final
  have performs := runActions_performs recordingHooks 1 tailedActions run (by decide) (by
    intro offset a member
    simp only [tailedActions, List.mem_cons, LexerAction.indexed.injEq, List.not_mem_nil, or_false,
      reduceCtorEq, false_or] at member
    rcases member with ⟨rfl, -⟩ | ⟨rfl, -⟩ <;> decide)
  refine ⟨?_, ?_, ?_, performs.2⟩
  · rw [performs.1]
  · decide
  · decide

end AdaptiveLL
