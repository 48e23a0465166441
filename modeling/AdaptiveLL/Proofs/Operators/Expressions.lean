import AdaptiveLL.Grammar.Element
import AdaptiveLL.Token
import Mathlib.Data.List.Basic

/-!
# Expressions with binary operators

A table of binary operators, from the tightest to the loosest, says how an operand followed by operators with
their operands is grouped. `climb` is precedence climbing: it reads operators as long as they bind tightly
enough, and the right operand of each of them holds what binds tighter still, or as tightly if the operator
groups to the right.

What it builds is grouped as the table says (`climb_grouped`), and no other expression with the same tokens is
(`Expr.Grouped.unique`).
-/

set_option autoImplicit false

namespace AdaptiveLL.Operators

/-- A binary operator: its token type and the side to which equal operators group. -/
structure Infix where
  type : Int
  assoc : Assoc
  deriving DecidableEq, Inhabited

/-- An expression over tokens. -/
inductive Expr where
  | primary (t : Token)
  | binary (left : Expr) (op : Token) (right : Expr)

/-- An operator with the operand behind it. -/
abbrev Step := Token × Token

namespace Expr

/-- The first operand. -/
def first : Expr → Token
  | primary t => t
  | binary left _ _ => left.first

/-- The operators with the operands behind them, from left to right. -/
def rest : Expr → List Step
  | primary _ => []
  | binary left op right => left.rest ++ (op, right.first) :: right.rest

/-- The operator at the top. -/
def top? : Expr → Option Token
  | primary _ => none
  | binary _ op _ => some op

end Expr

/-! ## Levels -/

/-- How tightly an operator binds: the tightest of `n` operators has level `n`, the loosest has level 1. -/
def level (ops : List Infix) (op : Token) : Int := (ops.length : Int) - ops.findIdx (·.type == op.type)

/-- The side to which the operator groups. -/
def assocOf (ops : List Infix) (op : Token) : Assoc :=
  (ops[ops.findIdx (·.type == op.type)]?.map (·.assoc)).getD .left

/-- How tightly the operators in its right operand have to bind. -/
def next (ops : List Infix) (op : Token) : Int :=
  match assocOf ops op with
  | .left => level ops op + 1
  | .right => level ops op

variable {ops : List Infix} {o o' : Token} {l r e e' : Expr} {p : Int}

/-- Operators of one level group to the same side. -/
theorem assocOf_congr (same : level ops o = level ops o') : assocOf ops o = assocOf ops o' := by
  have places : ops.findIdx (·.type == o.type) = ops.findIdx (·.type == o'.type) := by
    unfold level at same
    omega
  rw [assocOf, assocOf, places]

/-- The operator may stand at the top of the left operand of another one. -/
def FitsLeft (ops : List Infix) (inner outer : Token) : Prop :=
  level ops outer < level ops inner ∨ (level ops outer = level ops inner ∧ assocOf ops outer = .left)

/-- The operator may stand at the top of the right operand of another one. -/
def FitsRight (ops : List Infix) (inner outer : Token) : Prop :=
  level ops outer < level ops inner ∨ (level ops outer = level ops inner ∧ assocOf ops outer = .right)

theorem fitsRight_of_next_le (above : next ops o ≤ level ops o') : FitsRight ops o' o := by
  unfold next at above
  cases side : assocOf ops o with
  | left =>
    rw [side] at above
    exact .inl (Int.lt_of_add_one_le above)
  | right =>
    rw [side] at above
    exact (Int.lt_or_eq_of_le above).imp id fun same => ⟨same, side⟩

theorem fitsLeft_of_lt_next (below : level ops o' < next ops o) : FitsLeft ops o o' := by
  unfold next at below
  cases side : assocOf ops o with
  | left =>
    rw [side] at below
    exact (Int.lt_or_eq_of_le (Int.le_of_lt_add_one below)).imp id fun same => ⟨same, (assocOf_congr same).trans side⟩
  | right =>
    rw [side] at below
    exact .inl below

/-- Tighter operators group before looser ones, and equal ones to the side that their table says. -/
def Expr.Grouped (ops : List Infix) : Expr → Prop
  | .primary _ => True
  | .binary left op right => left.Grouped ops ∧ right.Grouped ops ∧
      (∀ o ∈ left.top?, FitsLeft ops o op) ∧ ∀ o ∈ right.top?, FitsRight ops o op

instance {inner outer : Token} : Decidable (FitsLeft ops inner outer) := inferInstanceAs (Decidable (_ ∨ _))

instance {inner outer : Token} : Decidable (FitsRight ops inner outer) := inferInstanceAs (Decidable (_ ∨ _))

instance Expr.decidableGrouped (ops : List Infix) : (e : Expr) → Decidable (e.Grouped ops)
  | .primary _ => .isTrue trivial
  | .binary left op right =>
    have := decidableGrouped ops left
    have := decidableGrouped ops right
    inferInstanceAs (Decidable (left.Grouped ops ∧ right.Grouped ops ∧
      (∀ o ∈ left.top?, FitsLeft ops o op) ∧ ∀ o ∈ right.top?, FitsRight ops o op))

/-! ## One grouping -/

/-- No operator of a grouped expression binds more loosely than the one at the top. -/
theorem Expr.Grouped.level_le (grouped : e.Grouped ops) {step : Step} (member : step ∈ e.rest)
    (top : o ∈ e.top?) : level ops o ≤ level ops step.1 := by
  induction e generalizing o with
  | primary t => cases member
  | binary l op r left right =>
    obtain rfl := Option.some.inj top
    obtain ⟨groupedL, groupedR, fitsL, fitsR⟩ := grouped
    rcases List.mem_append.1 member with inLeft | here | ⟨_, inRight⟩
    · cases l with
      | primary t => cases inLeft
      | binary l' o' r' =>
        refine Int.le_trans ?_ (left groupedL inLeft rfl)
        exact (fitsL o' rfl).elim Int.le_of_lt fun same => Int.le_of_eq same.1
    · exact Int.le_refl _
    · cases r with
      | primary t => cases inRight
      | binary l' o' r' =>
        refine Int.le_trans ?_ (right groupedR inRight rfl)
        exact (fitsR o' rfl).elim Int.le_of_lt fun same => Int.le_of_eq same.1

theorem Expr.Grouped.fitsLeft (grouped : (Expr.binary l o r).Grouped ops) {step : Step}
    (member : step ∈ l.rest) : FitsLeft ops step.1 o := by
  obtain ⟨groupedL, -, fits, -⟩ := grouped
  cases l with
  | primary t => cases member
  | binary l' o' r' =>
    have above := groupedL.level_le member rfl
    rcases fits o' rfl with tighter | ⟨same, assoc⟩
    · exact .inl (Int.lt_of_lt_of_le tighter above)
    · rcases Int.lt_or_eq_of_le above with tighter | equal
      · exact .inl (same ▸ tighter)
      · exact .inr ⟨same.trans equal, assoc⟩

theorem Expr.Grouped.fitsRight (grouped : (Expr.binary l o r).Grouped ops) {step : Step}
    (member : step ∈ r.rest) : FitsRight ops step.1 o := by
  obtain ⟨-, groupedR, -, fits⟩ := grouped
  cases r with
  | primary t => cases member
  | binary l' o' r' =>
    have above := groupedR.level_le member rfl
    rcases fits o' rfl with tighter | ⟨same, assoc⟩
    · exact .inl (Int.lt_of_lt_of_le tighter above)
    · rcases Int.lt_or_eq_of_le above with tighter | equal
      · exact .inl (same ▸ tighter)
      · exact .inr ⟨same.trans equal, assoc⟩

/-- Of two operators only one can stand above the other. -/
theorem not_fits (below : FitsLeft ops o o') (above : FitsRight ops o' o) : False := by
  rcases below with tighter | ⟨same, assoc⟩
  · rcases above with looser | ⟨same', -⟩ <;> omega
  · rcases above with looser | ⟨-, assoc'⟩
    · omega
    · rw [assocOf_congr same, assoc'] at assoc
      cases assoc

/-- There is only one way to group the tokens. -/
theorem Expr.Grouped.unique (grouped : e.Grouped ops) (grouped' : e'.Grouped ops)
    (first : e.first = e'.first) (rest : e.rest = e'.rest) : e = e' := by
  induction e generalizing e' with
  | primary t =>
    cases e' with
    | primary t' => exact congrArg Expr.primary first
    | binary l' o' r' => simp [Expr.rest] at rest
  | binary l o r left right =>
    cases e' with
    | primary t' => simp [Expr.rest] at rest
    | binary l' o' r' =>
      rcases List.append_eq_append_iff.1 rest with ⟨more, before, behind⟩ | ⟨more, before, behind⟩
      · cases more with
        | nil =>
          obtain ⟨⟨rfl, firstR⟩, restR⟩ : (o = o' ∧ r.first = r'.first) ∧ r.rest = r'.rest := by
            simpa using behind
          rw [left grouped.1 grouped'.1 first (by simpa using before.symm), right grouped.2.1 grouped'.2.1 firstR restR]
        | cons step more =>
          -- The first operator stands to the left of the second one, and the second to the right of the first.
          obtain ⟨rfl, later⟩ := List.cons.inj behind
          have inLeft : (o, r.first) ∈ l'.rest := before ▸ List.mem_append_right _ List.mem_cons_self
          have inRight : (o', r'.first) ∈ r.rest := later ▸ List.mem_append_right _ List.mem_cons_self
          have above := grouped.fitsRight inRight
          have below := grouped'.fitsLeft inLeft
          exact (not_fits below above).elim
      · cases more with
        | nil =>
          obtain ⟨⟨rfl, firstR⟩, restR⟩ : (o' = o ∧ r'.first = r.first) ∧ r'.rest = r.rest := by
            simpa using behind
          rw [left grouped.1 grouped'.1 first (by simpa using before), right grouped.2.1 grouped'.2.1 firstR.symm
            restR.symm]
        | cons step more =>
          obtain ⟨rfl, later⟩ := List.cons.inj behind
          have inLeft : (o', r'.first) ∈ l.rest := before ▸ List.mem_append_right _ List.mem_cons_self
          have inRight : (o, r.first) ∈ r'.rest := later ▸ List.mem_append_right _ List.mem_cons_self
          have above := grouped'.fitsRight inRight
          have below := grouped.fitsLeft inLeft
          exact (not_fits below above).elim

/-! ## Precedence climbing -/

/-- Reads operators of at least level `p` behind an expression, each with its right operand, and gives what is
left besides the expression. -/
def climb (ops : List Infix) (p : Int) (e : Expr) : (steps : List Step) →
    { result : Expr × List Step // result.2.length ≤ steps.length }
  | [] => ⟨(e, []), Nat.le_refl _⟩
  | (o, t) :: steps =>
    if level ops o < p then ⟨(e, (o, t) :: steps), Nat.le_refl _⟩
    else
      let right := climb ops (next ops o) (.primary t) steps
      let whole := climb ops p (.binary e o right.1.1) right.1.2
      ⟨whole.1, Nat.le_trans whole.2 (Nat.le_succ_of_le right.2)⟩
termination_by steps => steps.length
decreasing_by
  · exact Nat.lt_succ_self _
  · exact Nat.lt_succ_of_le right.2

/-- What precedence climbing reads and what it leaves: an expression, and steps of which the first one, if there
is any, binds more loosely than `p`. -/
inductive Climbs (ops : List Infix) : Int → Expr → List Step → Expr → List Step → Prop
  | finish {p : Int} {e : Expr} {steps : List Step} (looser : ∀ step ∈ steps.head?, level ops step.1 < p) :
      Climbs ops p e steps e steps
  | grow {p : Int} {e right whole : Expr} {o t : Token} {steps left left' : List Step}
      (tight : p ≤ level ops o) (inner : Climbs ops (next ops o) (.primary t) steps right left)
      (outer : Climbs ops p (.binary e o right) left whole left') :
      Climbs ops p e ((o, t) :: steps) whole left'

theorem climbs_climb (ops : List Infix) (p : Int) (e : Expr) (steps : List Step) :
    Climbs ops p e steps (climb ops p e steps).1.1 (climb ops p e steps).1.2 := by
  match steps with
  | [] =>
    rw [climb]
    exact .finish fun step here => absurd here (Option.not_mem_none step)
  | (o, t) :: steps =>
    rw [climb]
    split
    · rename_i looser
      exact .finish fun step here => Option.some.inj here ▸ looser
    · rename_i tight
      exact .grow (Int.not_lt.1 tight) (climbs_climb ops _ _ steps)
        (climbs_climb ops p _ (climb ops (next ops o) (.primary t) steps).1.2)
termination_by steps.length
decreasing_by
  · exact Nat.lt_succ_self _
  · exact Nat.lt_succ_of_le (climb ops (next ops o) (.primary t) steps).2

variable {steps left : List Step}

namespace Climbs

/-- Every token is used once, in order. -/
theorem tokens (climbs : Climbs ops p e steps e' left) :
    e'.first = e.first ∧ e'.rest ++ left = e.rest ++ steps := by
  induction climbs with
  | finish => exact ⟨rfl, rfl⟩
  | grow tight inner outer inside whole =>
    refine ⟨whole.1, ?_⟩
    rw [whole.2, Expr.rest, inside.1, List.append_assoc, List.cons_append, inside.2]
    rfl

theorem suffix (climbs : Climbs ops p e steps e' left) : left <:+ steps := by
  induction climbs with
  | finish => exact List.suffix_refl _
  | grow _ _ _ inner outer => exact (outer.trans inner).trans (List.suffix_cons _ _)

theorem head_lt (climbs : Climbs ops p e steps e' left) : ∀ step ∈ left.head?, level ops step.1 < p := by
  induction climbs with
  | finish looser => exact looser
  | grow _ _ _ _ outer => exact outer

/-- What is on top of the result was there before, or binds at least at level `p`. -/
theorem top (climbs : Climbs ops p e steps e' left) : e'.top? = e.top? ∨ ∀ o ∈ e'.top?, p ≤ level ops o := by
  induction climbs with
  | finish => exact .inl rfl
  | grow tight _ _ _ outer =>
    refine .inr (outer.elim (fun same o top => ?_) id)
    rw [same] at top
    exact Option.some.inj top ▸ tight

/-- The first step that is left may go on around the result. -/
theorem grouped (climbs : Climbs ops p e steps e' left) (before : e.Grouped ops)
    (fits : ∀ o ∈ e.top?, ∀ step ∈ steps.head?, FitsLeft ops o step.1) :
    e'.Grouped ops ∧ ∀ o ∈ e'.top?, ∀ step ∈ left.head?, FitsLeft ops o step.1 := by
  induction climbs with
  | finish => exact ⟨before, fits⟩
  | @grow p e right whole o t steps left left' tight inner outer inside around =>
    obtain ⟨groupedR, -⟩ := inside trivial nofun
    have fitsL : ∀ o' ∈ e.top?, FitsLeft ops o' o := fun o' top => fits o' top (o, t) rfl
    -- The right operand begins with an operand alone, so what is on top of it was read there.
    have fitsR : ∀ o' ∈ right.top?, FitsRight ops o' o := fun o' top =>
      fitsRight_of_next_le (inner.top.resolve_left (fun same => by rw [same] at top; cases top) o' top)
    refine around ⟨before, groupedR, fitsL, fitsR⟩ fun o' top step here => ?_
    obtain rfl := Option.some.inj top
    exact fitsLeft_of_lt_next (inner.head_lt step here)

end Climbs

/-- What precedence climbing builds from an operand is grouped. -/
theorem climb_grouped (ops : List Infix) (p : Int) (t : Token) (steps : List Step) :
    (climb ops p (.primary t) steps).1.1.Grouped ops :=
  ((climbs_climb ops p (.primary t) steps).grouped trivial nofun).1

/-- Where every operator binds tightly enough, all steps are read. -/
theorem climb_all (tight : ∀ step ∈ steps, p ≤ level ops step.1) (e : Expr) :
    (climb ops p e steps).1.2 = [] := by
  have climbs := climbs_climb ops p e steps
  cases rest : (climb ops p e steps).1.2 with
  | nil => rfl
  | cons step more =>
    have looser := climbs.head_lt step (by rw [rest]; rfl)
    have among : step ∈ steps := climbs.suffix.mem (by rw [rest]; exact List.mem_cons_self)
    exact absurd looser (Int.not_lt.2 (tight step among))

end AdaptiveLL.Operators
