import AdaptiveLL.Proofs.Lexer.Fuel
import AdaptiveLL.Proofs.Tokens.Viewing
import Mathlib.Order.Filter.AtTopBot.Basic

/-!
# Streams with more fuel

What a lexer and a stream do with some amount of fuel they do with any larger amount (`Refuels`). So where a stream
shows a tape with every large amount of fuel, looking ahead and moving on it end always in the same way
(`Session.Halts`), and the stream shows the tape as before (`TokenStream.Displays`).
-/

set_option autoImplicit false

namespace AdaptiveLL

open Filter

namespace Session

variable {σ ρ α β : Type}

/-- Whenever the first step ends, the second one ends in the same way. -/
def Refuels (x y : StateT σ Session α) : Prop :=
  ∀ s j r, (x.run s).run j = some r → (y.run s).run j = some r

namespace Refuels

theorem refl (x : StateT σ Session α) : Refuels x x := fun _ _ _ => id

theorem failure (x : StateT σ Session α) : Refuels failure x := fun _ _ _ ran => nomatch ran

theorem bind {x y : StateT σ Session α} {f g : α → StateT σ Session β} (first : Refuels x y)
    (rest : ∀ a, Refuels (f a) (g a)) : Refuels (x >>= f) (y >>= g) := by
  intro s j r ran
  rw [StateT.run_bind, StateT.run_bind] at ran ⊢
  obtain ⟨⟨⟨a, s'⟩, j'⟩, here, there⟩ := Option.bind_eq_some_iff.1 ran
  exact Option.bind_eq_some_iff.2 ⟨_, first s j _ here, rest a s' j' r there⟩

theorem ite {q : Prop} [Decidable q] {x y x' y' : StateT σ Session α} (yes : Refuels x x') (no : Refuels y y') :
    Refuels (if q then x else y) (if q then x' else y') := by
  split
  · exact yes
  · exact no

/-- A step on a part of the state. -/
theorem part {x y : StateT ρ Session α} (refuels : Refuels x y) (r : ρ) :
    Refuels (liftM (x.run r) : StateT σ Session (α × ρ)) (liftM (y.run r)) := by
  intro s j a ran
  obtain ⟨b, here, there⟩ := Option.bind_eq_some_iff.1 ran
  exact Option.bind_eq_some_iff.2 ⟨b, refuels r j b here, there⟩

/-- A step that ends with two amounts of fuel ends in the same way. -/
theorem unique {x : Nat → StateT σ Session α} (refuels : ∀ {fuel more}, fuel ≤ more → Refuels (x fuel) (x more))
    {fuel fuel' : Nat} {s : σ} {j : Journal} {r r' : (α × σ) × Journal} (ran : ((x fuel).run s).run j = some r)
    (ran' : ((x fuel').run s).run j = some r') : r = r' := by
  have here := refuels (Nat.le_max_left fuel fuel') s j _ ran
  have there := refuels (Nat.le_max_right fuel fuel') s j _ ran'
  exact Option.some.inj (here.symm.trans there)

end Refuels

/-- The step does not end, with the state and the journal that it begins with. -/
def Stalls (x : StateT σ Session α) (s : σ) (j : Journal) : Prop := (x.run s).run j = none

namespace Stalls

variable {x : StateT σ Session α} {s : σ} {j : Journal}

theorem bind {f : α → StateT σ Session β}
    (rest : ∀ a s' j', (x.run s).run j = some ((a, s'), j') → Stalls (f a) s' j') : Stalls (x >>= f) s j := by
  refine Option.eq_none_iff_forall_ne_some.2 fun r ran => ?_
  rw [StateT.run_bind, StateT.run_bind] at ran
  obtain ⟨⟨⟨a, s'⟩, j'⟩, here, there⟩ := Option.bind_eq_some_iff.1 ran
  cases (rest a s' j' here).symm.trans there

/-- A step whose first part does not end. -/
theorem first {f : α → StateT σ Session β} (stalls : Stalls x s j) : Stalls (x >>= f) s j :=
  bind fun _ _ _ ran => nomatch stalls.symm.trans ran

theorem get_bind {f : σ → StateT σ Session α} (rest : Stalls (f s) s j) : Stalls (get >>= f) s j := rest

theorem modify_bind {next : σ → σ} {f : PUnit → StateT σ Session α} (rest : Stalls (f ⟨⟩) (next s) j) :
    Stalls (modify next >>= f) s j := rest

/-- A step of which everything holds whenever it ends. -/
theorem of_leads (leads : Leads x s fun _ _ => False) : Stalls x s j :=
  Option.eq_none_iff_forall_ne_some.2 fun r ran => leads j r.1.1 r.1.2 r.2 ran

end Stalls

/-- With enough fuel the step ends, always in the same way, and its result and its state satisfy `Q`. -/
def Halts (x : Nat → StateT σ Session α) (s : σ) (Q : α → σ → Prop) : Prop :=
  ∀ j, ∃ a s' j', (∀ᶠ fuel in atTop, ((x fuel).run s).run j = some ((a, s'), j')) ∧ Q a s'

namespace Halts

variable {s : σ} {x y : Nat → StateT σ Session α} {P Q : α → σ → Prop}

/-- A step that ends with every large amount of fuel ends always in the same way, if more fuel changes nothing. What
holds each time for the amount of fuel holds for all large amounts. -/
theorem of_reaches {Q : Nat → α → σ → Prop} (refuels : ∀ {fuel more}, fuel ≤ more → Refuels (x fuel) (x more))
    (reaches : ∀ᶠ fuel in atTop, Reaches (x fuel) s (Q fuel)) :
    Halts x s fun a s' => ∀ᶠ fuel in atTop, Q fuel a s' := by
  intro j
  obtain ⟨enough, reaches⟩ := eventually_atTop.1 reaches
  obtain ⟨a, s', j', ran, -⟩ := reaches enough (Nat.le_refl _) j
  have same (fuel : Nat) (more : enough ≤ fuel) := refuels more s j _ ran
  refine ⟨a, s', j', eventually_atTop.2 ⟨enough, same⟩, eventually_atTop.2 ⟨enough, fun fuel more => ?_⟩⟩
  obtain ⟨b, s'', j'', ran', holds⟩ := reaches fuel more j
  cases (same fuel more).symm.trans ran'
  exact holds

/-- A step that needs no fuel. -/
theorem of_fixed {x : StateT σ Session α} (reaches : Reaches x s Q) : Halts (fun _ => x) s Q := by
  intro j
  obtain ⟨a, s', j', ran, holds⟩ := reaches j
  exact ⟨a, s', j', .of_forall fun _ => ran, holds⟩

theorem pure {a : α} (holds : Q a s) : Halts (fun _ => Pure.pure a) s Q := .of_fixed (.pure holds)

theorem bind {f : Nat → α → StateT σ Session β} {Q : β → σ → Prop} (first : Halts x s P)
    (second : ∀ a s', P a s' → Halts (fun fuel => f fuel a) s' Q) : Halts (fun fuel => x fuel >>= f fuel) s Q := by
  intro j
  obtain ⟨a, s', j', ran, holds⟩ := first j
  obtain ⟨b, s'', j'', ran', holds'⟩ := second a s' holds j'
  refine ⟨b, s'', j'', ?_, holds'⟩
  filter_upwards [ran, ran'] with fuel here there
  rw [StateT.run_bind, StateT.run_bind]
  exact Option.bind_eq_some_iff.2 ⟨_, here, there⟩

theorem get_bind {f : Nat → σ → StateT σ Session β} {Q : β → σ → Prop} (rest : Halts (fun fuel => f fuel s) s Q) :
    Halts (fun fuel => get >>= f fuel) s Q := rest

theorem modify_bind {next : σ → σ} {f : Nat → PUnit → StateT σ Session β} {Q : β → σ → Prop}
    (rest : Halts (fun fuel => f fuel ⟨⟩) (next s) Q) : Halts (fun fuel => modify next >>= f fuel) s Q := rest

theorem ite {q : Prop} {dec : Nat → Decidable q} (yes : q → Halts x s Q) (no : ¬ q → Halts y s Q) :
    Halts (fun fuel => @ite _ q (dec fuel) (x fuel) (y fuel)) s Q := by
  by_cases holds : q
  · simpa only [if_pos holds] using yes holds
  · simpa only [if_neg holds] using no holds

/-- Writing into the journal changes nothing else. -/
theorem of_journal {f : Journal → Journal} {Q : PUnit → σ → Prop} (holds : Q ⟨⟩ s) :
    Halts (fun _ => modifyThe Journal f) s Q := .of_fixed fun j => ⟨⟨⟩, s, f j, rfl, holds⟩

theorem of_modifyGet {f : σ → β × σ} {Q : β → σ → Prop} (holds : Q (f s).1 (f s).2) :
    Halts (fun _ => modifyGet f) s Q := .of_fixed fun j => ⟨(f s).1, (f s).2, j, rfl, holds⟩

theorem imp (halts : Halts x s P) (imp : ∀ a s', P a s' → Q a s') : Halts x s Q := by
  intro j
  obtain ⟨a, s', j', ran, holds⟩ := halts j
  exact ⟨a, s', j', ran, imp a s' holds⟩

/-- What ends satisfies whatever holds whenever it ends. -/
theorem and (halts : Halts x s P) (leads : ∀ fuel, Leads (x fuel) s Q) : Halts x s fun a s' => P a s' ∧ Q a s' := by
  intro j
  obtain ⟨a, s', j', ran, holds⟩ := halts j
  obtain ⟨fuel, here⟩ := ran.exists
  exact ⟨a, s', j', ran, holds, leads fuel j a s' j' here⟩

/-- Only large amounts of fuel count. -/
theorem congr (halts : Halts y s Q) (same : ∀ᶠ fuel in atTop, x fuel = y fuel) : Halts x s Q := by
  intro j
  obtain ⟨a, s', j', ran, holds⟩ := halts j
  refine ⟨a, s', j', ?_, holds⟩
  filter_upwards [ran, same] with fuel ran same
  rw [same, ran]

/-- A step on a part of the state. -/
theorem part_bind {r : ρ} {x : Nat → StateT ρ Session α} {f : Nat → α × ρ → StateT σ Session β} {P : α → ρ → Prop}
    {Q : β → σ → Prop} (first : Halts x r P)
    (second : ∀ a r', P a r' → Halts (fun fuel => f fuel (a, r')) s Q) :
    Halts (fun fuel => liftM ((x fuel).run r) >>= f fuel) s Q := by
  refine bind (P := fun (ar : α × ρ) s' => s' = s ∧ P ar.1 ar.2) ?_ fun ar s' holds => ?_
  · intro j
    obtain ⟨a, r', j', ran, holds⟩ := first j
    refine ⟨(a, r'), s, j', ?_, rfl, holds⟩
    filter_upwards [ran] with fuel here
    exact Option.bind_eq_some_iff.2 ⟨_, here, rfl⟩
  · obtain ⟨rfl, holds⟩ := holds
    exact second ar.1 ar.2 holds

end Halts

end Session

open Session

variable {η : Type} {fuel more : Nat}

/-! ## Lexers -/

namespace Lexer

theorem matchOne_refuels (le : fuel ≤ more) : Refuels (matchOne fuel : LexM η _) (matchOne more) := by
  refine .bind (.refl _) fun l => ?_
  cases ran : (matchToken l.net l.hooks fuel l.state.mode).run l.matcher with
  | none => exact .failure _
  | some found =>
    rw [matchToken_below le l.matcher found ran]
    exact .refl _

theorem attempt_refuels (le : fuel ≤ more) : Refuels (attempt fuel : LexM η _) (attempt more) := by
  unfold attempt
  exact .bind (.refl _) fun _ => .bind (matchOne_refuels le) fun _ => .refl _

theorem extend_refuels (le : fuel ≤ more) {rounds rounds' : Nat} (longer : rounds ≤ rounds') :
    Refuels (extend fuel rounds : LexM η _) (extend more rounds') := by
  induction rounds generalizing rounds' with
  | zero => exact .failure _
  | succ rounds ih =>
    obtain ⟨rounds', rfl⟩ : ∃ k, rounds' = k + 1 := ⟨rounds' - 1, by omega⟩
    refine .bind (attempt_refuels le) fun _ => .bind (.refl _) fun _ => .ite (.refl _) (.ite ?_ (.refl _))
    exact ih (Nat.le_of_succ_le_succ longer)

theorem nextTokenFrom_refuels (le : fuel ≤ more) {rounds rounds' : Nat} (longer : rounds ≤ rounds') :
    Refuels (nextTokenFrom fuel rounds : LexM η _) (nextTokenFrom more rounds') := by
  induction rounds generalizing rounds' with
  | zero => exact .failure _
  | succ rounds ih =>
    obtain ⟨rounds', rfl⟩ : ∃ k, rounds' = k + 1 := ⟨rounds' - 1, by omega⟩
    rw [nextTokenFrom, nextTokenFrom]
    refine .bind (.refl _) fun l => .ite (.refl _) (.bind (.refl _) fun _ => ?_)
    refine .bind (extend_refuels le le) fun built => ?_
    exact .ite (.refl _) (ih (Nat.le_of_succ_le_succ longer))

theorem nextToken_refuels (le : fuel ≤ more) : Refuels (nextToken fuel : LexM η _) (nextToken more) := by
  unfold nextToken
  exact nextTokenFrom_refuels le le

end Lexer

theorem TokenSource.nextToken_list (fuel : Nat) (tokens : TokenList) (hooks : η) :
    (TokenSource.nextToken fuel).run (.list tokens hooks) =
      (pure (tokens.next.1, .list tokens.next.2 hooks) : Session _) := by
  unfold TokenSource.nextToken
  rfl

theorem TokenSource.nextToken_lexer (fuel : Nat) (l : Lexer η) :
    (TokenSource.nextToken fuel).run (.lexer l) =
      ((Lexer.nextToken fuel).run l >>= fun found => pure (found.1, .lexer found.2) : Session _) := by
  unfold TokenSource.nextToken
  rfl

/-- More fuel makes a difference only to a lexer. -/
theorem TokenSource.nextToken_refuels (le : fuel ≤ more) :
    Refuels (TokenSource.nextToken fuel : StateT (TokenSource η) Session Token) (TokenSource.nextToken more) := by
  intro s j r ran
  cases s with
  | list tokens hooks =>
    rw [nextToken_list] at ran ⊢
    exact ran
  | lexer l =>
    rw [nextToken_lexer] at ran ⊢
    obtain ⟨found, here, there⟩ := Option.bind_eq_some_iff.1 ran
    exact Option.bind_eq_some_iff.2 ⟨found, Lexer.nextToken_refuels le l j found here, there⟩

/-! ## Streams -/

namespace TokenStream

theorem fetchOne_refuels (le : fuel ≤ more) : Refuels (fetchOne fuel : StreamM η _) (fetchOne more) :=
  .bind (.refl _) fun s => .bind (.part (TokenSource.nextToken_refuels le) s.source) fun _ => .refl _

theorem fetch_refuels (le : fuel ≤ more) (n : Nat) : Refuels (fetch fuel n : StreamM η _) (fetch more n) := by
  induction n with
  | zero => exact .refl _
  | succ n ih =>
    exact .bind (.refl _) fun _ => .ite (.refl _) (.bind (fetchOne_refuels le) fun _ => .bind ih fun _ => .refl _)

theorem require_refuels (le : fuel ≤ more) (i : Nat) : Refuels (require fuel i : StreamM η _) (require more i) :=
  .bind (.refl _) fun _ => .bind (fetch_refuels le _) fun _ => .refl _

theorem nextShown_refuels (le : fuel ≤ more) {rounds rounds' : Nat} (longer : rounds ≤ rounds') (i : Nat) :
    Refuels (nextShown fuel rounds i : StreamM η _) (nextShown more rounds' i) := by
  induction rounds generalizing rounds' i with
  | zero => exact .failure _
  | succ rounds ih =>
    obtain ⟨rounds', rfl⟩ : ∃ k, rounds' = k + 1 := ⟨rounds' - 1, by omega⟩
    refine .bind (require_refuels le i) fun _ => .bind (.refl _) fun s => ?_
    cases s.tokens[i]? with
    | none => exact .refl _
    | some t => exact .ite (.refl _) (ih (Nat.le_of_succ_le_succ longer) (i + 1))

theorem shownFrom_refuels (le : fuel ≤ more) (i : Nat) : Refuels (shownFrom fuel i : StreamM η _) (shownFrom more i) :=
  nextShown_refuels le le i

theorem current_refuels (le : fuel ≤ more) : Refuels (current fuel : StreamM η _) (current more) := by
  refine .bind (.refl _) fun s => ?_
  cases s.pos with
  | some p => exact .refl _
  | none => exact .bind (shownFrom_refuels le 0) fun _ => .refl _

theorem ahead_refuels (le : fuel ≤ more) (n i : Nat) : Refuels (ahead fuel n i : StreamM η _) (ahead more n i) := by
  induction n generalizing i with
  | zero => exact .refl _
  | succ n ih =>
    refine .bind (.refl _) fun s => ?_
    cases s.tokens[i]? with
    | none => exact .refl _
    | some t => exact .ite (.refl _) (.bind (shownFrom_refuels le _) fun k => ih k)

theorem lt_refuels (le : fuel ≤ more) (k : Int) : Refuels (lt fuel k : StreamM η _) (lt more k) :=
  .bind (current_refuels le) fun _ => .ite (.refl _) (.ite (.refl _) (.bind (ahead_refuels le _ _) fun _ => .refl _))

theorem la_refuels (le : fuel ≤ more) (k : Int) : Refuels (la fuel k : StreamM η _) (la more k) :=
  .bind (lt_refuels le k) fun _ => .refl _

theorem returnTo_refuels (le : fuel ≤ more) (i : Nat) : Refuels (returnTo fuel i : StreamM η _) (returnTo more i) :=
  .bind (current_refuels le) fun _ => .bind (shownFrom_refuels le i) fun _ => .refl _

theorem consume_refuels (le : fuel ≤ more) : Refuels (consume fuel : StreamM η _) (consume more) := by
  refine .bind (current_refuels le) fun p => .bind (.refl _) fun s => ?_
  cases s.tokens[p]? with
  | none => exact .refl _
  | some t => exact .ite (.bind (shownFrom_refuels le _) fun _ => .refl _) (.refl _)

/-! ## Tapes -/

variable {s : TokenStream η} {tape : TokenTape} {pos : Option Nat}

/-- With every large amount of fuel the stream shows the tape. -/
def Displays (s : TokenStream η) (tape : TokenTape) (pos : Option Nat) : Prop :=
  ∀ᶠ fuel in atTop, s.Views fuel tape pos

namespace Displays

theorem placed (displays : s.Displays tape pos) : tape.Placed pos := by
  obtain ⟨fuel, views⟩ := displays.exists
  exact views.placed

/-- A step that ends with enough fuel and leaves a view of the tape leaves the tape on display. -/
theorem halts {α : Type} {x : Nat → StreamM η α} {pos' : Option Nat} {R : α → Prop} (displays : s.Displays tape pos)
    (refuels : ∀ {fuel more}, fuel ≤ more → Refuels (x fuel) (x more))
    (reaches : ∀ fuel, s.Views fuel tape pos → tape.body.length < fuel →
      Reaches (x fuel) s fun a s' => s'.Views fuel tape pos' ∧ R a) :
    Halts x s fun a s' => s'.Displays tape pos' ∧ R a := by
  have reached : Halts x s fun a s' => ∀ᶠ fuel in atTop, s'.Views fuel tape pos' ∧ R a := by
    refine .of_reaches refuels ?_
    filter_upwards [displays, eventually_gt_atTop tape.body.length] with fuel views enough
    exact reaches fuel views enough
  refine reached.imp fun a s' holds => ?_
  obtain ⟨shown, result⟩ := eventually_and.1 holds
  exact ⟨shown, eventually_const.1 result⟩

/-- Looking at the current token. -/
theorem la (displays : s.Displays tape pos) : Halts (fun fuel => la fuel 1) s fun type s' =>
    s'.Displays tape (some (tape.current pos)) ∧
      type = ((tape.lt? (some (tape.current pos)) 1).map (·.type)).getD invalidType := by
  refine displays.halts (fun le => la_refuels le 1) fun fuel views enough => ?_
  exact (views.lt enough (by decide)).bind fun found s' ⟨views', same⟩ => .pure ⟨views', by rw [same]; rfl⟩

theorem returnTo (displays : s.Displays tape pos) (i : Nat) : Halts (fun fuel => returnTo fuel i) s fun _ s' =>
    s'.Displays tape (some (tape.firstFrom i)) :=
  (displays.halts (R := fun _ => True) (fun le => returnTo_refuels le i) fun _ views enough =>
    (views.returnTo enough i).imp fun _ _ views' => ⟨views', trivial⟩).imp fun _ _ => And.left

theorem consume (displays : s.Displays tape pos) : Halts (fun fuel => consume fuel) s fun _ s' =>
    s'.Displays tape (tape.call pos .consume).2 :=
  (displays.halts (R := fun _ => True) (fun le => consume_refuels le) fun _ views enough =>
    (views.consume enough).imp fun _ _ views' => ⟨views', trivial⟩).imp fun _ _ => And.left

end Displays

end TokenStream

end AdaptiveLL
