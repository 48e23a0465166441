import AdaptiveLL.Event

/-!
# Reasoning about sessions

A step of a recognizer changes a state, writes into the journal and may run out of fuel. `Leads` says
what is known of its result and its state whenever it ends, whatever the journal; `Reaches` says that it
does end. `Reports` also says what a parser has reported on the way, and `Mute` that it was nothing. Steps
that may meet a syntax error are followed with `Outcome`, which has one side for each way in which they
end.
-/

set_option autoImplicit false

namespace AdaptiveLL

theorem Journal.reports_append (j new : Journal) (select : Origin → Bool) :
    Journal.reports (j ++ new) select = j.reports select ++ new.reports select := by
  simp [Journal.reports]

namespace Session

variable {σ α β ε : Type} {s : σ}

/-! ## Steps -/

/-- Whenever the step ends, its result and its state satisfy `Q`. -/
def Leads (x : StateT σ Session α) (s : σ) (Q : α → σ → Prop) : Prop :=
  ∀ j a s' j', (x.run s).run j = some ((a, s'), j') → Q a s'

/-- The step ends, and its result and its state satisfy `Q`. -/
def Reaches (x : StateT σ Session α) (s : σ) (Q : α → σ → Prop) : Prop :=
  ∀ j, ∃ a s' j', (x.run s).run j = some ((a, s'), j') ∧ Q a s'

namespace Leads

variable {Q : β → σ → Prop}

theorem bind {x : StateT σ Session α} {f : α → StateT σ Session β} {P : α → σ → Prop}
    (first : Leads x s P) (second : ∀ a s', P a s' → Leads (f a) s' Q) : Leads (x >>= f) s Q := by
  intro j b s'' j'' ran
  rw [StateT.run_bind, StateT.run_bind] at ran
  obtain ⟨⟨⟨a, s'⟩, j'⟩, ran, rest⟩ := Option.bind_eq_some_iff.1 ran
  exact second a s' (first j a s' j' ran) j' b s'' j'' rest

theorem imp {x : StateT σ Session α} {P R : α → σ → Prop} (leads : Leads x s P)
    (imp : ∀ a s', P a s' → R a s') : Leads x s R :=
  fun j a s' j' ran => imp a s' (leads j a s' j' ran)

theorem and {x : StateT σ Session α} {P R : α → σ → Prop} (first : Leads x s P)
    (second : Leads x s R) : Leads x s fun a s' => P a s' ∧ R a s' :=
  fun j a s' j' ran => ⟨first j a s' j' ran, second j a s' j' ran⟩

theorem get_bind {f : σ → StateT σ Session β} (rest : Leads (f s) s Q) :
    Leads (get >>= f) s Q := rest

theorem modify_bind {next : σ → σ} {f : PUnit → StateT σ Session β}
    (rest : Leads (f ⟨⟩) (next s) Q) : Leads (modify next >>= f) s Q := rest

theorem set_bind {next : σ} {f : PUnit → StateT σ Session β} (rest : Leads (f ⟨⟩) next Q) :
    Leads (set next >>= f) s Q := rest

/-- A step on a part of the state. -/
theorem part_bind {ρ : Type} {r : ρ} {x : StateT ρ Session α} {f : α × ρ → StateT σ Session β}
    {P : α → ρ → Prop} (first : Leads x r P) (second : ∀ a r', P a r' → Leads (f (a, r')) s Q) :
    Leads (liftM (x.run r) >>= f) s Q := by
  intro j b s'' j'' ran
  rw [StateT.run_bind, StateT.run_bind] at ran
  obtain ⟨⟨⟨⟨a, r'⟩, s'⟩, j'⟩, lifted, rest⟩ := Option.bind_eq_some_iff.1 ran
  obtain ⟨⟨⟨a', r''⟩, j₁⟩, ran, same⟩ := Option.bind_eq_some_iff.1 lifted
  cases same
  exact second a r' (first j a r' _ ran) _ b s'' j'' rest

theorem pure {b : β} (holds : Q b s) : Leads (pure b) s Q := by
  intro j a s' j' ran
  cases ran
  exact holds

theorem of_modify {next : σ → σ} {Q : PUnit → σ → Prop} (holds : Q ⟨⟩ (next s)) :
    Leads (modify next) s Q := by
  intro j a s' j' ran
  cases ran
  exact holds

theorem of_set {next : σ} {Q : PUnit → σ → Prop} (holds : Q ⟨⟩ next) : Leads (set next) s Q := by
  intro j a s' j' ran
  cases ran
  exact holds

theorem of_modifyGet {f : σ → β × σ} (holds : Q (f s).1 (f s).2) : Leads (modifyGet f) s Q := by
  intro j a s' j' ran
  have ran : some (((f s).1, (f s).2), j) = some ((a, s'), j') := ran
  cases ran
  exact holds

theorem of_failure : Leads (failure : StateT σ Session β) s Q := by
  intro j a s' j' ran
  cases ran

/-- Writing into the journal changes nothing else. -/
theorem of_journal {f : Journal → Journal} {Q : PUnit → σ → Prop} (holds : Q ⟨⟩ s) :
    Leads (modifyThe Journal f) s Q := by
  intro j a s' j' ran
  cases ran
  exact holds

end Leads

namespace Reaches

variable {Q : β → σ → Prop}

theorem bind {x : StateT σ Session α} {f : α → StateT σ Session β} {P : α → σ → Prop}
    (first : Reaches x s P) (second : ∀ a s', P a s' → Reaches (f a) s' Q) :
    Reaches (x >>= f) s Q := by
  intro j
  obtain ⟨a, s', j', ran, holds⟩ := first j
  obtain ⟨b, s'', j'', ran', holds'⟩ := second a s' holds j'
  refine ⟨b, s'', j'', ?_, holds'⟩
  rw [StateT.run_bind, StateT.run_bind]
  exact Option.bind_eq_some_iff.2 ⟨_, ran, ran'⟩

theorem imp {x : StateT σ Session α} {P R : α → σ → Prop} (reaches : Reaches x s P)
    (imp : ∀ a s', P a s' → R a s') : Reaches x s R := by
  intro j
  obtain ⟨a, s', j', ran, holds⟩ := reaches j
  exact ⟨a, s', j', ran, imp a s' holds⟩

/-- A step that ends satisfies whatever holds whenever it ends. -/
theorem and {x : StateT σ Session α} {P R : α → σ → Prop} (reaches : Reaches x s P)
    (leads : Leads x s R) : Reaches x s fun a s' => P a s' ∧ R a s' := by
  intro j
  obtain ⟨a, s', j', ran, holds⟩ := reaches j
  exact ⟨a, s', j', ran, holds, leads j a s' j' ran⟩

theorem get_bind {f : σ → StateT σ Session β} (rest : Reaches (f s) s Q) :
    Reaches (get >>= f) s Q := rest

theorem modify_bind {next : σ → σ} {f : PUnit → StateT σ Session β}
    (rest : Reaches (f ⟨⟩) (next s) Q) : Reaches (modify next >>= f) s Q := rest

theorem set_bind {next : σ} {f : PUnit → StateT σ Session β} (rest : Reaches (f ⟨⟩) next Q) :
    Reaches (set next >>= f) s Q := rest

/-- A step on a part of the state. -/
theorem part_bind {ρ : Type} {r : ρ} {x : StateT ρ Session α} {f : α × ρ → StateT σ Session β}
    {P : α → ρ → Prop} (first : Reaches x r P) (second : ∀ a r', P a r' → Reaches (f (a, r')) s Q) :
    Reaches (liftM (x.run r) >>= f) s Q := by
  refine bind (P := fun (ar : α × ρ) s' => s' = s ∧ P ar.1 ar.2) ?_ fun ar s' holds => ?_
  · intro j
    obtain ⟨a, r', j', ran, holds⟩ := first j
    exact ⟨(a, r'), s, j', Option.bind_eq_some_iff.2 ⟨_, ran, rfl⟩, rfl, holds⟩
  · obtain ⟨rfl, holds⟩ := holds
    exact second ar.1 ar.2 holds

theorem pure {b : β} (holds : Q b s) : Reaches (pure b) s Q := fun j => ⟨b, s, j, rfl, holds⟩

theorem of_modify {next : σ → σ} {Q : PUnit → σ → Prop} (holds : Q ⟨⟩ (next s)) :
    Reaches (modify next) s Q := fun j => ⟨⟨⟩, next s, j, rfl, holds⟩

end Reaches

/-! ## What a parser reports -/

/-- Whenever the step ends, it has only added to the journal, and its result, its state and the reports of
parsers among what it added satisfy `Q`. -/
def Reports (x : StateT σ Session α) (s : σ) (Q : α → σ → List Event → Prop) : Prop :=
  ∀ j a s' j', (x.run s).run j = some ((a, s'), j') →
    ∃ new : Journal, j' = j ++ new ∧ Q a s' (new.reports (· == .parser))

/-- Whenever the step ends, it has added no report of a parser to the journal, and its result and its state
satisfy `Q`. -/
def Mute (x : StateT σ Session α) (s : σ) (Q : α → σ → Prop) : Prop :=
  Reports x s fun a s' es => es = [] ∧ Q a s'

namespace Reports

variable {Q : β → σ → List Event → Prop}

/-- What two steps report is what the first one reports, then what the second one does. -/
theorem bind {x : StateT σ Session α} {f : α → StateT σ Session β} {P : α → σ → List Event → Prop}
    (first : Reports x s P)
    (second : ∀ a s' es, P a s' es → Reports (f a) s' fun b s'' es' => Q b s'' (es ++ es')) :
    Reports (x >>= f) s Q := by
  intro j b s'' j'' ran
  rw [StateT.run_bind, StateT.run_bind] at ran
  obtain ⟨⟨⟨a, s'⟩, j'⟩, ran, rest⟩ := Option.bind_eq_some_iff.1 ran
  obtain ⟨new, rfl, holds⟩ := first j a s' j' ran
  obtain ⟨new', rfl, holds'⟩ := second a s' _ holds _ b s'' j'' rest
  refine ⟨new ++ new', Array.append_assoc, ?_⟩
  rw [Journal.reports_append]
  exact holds'

theorem imp {x : StateT σ Session β} {P : β → σ → List Event → Prop} (reports : Reports x s P)
    (imp : ∀ b s' es, P b s' es → Q b s' es) : Reports x s Q := by
  intro j b s' j' ran
  obtain ⟨new, rfl, holds⟩ := reports j b s' j' ran
  exact ⟨new, rfl, imp b s' _ holds⟩

theorem and_leads {x : StateT σ Session β} {P : β → σ → Prop} (reports : Reports x s Q) (leads : Leads x s P) :
    Reports x s fun b s' es => Q b s' es ∧ P b s' := by
  intro j b s' j' ran
  obtain ⟨new, rfl, holds⟩ := reports j b s' j' ran
  exact ⟨new, rfl, holds, leads j b s' _ ran⟩

theorem pure {b : β} (holds : Q b s []) : Reports (pure b) s Q := by
  intro j a s' j' ran
  cases ran
  exact ⟨#[], Array.append_empty.symm, holds⟩

theorem get_bind {f : σ → StateT σ Session β} (rest : Reports (f s) s Q) :
    Reports (get >>= f) s Q := rest

theorem modify_bind {next : σ → σ} {f : PUnit → StateT σ Session β}
    (rest : Reports (f ⟨⟩) (next s) Q) : Reports (modify next >>= f) s Q := rest

theorem set_bind {next : σ} {f : PUnit → StateT σ Session β} (rest : Reports (f ⟨⟩) next Q) :
    Reports (set next >>= f) s Q := rest

theorem of_failure : Reports (failure : StateT σ Session β) s Q := by
  intro j a s' j' ran
  cases ran

/-- A report of a parser. -/
theorem of_report {e : Event} {Q : PUnit → σ → List Event → Prop} (holds : Q ⟨⟩ s [e]) :
    Reports (modifyThe Journal (·.push (.report .parser e))) s Q := by
  intro j a s' j' ran
  cases ran
  exact ⟨#[.report .parser e], Array.push_eq_append, by simpa [Journal.reports] using holds⟩

/-- A step that reports nothing may come first. -/
theorem mute_bind {x : StateT σ Session α} {f : α → StateT σ Session β} {P : α → σ → Prop}
    (first : Mute x s P) (second : ∀ a s', P a s' → Reports (f a) s' Q) : Reports (x >>= f) s Q := by
  refine first.bind fun a s' es holds => ?_
  obtain ⟨rfl, holds⟩ := holds
  exact second a s' holds

end Reports

namespace Mute

variable {Q : β → σ → Prop}

theorem bind {x : StateT σ Session α} {f : α → StateT σ Session β} {P : α → σ → Prop}
    (first : Mute x s P) (second : ∀ a s', P a s' → Mute (f a) s' Q) : Mute (x >>= f) s Q :=
  Reports.mute_bind first second

theorem imp {x : StateT σ Session β} {P : β → σ → Prop} (mute : Mute x s P)
    (imp : ∀ b s', P b s' → Q b s') : Mute x s Q :=
  Reports.imp mute fun b s' _ holds => ⟨holds.1, imp b s' holds.2⟩

theorem pure {b : β} (holds : Q b s) : Mute (pure b) s Q := Reports.pure ⟨rfl, holds⟩

theorem get_bind {f : σ → StateT σ Session β} (rest : Mute (f s) s Q) : Mute (get >>= f) s Q := rest

theorem modify_bind {next : σ → σ} {f : PUnit → StateT σ Session β}
    (rest : Mute (f ⟨⟩) (next s) Q) : Mute (modify next >>= f) s Q := rest

theorem set_bind {next : σ} {f : PUnit → StateT σ Session β} (rest : Mute (f ⟨⟩) next Q) :
    Mute (set next >>= f) s Q := rest

theorem of_failure : Mute (failure : StateT σ Session β) s Q := Reports.of_failure

theorem of_modify {next : σ → σ} {Q : PUnit → σ → Prop} (holds : Q ⟨⟩ (next s)) :
    Mute (modify next) s Q := Mute.pure (b := PUnit.unit) (s := next s) holds

theorem of_set {next : σ} {Q : PUnit → σ → Prop} (holds : Q ⟨⟩ next) : Mute (set next) s Q :=
  Mute.pure (b := PUnit.unit) (s := next) holds

theorem of_modifyGet {f : σ → β × σ} (holds : Q (f s).1 (f s).2) : Mute (modifyGet f) s Q :=
  Mute.pure (b := (f s).1) (s := (f s).2) holds

/-- An entry that is no report of a parser. -/
theorem of_journal {f : Journal → Journal} {Q : PUnit → σ → Prop}
    (adds : ∀ j, ∃ new : Journal, f j = j ++ new ∧ new.reports (· == .parser) = []) (holds : Q ⟨⟩ s) :
    Mute (modifyThe Journal f) s Q := by
  intro j a s' j' ran
  cases ran
  obtain ⟨new, same, none⟩ := adds j
  exact ⟨new, same, none, holds⟩

/-- A step on a part of the state. -/
theorem part_bind {ρ : Type} {r : ρ} {x : StateT ρ Session α} {f : α × ρ → StateT σ Session β}
    {P : α → ρ → Prop} (first : Mute x r P) (second : ∀ a r', P a r' → Mute (f (a, r')) s Q) :
    Mute (liftM (x.run r) >>= f) s Q := by
  refine bind (P := fun (ar : α × ρ) s' => s' = s ∧ P ar.1 ar.2) ?_ fun ar s' holds => ?_
  · intro j ar s' j' ran
    obtain ⟨⟨⟨a, r'⟩, j₁⟩, ran, same⟩ := Option.bind_eq_some_iff.1 ran
    cases same
    obtain ⟨new, rfl, none, holds⟩ := first j a r' _ ran
    exact ⟨new, rfl, none, rfl, holds⟩
  · obtain ⟨rfl, holds⟩ := holds
    exact second ar.1 ar.2 holds

end Mute

/-! ## Steps that may meet an error -/

/-- What holds after success, and what holds after an error. -/
def Outcome (Q : α → σ → Prop) (E : ε → σ → Prop) : Except ε α → σ → Prop
  | .ok a, s => Q a s
  | .error e, s => E e s

namespace Leads

variable {Q : β → σ → Prop} {E : ε → σ → Prop}

theorem walk_bind {x : ExceptT ε (StateT σ Session) α} {f : α → ExceptT ε (StateT σ Session) β}
    {P : α → σ → Prop} (first : Leads x.run s (Outcome P E))
    (second : ∀ a s', P a s' → Leads (f a).run s' (Outcome Q E)) :
    Leads (x >>= f).run s (Outcome Q E) := by
  rw [ExceptT.run_bind]
  refine first.bind fun result s' holds => ?_
  cases result with
  | ok a => exact second a s' holds
  | error e => exact .pure holds

theorem walk_pure {b : β} (holds : Q b s) :
    Leads (Pure.pure b : ExceptT ε (StateT σ Session) β).run s (Outcome Q E) := .pure holds

theorem of_throw {e : ε} (holds : E e s) :
    Leads (throw e : ExceptT ε (StateT σ Session) β).run s (Outcome Q E) := .pure holds

theorem lift {x : StateT σ Session β} (leads : Leads x s Q) :
    Leads (ExceptT.lift x : ExceptT ε (StateT σ Session) β).run s (Outcome Q E) := by
  rw [ExceptT.run_lift, map_eq_pure_bind]
  exact leads.bind fun b s' holds => .pure holds

theorem walk_get_bind {f : σ → ExceptT ε (StateT σ Session) β}
    (rest : Leads (f s).run s (Outcome Q E)) : Leads (get >>= f).run s (Outcome Q E) := rest

theorem walk_modify {next : σ → σ} {Q : PUnit → σ → Prop} (holds : Q ⟨⟩ (next s)) :
    Leads (modify next : ExceptT ε (StateT σ Session) PUnit).run s (Outcome Q E) := by
  intro j a s' j' ran
  cases ran
  exact holds

end Leads

end Session

end AdaptiveLL
