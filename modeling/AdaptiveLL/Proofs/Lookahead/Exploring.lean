import AdaptiveLL.Proofs.Lookahead.Walks

/-!
# What a lookahead walk finds

Whatever a walk sees for the first time it explores to the end: when the walk is over it has also seen where that
leads without consuming, and it has noted the symbols that can be consumed there (`Explores`). Walks one after the
other explore what each of them does (`Explores.trans`), and so a walk from a state explores the state
(`Walks.explores`). A walk that begins with nothing seen therefore has seen in the end just the threads that are
reached without consuming, and it has found what these show (`Walks.found_iff`).
-/

set_option autoImplicit false

namespace AdaptiveLL.Network

variable {net : Network} {g : Grammar} {bottom y : Int} {depth n : Nat} {stack called : List Nat} {acc acc' : Look}
  {t : Transition} {θ θ' : Thread}

/-! ## What threads show -/

/-- The second thread is reached from the first without consuming. -/
abbrev Reach (net : Network) : Thread → Thread → Prop :=
  Relation.ReflTransGen fun θ θ' => θ' ∈ net.silentNext θ

/-- A thread shows the symbols that can be consumed where it is. Where the stack ends the end of a rule shows the
symbol that stands there. -/
inductive Shows (net : Network) (bottom : Int) : Thread → Int → Prop
  | ends {n : Nat} (stop : net.isStop n = true) : Shows net bottom ⟨n, []⟩ bottom
  | token {n : Nat} {stack : List Nat} {t : Transition} {y : Int} (inner : net.isStop n = false)
    (member : t ∈ net.out n) (symbol : (net.noted t).contains y = true) : Shows net bottom ⟨n, stack⟩ y

theorem mem_silentNext (inner : net.isStop n = false) :
    θ ∈ net.silentNext ⟨n, stack⟩ ↔ ∃ t ∈ net.out n, silentMove stack t.move = some θ := by
  simp only [silentNext, inner, Bool.false_eq_true, if_false, moves, List.mem_filterMap, List.mem_map,
    exists_exists_and_eq_and]

/-- A walk goes on wherever a thread does that consumes nothing. -/
theorem Frames.descends_iff (calls : net.CallsStarts) (progressive : net.Progressive)
    (frames : net.Frames depth n stack called) (inner : net.isStop n = false) (member : t ∈ net.out n) :
    silentMove stack t.move = some θ ↔
      ∃ called', Network.descends stack called t = some (θ.state, θ.stack, called') := by
  obtain ⟨m, stack'⟩ := θ
  unfold Network.descends
  cases move : t.move with
  | free m' => simp [silentMove]
  | consume m' => simp [silentMove]
  | call r start follow =>
    have call : .call r start follow ∈ net.moves n := List.mem_map.2 ⟨t, member, move⟩
    simp [silentMove, frames.not_called calls progressive inner call]

/-- Nothing is noted at a transition that consumes nothing. -/
theorem noted_of_silent (silent : silentMove stack t.move = some θ) : (net.noted t).contains y = false := by
  unfold Transition.move at silent
  unfold noted
  cases label : t.label with
  | epsilon | rule | predicate | action | precedence => rfl
  | range | atom | set | notSet | wildcard =>
    rw [label] at silent
    cases silent

/-! ## Exploration -/

/-- From what was known before to what is known then the starts are explored, and symbols are noted besides. -/
structure Explores (net : Network) (bottom : Int) (starts : Thread → Prop) (besides : Int → Prop) (acc acc' : Look) :
    Prop where
  grows : ∀ θ, acc.Saw θ → acc'.Saw θ
  keeps : ∀ y, acc.found.contains y = true → acc'.found.contains y = true
  arrives : ∀ θ, starts θ → acc'.Saw θ
  notes : ∀ y, besides y → acc'.found.contains y = true
  closed : ∀ θ, acc'.Saw θ → acc.Saw θ ∨
    (∀ θ' ∈ net.silentNext θ, acc'.Saw θ') ∧ ∀ y, net.Shows bottom θ y → acc'.found.contains y = true
  reached : ∀ θ, acc'.Saw θ → acc.Saw θ ∨ ∃ start, starts start ∧ net.Reach start θ
  justified : ∀ y, acc'.found.contains y = true → acc.found.contains y = true ∨ besides y ∨
    ∃ start θ, starts start ∧ net.Reach start θ ∧ net.Shows bottom θ y
  canonical : acc.found.Canonical → acc'.found.Canonical

namespace Explores

variable {starts starts' : Thread → Prop} {besides besides' : Int → Prop} {acc'' : Look}

theorem congr (explores : net.Explores bottom starts besides acc acc') (sameStarts : ∀ θ, starts θ ↔ starts' θ)
    (sameBesides : ∀ y, besides y ↔ besides' y) : net.Explores bottom starts' besides' acc acc' := by
  obtain rfl : starts = starts' := funext fun θ => propext (sameStarts θ)
  obtain rfl : besides = besides' := funext fun y => propext (sameBesides y)
  exact explores

/-- What was seen before is explored already. -/
theorem refl (seen : ∀ θ, starts θ → acc.Saw θ) : net.Explores bottom starts (fun _ => False) acc acc where
  grows _ saw := saw
  keeps _ found := found
  arrives := seen
  notes _ absurd := absurd.elim
  closed _ saw := .inl saw
  reached _ saw := .inl saw
  justified _ found := .inl found
  canonical canonical := canonical

theorem note (acc : Look) (symbols : SymbolSet) :
    net.Explores bottom (fun _ => False) (fun y => symbols.contains y = true) acc (acc.note symbols) where
  grows _ saw := saw
  keeps _ found := (SymbolSet.contains_union _ _ _).2 (.inl found)
  arrives _ absurd := absurd.elim
  notes _ noted := (SymbolSet.contains_union _ _ _).2 (.inr noted)
  closed _ saw := .inl saw
  reached _ saw := .inl saw
  justified _ found := ((SymbolSet.contains_union _ _ _).1 found).imp_right .inl
  canonical canonical := canonical.union symbols

theorem trans (first : net.Explores bottom starts besides acc acc')
    (second : net.Explores bottom starts' besides' acc' acc'') :
    net.Explores bottom (fun θ => starts θ ∨ starts' θ) (fun y => besides y ∨ besides' y) acc acc'' where
  grows θ saw := second.grows θ (first.grows θ saw)
  keeps y found := second.keeps y (first.keeps y found)
  arrives θ start := start.elim (fun start => second.grows θ (first.arrives θ start)) (second.arrives θ)
  notes y noted := noted.elim (fun noted => second.keeps y (first.notes y noted)) (second.notes y)
  closed θ saw := by
    rcases second.closed θ saw with saw | closed
    · rcases first.closed θ saw with saw | ⟨next, shown⟩
      · exact .inl saw
      · exact .inr ⟨fun θ' step => second.grows θ' (next θ' step), fun y shows' => second.keeps y (shown y shows')⟩
    · exact .inr closed
  reached θ saw := by
    rcases second.reached θ saw with saw | ⟨start, isStart, reach⟩
    · rcases first.reached θ saw with saw | ⟨start, isStart, reach⟩
      · exact .inl saw
      · exact .inr ⟨start, .inl isStart, reach⟩
    · exact .inr ⟨start, .inr isStart, reach⟩
  justified y found := by
    rcases second.justified y found with found | besides | ⟨start, θ, isStart, reach⟩
    · rcases first.justified y found with found | besides | ⟨start, θ, isStart, reach⟩
      · exact .inl found
      · exact .inr (.inl (.inl besides))
      · exact .inr (.inr ⟨start, θ, .inl isStart, reach⟩)
    · exact .inr (.inl (.inr besides))
    · exact .inr (.inr ⟨start, θ, .inr isStart, reach⟩)
  canonical canonical := second.canonical (first.canonical canonical)

/-- A thread is explored by exploring where it goes without consuming, and noting what it shows. -/
theorem enter (explores : net.Explores bottom starts besides (acc.visit θ) acc')
    (next : ∀ θ', starts θ' ↔ θ' ∈ net.silentNext θ) (shown : ∀ y, besides y ↔ net.Shows bottom θ y) :
    net.Explores bottom (· = θ) (fun _ => False) acc acc' where
  grows θ' saw := explores.grows θ' (Look.saw_visit.2 (.inr saw))
  keeps := explores.keeps
  arrives θ' same := explores.grows θ' (Look.saw_visit.2 (.inl same))
  notes _ absurd := absurd.elim
  closed θ' saw := by
    rcases explores.closed θ' saw with saw | closed
    · rcases Look.saw_visit.1 saw with rfl | saw
      · exact .inr ⟨fun θ'' step => explores.arrives θ'' ((next θ'').2 step),
          fun y shows' => explores.notes y ((shown y).2 shows')⟩
      · exact .inl saw
    · exact .inr closed
  reached θ' saw := by
    rcases explores.reached θ' saw with saw | ⟨start, isStart, reach⟩
    · rcases Look.saw_visit.1 saw with rfl | saw
      · exact .inr ⟨_, rfl, .refl⟩
      · exact .inl saw
    · exact .inr ⟨θ, rfl, .head ((next start).1 isStart) reach⟩
  justified y found := by
    rcases explores.justified y found with found | besides | ⟨start, θ', isStart, reach, shows'⟩
    · exact .inl found
    · exact .inr (.inr ⟨θ, θ, rfl, .refl, (shown y).1 besides⟩)
    · exact .inr (.inr ⟨θ, θ', rfl, .head ((next start).1 isStart) reach, shows'⟩)
  canonical := explores.canonical

end Explores

/-- A walk explores the thread it begins with. -/
theorem Walks.explores (built : net.Built g) (progressive : net.Progressive)
    (walks : net.Walks bottom n stack called acc acc') (frames : net.Frames depth n stack called) :
    net.Explores bottom (· = ⟨n, stack⟩) (fun _ => False) acc acc' := by
  induction walks with
  | @again n stack called acc seen =>
    exact .refl fun θ same => same ▸ seen
  | @ends n called acc new stop =>
    have same : ({ acc.visit ⟨n, []⟩ with found := acc.found.add bottom } : Look) =
        (acc.visit ⟨n, []⟩).note (.singleton bottom) :=
      congrArg (fun found => { acc.visit ⟨n, []⟩ with found }) (addRange_eq_union _ _ _)
    rw [same]
    refine (Explores.note _ _).enter (fun θ' => ?_) fun y => (SymbolSet.contains_singleton _ _).trans ?_
    · simp [silentNext, stop]
    · constructor
      · rintro rfl
        exact .ends stop
      · intro shown
        cases shown with
        | ends => rfl
        | token inner => cases inner.symm.trans stop
  | @returns n ret stack called acc acc' new stop rest ih =>
    refine (ih (frames.back built progressive stop)).enter (fun θ' => ?_) fun y => ?_
    · simp [silentNext, stop]
    · refine ⟨False.elim, fun shown => ?_⟩
      cases shown with
      | token inner => cases inner.symm.trans stop
  | @crosses n stack called acc new inner after start notes goes ih =>
    -- Behind the first transitions the walk has explored where these lead, and noted their symbols.
    have explored (i : Nat) (most : i ≤ (net.out n).length) : net.Explores bottom
        (fun θ => ∃ t ∈ (net.out n).take i, silentMove stack t.move = some θ)
        (fun y => ∃ t ∈ (net.out n).take i, (net.noted t).contains y = true) (after 0) (after i) := by
      induction i with
      | zero =>
        have nothing : net.Explores bottom (fun _ => False) (fun _ => False) (after 0) (after 0) :=
          .refl fun _ => False.elim
        exact nothing.congr (by simp) (by simp)
      | succ i ihOut =>
        obtain ⟨t, found⟩ : ∃ t, (net.out n)[i]? = some t := ⟨_, List.getElem?_eq_getElem most⟩
        have member : t ∈ net.out n := List.mem_of_getElem? found
        have further : net.Explores bottom (fun θ => silentMove stack t.move = some θ)
            (fun y => (net.noted t).contains y = true) (after i) (after (i + 1)) := by
          cases silent : silentMove stack t.move with
          | none =>
            have stays : descends stack called t = none := by
              refine Option.eq_none_iff_forall_ne_some.2 fun next goes' => ?_
              have := (frames.descends_iff built.calls progressive inner member (θ := ⟨next.1, next.2.1⟩)).2
                ⟨next.2.2, goes'⟩
              rw [silent] at this
              cases this
            rw [notes i t found stays]
            exact (Explores.note _ _).congr (by simp) fun _ => Iff.rfl
          | some θ =>
            obtain ⟨called', goes'⟩ := (frames.descends_iff built.calls progressive inner member).1 silent
            refine (ih i t θ.state θ.stack called' found goes' (frames.descends inner member goes')).congr
              (fun θ' => ?_) fun y => ?_
            · rw [Option.some_inj, eq_comm]
            · rw [noted_of_silent silent, false_iff]
              exact Bool.false_ne_true
        refine ((ihOut (Nat.le_of_succ_le most)).trans further).congr (fun θ => ?_) fun y => ?_
        · simp only [List.take_add_one, found, Option.toList_some, List.mem_append, List.mem_singleton, or_and_right,
            exists_or, exists_eq_left]
        · simp only [List.take_add_one, found, Option.toList_some, List.mem_append, List.mem_singleton, or_and_right,
            exists_or, exists_eq_left]
    have whole := explored (net.out n).length (Nat.le_refl _)
    rw [start, List.take_length] at whole
    refine whole.enter (fun θ' => (mem_silentNext inner).symm) fun y => ⟨?_, fun shown => ?_⟩
    · rintro ⟨t, member, symbol⟩
      exact .token inner member symbol
    · cases shown with
      | ends stop => cases inner.symm.trans stop
      | token _ member symbol => exact ⟨_, member, symbol⟩

/-! ## Walks from the start -/

section Found

variable (built : net.Built g) (progressive : net.Progressive) (walks : net.Walks bottom n stack [] {} acc)
include built progressive walks

/-- A walk sees just what is reached from where it begins. -/
theorem Walks.saw_iff : acc.Saw θ ↔ net.Reach ⟨n, stack⟩ θ := by
  have explores := walks.explores built progressive (.ground (Nat.le_refl _))
  constructor
  · intro saw
    obtain ⟨_, rfl, reach⟩ := (explores.reached θ saw).resolve_left Look.not_saw_empty
    exact reach
  · intro reach
    induction reach with
    | refl => exact explores.arrives _ rfl
    | tail _ step ih => exact ((explores.closed _ ih).resolve_left Look.not_saw_empty).1 _ step

/-- A walk finds just the symbols that are shown where it is. -/
theorem Walks.found_iff : acc.found.contains y = true ↔ ∃ θ, net.Reach ⟨n, stack⟩ θ ∧ net.Shows bottom θ y := by
  have explores := walks.explores built progressive (.ground (Nat.le_refl _))
  constructor
  · intro found
    obtain old | absurd | ⟨_, θ, rfl, reach, shown⟩ := explores.justified y found
    · cases old
    · exact absurd.elim
    · exact ⟨θ, reach, shown⟩
  · rintro ⟨θ, reach, shown⟩
    have saw := (walks.saw_iff built progressive).2 reach
    exact ((explores.closed θ saw).resolve_left Look.not_saw_empty).2 y shown

theorem Walks.canonical : acc.found.Canonical :=
  (walks.explores built progressive (.ground (Nat.le_refl _))).canonical SymbolSet.canonical_empty

end Found

end AdaptiveLL.Network
