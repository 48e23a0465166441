import AdaptiveLL.Proofs.Guards.Evaluation

/-!
# Answering the precedence predicates of a guard

Once the precedence of a rule call is known, the precedence predicates of a guard can be answered while its
other predicates stay open. Only the precedence predicates are asked for that (`resolve_asks_precedence`).
What is left mentions no precedence and has the value of the guard, whatever the open predicates will be found
to be, and where nothing is left the guard fails with all of them (`resolve_exact`).

A conjunction or disjunction none of whose operands changes is kept as it stands. Otherwise its operands are put
together anew, by connectives that bring in no precedence predicates of their own (`PrecedenceFree.and`,
`PrecedenceFree.or`).
-/

set_option autoImplicit false

namespace AdaptiveLL.Guard

variable {η : Type} {ev : Evaluator η} {level : Int} {a b g : Guard} {gs : List Guard}

/-! ## Guards that mention no precedence -/

/-- No precedence predicate stands in the guard, at any depth. -/
inductive PrecedenceFree : Guard → Prop
  | always : PrecedenceFree .always
  | predicate (rule pred : Nat) (ctxDependent : Bool) : PrecedenceFree (.predicate rule pred ctxDependent)
  | all {gs : List Guard} (operands : ∀ g ∈ gs, PrecedenceFree g) : PrecedenceFree (.all gs)
  | any {gs : List Guard} (operands : ∀ g ∈ gs, PrecedenceFree g) : PrecedenceFree (.any gs)

theorem PrecedenceFree.of_mem_conjuncts (free : PrecedenceFree a) (member : g ∈ a.conjuncts) :
    PrecedenceFree g := by
  cases free with
  | all operands => exact operands g member
  | always | predicate | any =>
    obtain rfl := List.mem_singleton.1 member
    constructor <;> assumption

theorem PrecedenceFree.of_mem_disjuncts (free : PrecedenceFree a) (member : g ∈ a.disjuncts) :
    PrecedenceFree g := by
  cases free with
  | any operands => exact operands g member
  | always | predicate | all =>
    obtain rfl := List.mem_singleton.1 member
    constructor <;> assumption

/-- A connective whose guards mention no precedence if their operands do not joins such guards to one. -/
theorem PrecedenceFree.join {k : Connective} {better : Int → Int → Prop} (lawful : k.Lawful better)
    (make : ∀ {gs}, (∀ g ∈ gs, PrecedenceFree g) → PrecedenceFree (k.make gs))
    (operands : ∀ g, g ∈ k.operands a ∨ g ∈ k.operands b → PrecedenceFree g) :
    PrecedenceFree (k.join a b) := by
  have members (g : Guard) (member : g ∈ canonical k.choose (k.operands a ++ k.operands b)) :
      PrecedenceFree g := operands g (Connective.mem_operands_of_canonical lawful member)
  unfold Connective.join
  rcases combine_eq k.make (canonical k.choose (k.operands a ++ k.operands b)) with member | made
  · exact members _ member
  · rw [made]
    exact make members

theorem PrecedenceFree.and (freeA : PrecedenceFree a) (freeB : PrecedenceFree b) :
    PrecedenceFree (a.and b) := by
  rcases eq_always_or_open a with rfl | openA
  · exact freeB
  rcases eq_always_or_open b with rfl | openB
  · rwa [and_always]
  rw [and_eq_join openA openB]
  exact .join Connective.lawful_conj .all fun g member =>
    member.elim freeA.of_mem_conjuncts freeB.of_mem_conjuncts

theorem PrecedenceFree.or (freeA : PrecedenceFree a) (freeB : PrecedenceFree b) :
    PrecedenceFree (a.or b) := by
  rcases eq_always_or_open a with rfl | openA
  · exact freeA
  rcases eq_always_or_open b with rfl | openB
  · rwa [or_always]
  rw [or_eq_join openA openB]
  exact .join Connective.lawful_disj .any fun g member =>
    member.elim freeA.of_mem_disjuncts freeB.of_mem_disjuncts

/-- The conjunction of a list holds if all its members do. -/
theorem holds_foldl_and {answer : Nat → Nat → Bool} (a : Guard) (gs : List Guard) :
    (gs.foldl Guard.and a).holds answer level =
      (a.holds answer level && gs.all (·.holds answer level)) := by
  induction gs generalizing a with
  | nil => simp
  | cons g gs ih => rw [List.foldl_cons, ih, holds_and, List.all_cons, Bool.and_assoc]

/-- The disjunction of a list holds if one of its members does. -/
theorem holds_foldl_or {answer : Nat → Nat → Bool} (a : Guard) (gs : List Guard) :
    (gs.foldl Guard.or a).holds answer level =
      (a.holds answer level || gs.any (·.holds answer level)) := by
  induction gs generalizing a with
  | nil => simp
  | cons g gs ih => rw [List.foldl_cons, ih, holds_or, List.any_cons, Bool.or_assoc]

/-! ## Only the precedence predicates are asked -/

mutual

theorem resolve_asks_precedence (predicate : Nat → Nat → η → Bool × η) (g : Guard) :
    resolve { ev with predicate } g = resolve ev g := by
  cases g with
  | always | predicate | precedence => rfl
  | all gs => rw [resolve, resolve, resolveAll_asks_precedence predicate gs]
  | any gs => rw [resolve, resolve, resolveAny_asks_precedence predicate gs]

theorem resolveAll_asks_precedence (predicate : Nat → Nat → η → Bool × η) (gs : List Guard) :
    resolveAll { ev with predicate } gs = resolveAll ev gs := by
  cases gs with
  | nil => rfl
  | cons g gs =>
    rw [resolveAll, resolveAll, resolve_asks_precedence predicate g, resolveAll_asks_precedence predicate gs]

theorem resolveAny_asks_precedence (predicate : Nat → Nat → η → Bool × η) (gs : List Guard) :
    resolveAny { ev with predicate } gs = resolveAny ev gs := by
  cases gs with
  | nil => rfl
  | cons g gs =>
    rw [resolveAny, resolveAny, resolve_asks_precedence predicate g, resolveAny_asks_precedence predicate gs]

end

/-! ## What is left of a guard -/

/-- What is left of a guard at a precedence, whatever the open predicates will be found to be. -/
def LeftOf (level : Int) (g : Guard) : Option Guard → Prop
  | none => ∀ answer, g.holds answer level = false
  | some r => r.PrecedenceFree ∧ ∀ answer, r.holds answer level = g.holds answer level

/-- What is left of the operands of a conjunction, unless one of them fails. -/
def LeftOfAll (level : Int) (gs : List Guard) : Option (List Guard) → Prop
  | none => ∀ answer, gs.all (·.holds answer level) = false
  | some rs => (∀ r ∈ rs, PrecedenceFree r) ∧
      ∀ answer, rs.all (·.holds answer level) = gs.all (·.holds answer level)

/-- What is left of the operands of a disjunction, unless one of them holds always. -/
def LeftOfAny (level : Int) (gs : List Guard) : Option (List (Option Guard)) → Prop
  | none => ∀ answer, gs.any (·.holds answer level) = true
  | some rs => (∀ r ∈ rs.filterMap id, PrecedenceFree r) ∧
      ∀ answer, (rs.filterMap id).any (·.holds answer level) = gs.any (·.holds answer level)

/-- Operands that hold always do not count in a conjunction. -/
theorem all_holds_filter {answer : Nat → Nat → Bool} (gs : List Guard) :
    (gs.filter (!·.isAlways)).all (·.holds answer level) = gs.all (·.holds answer level) := by
  induction gs with
  | nil => rfl
  | cons g gs ih =>
    rcases eq_always_or_open g with rfl | openG
    · rw [List.filter_cons_of_neg (by simp [isAlways]), ih, List.all_cons, Guard.holds, Bool.true_and]
    · rw [List.filter_cons_of_pos (by simp [openG]), List.all_cons, List.all_cons, ih]

/-- A conjunction is put together again from what is left of its operands. -/
theorem LeftOfAll.conjunction {rs : List Guard} (left : LeftOfAll level gs (some rs)) :
    LeftOf level (.all gs)
      (some (if rs = gs then .all gs else (rs.filter (!·.isAlways)).foldl Guard.and .always)) := by
  obtain ⟨free, values⟩ := left
  split
  · rename_i same
    subst same
    exact ⟨.all free, fun _ => rfl⟩
  · refine ⟨List.foldlRecOn (motive := PrecedenceFree) _ _ .always fun _ before r member =>
      before.and (free r (List.mem_of_mem_filter member)), fun answer => ?_⟩
    rw [holds_foldl_and, Guard.holds, Bool.true_and, all_holds_filter, values, holds_all]

/-- A disjunction is put together again from what is left of its operands; it fails if all of them do. -/
theorem LeftOfAny.disjunction {rs : List (Option Guard)} (left : LeftOfAny level gs (some rs)) :
    LeftOf level (.any gs) (if rs = gs.map some then some (.any gs) else
      match rs.filterMap id with
      | [] => none
      | first :: rest => some (rest.foldl Guard.or first)) := by
  obtain ⟨free, values⟩ := left
  split
  · rename_i same
    have kept : rs.filterMap id = gs := by rw [same, List.filterMap_map, Function.id_comp, List.filterMap_some]
    rw [kept] at free
    exact ⟨.any free, fun _ => rfl⟩
  · cases remain : rs.filterMap id with
    | nil =>
      intro answer
      rw [holds_any, ← values, remain]
      rfl
    | cons first rest =>
      rw [remain, List.forall_mem_cons] at free
      refine ⟨List.foldlRecOn (motive := PrecedenceFree) _ _ free.1 fun _ before r member =>
        before.or (free.2 r member), fun answer => ?_⟩
      rw [holds_foldl_or, holds_any, ← values, remain, List.any_cons]

/-! ## Resolution -/

/-- A computation goes on with what the first step gave. -/
theorem run_bind {α β : Type} {x : StateM η α} {f : α → StateM η β} {a : α} {h h' : η} (run : x h = (a, h')) :
    (x >>= f) h = f a h' := by
  change f (x h).1 (x h).2 = _
  rw [run]

mutual

/-- At a precedence, a guard is resolved to what is left of it, and nothing else happens. -/
theorem resolve_left (answers : ∀ p h, ev.precedence p h = (decide (level ≤ p), h)) (g : Guard) (h : η) :
    ∃ r, resolve ev g h = (r, h) ∧ LeftOf level g r := by
  cases g with
  | always => exact ⟨_, rfl, .always, fun _ => rfl⟩
  | predicate rule pred c => exact ⟨_, rfl, .predicate rule pred c, fun _ => rfl⟩
  | precedence p =>
    rw [resolve, run_bind (answers p h)]
    cases reached : decide (level ≤ p) with
    | false => exact ⟨none, rfl, fun _ => reached⟩
    | true => exact ⟨some .always, rfl, .always, fun _ => reached.symm⟩
  | all gs =>
    obtain ⟨r, run, left⟩ := resolveAll_left answers gs h
    rw [resolve, run_bind run]
    cases r with
    | none => exact ⟨none, rfl, fun answer => holds_all.trans (left answer)⟩
    | some rs =>
      refine ⟨_, ?_, left.conjunction⟩
      dsimp only
      split <;> rfl
  | any gs =>
    obtain ⟨r, run, left⟩ := resolveAny_left answers gs h
    rw [resolve, run_bind run]
    cases r with
    | none => exact ⟨some .always, rfl, .always, fun answer => (holds_any.trans (left answer)).symm⟩
    | some rs =>
      refine ⟨_, ?_, left.disjunction⟩
      dsimp only
      split
      · rfl
      · cases rs.filterMap id <;> rfl

theorem resolveAll_left (answers : ∀ p h, ev.precedence p h = (decide (level ≤ p), h)) (gs : List Guard)
    (h : η) : ∃ r, resolveAll ev gs h = (r, h) ∧ LeftOfAll level gs r := by
  cases gs with
  | nil => exact ⟨_, rfl, List.forall_mem_nil _, fun _ => rfl⟩
  | cons g gs =>
    obtain ⟨r, run, left⟩ := resolve_left answers g h
    obtain ⟨rs, runs, lefts⟩ := resolveAll_left answers gs h
    rw [resolveAll, run_bind run]
    cases r with
    | none => exact ⟨none, rfl, fun answer => by rw [List.all_cons, left answer, Bool.false_and]⟩
    | some r =>
      dsimp only
      rw [run_bind runs]
      cases rs with
      | none => exact ⟨none, rfl, fun answer => by rw [List.all_cons, lefts answer, Bool.and_false]⟩
      | some rs =>
        refine ⟨_, rfl, List.forall_mem_cons.2 ⟨left.1, lefts.1⟩, fun answer => ?_⟩
        rw [List.all_cons, List.all_cons, left.2, lefts.2]

theorem resolveAny_left (answers : ∀ p h, ev.precedence p h = (decide (level ≤ p), h)) (gs : List Guard)
    (h : η) : ∃ r, resolveAny ev gs h = (r, h) ∧ LeftOfAny level gs r := by
  cases gs with
  | nil => exact ⟨_, rfl, List.forall_mem_nil _, fun _ => rfl⟩
  | cons g gs =>
    obtain ⟨r, run, left⟩ := resolve_left answers g h
    obtain ⟨rs, runs, lefts⟩ := resolveAny_left answers gs h
    rw [resolveAny, run_bind run]
    split
    · refine ⟨none, rfl, fun answer => ?_⟩
      rw [List.any_cons, ← left.2, Guard.holds, Bool.true_or]
    · rw [run_bind runs]
      cases rs with
      | none => exact ⟨none, rfl, fun answer => by rw [List.any_cons, lefts answer, Bool.or_true]⟩
      | some rs =>
        refine ⟨_, rfl, ?_⟩
        cases r with
        | none =>
          refine ⟨lefts.1, fun answer => ?_⟩
          rw [List.any_cons, left answer, Bool.false_or]
          exact lefts.2 answer
        | some r =>
          refine ⟨List.forall_mem_cons.2 ⟨left.1, lefts.1⟩, fun answer => ?_⟩
          rw [List.any_cons, ← left.2, ← lefts.2]
          rfl

end

/-- **Partial evaluation of precedences.** An evaluator whose precedence predicates compare with that of the
rule call resolves any guard without asking a predicate or changing its state. If nothing is left, the guard
fails; otherwise what is left mentions no precedence and has the value of the guard. This is so however the
predicates are answered when the guard is evaluated at that precedence. -/
theorem resolve_exact (answers : ∀ p h, ev.precedence p h = (decide (level ≤ p), h)) (g : Guard) (h : η) :
    (∀ predicate, resolve { ev with predicate } g = resolve ev g) ∧
    ∃ left, resolve ev g h = (left, h) ∧
      match left with
      | none => ∀ (answer : Nat → Nat → Bool) (ev' : Evaluator η) (h' : η), ev'.Steady answer level →
          eval ev' g h' = (false, h')
      | some r => r.PrecedenceFree ∧
          ∀ (answer : Nat → Nat → Bool) (ev' : Evaluator η) (h' : η), ev'.Steady answer level →
            eval ev' r h' = eval ev' g h' := by
  refine ⟨fun predicate => resolve_asks_precedence predicate g, ?_⟩
  obtain ⟨left, run, spec⟩ := resolve_left answers g h
  refine ⟨left, run, ?_⟩
  cases left with
  | none =>
    intro answer ev' h' steady
    rw [eval_eq_holds steady, spec answer]
  | some r =>
    refine ⟨spec.1, fun answer ev' h' steady => ?_⟩
    rw [eval_eq_holds steady, eval_eq_holds steady, spec.2 answer]

/-- At precedence 2, with predicates that are counted when they are asked: a conjunction keeps its predicate,
of a disjunction the failing side is dropped, and a conjunction with a precedence that is too low fails. -/
theorem resolve_exact_nested :
    let ev : Evaluator Nat := ⟨fun _ _ asked => (true, asked + 1), fun p asked => (decide (2 ≤ p), asked)⟩
    let open' := all [any [predicate 0 1 false, precedence 1], precedence 3]
    let failing := all [predicate 0 1 false, precedence 1]
    (∀ p asked, ev.precedence p asked = (decide ((2 : Int) ≤ p), asked)) ∧
    resolve ev open' 0 = (some (predicate 0 1 false), 0) ∧ resolve ev failing 0 = (none, 0) ∧
    (∀ answer (ev' : Evaluator Nat) asked, ev'.Steady answer 2 →
      eval ev' (predicate 0 1 false) asked = eval ev' open' asked) ∧
    ∀ answer (ev' : Evaluator Nat) asked, ev'.Steady answer 2 → eval ev' failing asked = (false, asked) := by
  intro ev open' failing
  have answers : ∀ p asked, ev.precedence p asked = (decide ((2 : Int) ≤ p), asked) := fun _ _ => rfl
  have opened : resolve ev open' 0 = (some (predicate 0 1 false), 0) := rfl
  have failed : resolve ev failing 0 = (none, 0) := rfl
  obtain ⟨-, left, run, spec⟩ := resolve_exact answers open' 0
  obtain ⟨-, left', run', spec'⟩ := resolve_exact answers failing 0
  obtain rfl : left = some (predicate 0 1 false) := congrArg Prod.fst (run.symm.trans opened)
  obtain rfl : left' = none := congrArg Prod.fst (run'.symm.trans failed)
  exact ⟨answers, opened, failed, spec.2, spec'⟩

end AdaptiveLL.Guard
