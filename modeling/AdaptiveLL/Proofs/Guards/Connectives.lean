import AdaptiveLL.Proofs.Guards.Order

/-!
# The algebra of guards

A conjunction and a disjunction are put together in one way: the operands of both sides are listed, one
precedence predicate stands for all of them, and the rest are put in order (`Connective.join`). The operands
of the result are determined by which guards there are among those of the two sides, apart from the
precedence predicates, of which the best one counts. For guards that have been put together in this way
(`Collected`) the two connectives therefore are commutative, associative and idempotent, not only as far as
the value of a guard goes but as far as its form goes (`connectives_lawful`).
-/

set_option autoImplicit false

namespace AdaptiveLL.Guard

/-! ## Choosing one precedence -/

/-- Of a list of precedences the best one is chosen, if there is any. -/
structure Picks (choose : List Int → Option Int) (better : Int → Int → Prop) : Prop where
  eq_some_iff : ∀ {l : List Int} {p : Int}, choose l = some p ↔ p ∈ l ∧ ∀ q ∈ l, better p q
  eq_none_iff : ∀ {l : List Int}, choose l = none ↔ l = []
  trans : ∀ {p q r : Int}, better p q → better q r → better p r
  antisymm : ∀ {p q : Int}, better p q → better q p → p = q

theorem picks_min : Picks List.min? (· ≤ ·) where
  eq_some_iff := List.min?_eq_some_iff
  eq_none_iff := List.min?_eq_none_iff
  trans := Int.le_trans
  antisymm := Int.le_antisymm

theorem picks_max : Picks List.max? (· ≥ ·) where
  eq_some_iff := List.max?_eq_some_iff
  eq_none_iff := List.max?_eq_none_iff
  trans first second := Int.le_trans second first
  antisymm first second := Int.le_antisymm second first

section Canonical

variable {choose : List Int → Option Int} {better : Int → Int → Prop} {gs hs : List Guard} {g : Guard}

theorem mem_filterMap_precedence {p : Int} :
    p ∈ gs.filterMap precedence? ↔ precedence p ∈ gs := by
  rw [List.mem_filterMap]
  constructor
  · rintro ⟨g, member, found⟩
    cases g <;> cases found
    exact member
  · exact fun member => ⟨_, member, rfl⟩

/-- The operands in order, with one precedence predicate for all of them. -/
def canonical (choose : List Int → Option Int) (gs : List Guard) : List Guard :=
  ordered (reducePrecedence choose gs)

theorem mem_canonical (picks : Picks choose better) :
    g ∈ canonical choose gs ↔ (g ∈ gs ∧ g.precedence? = none) ∨
      ∃ p, g = precedence p ∧ choose (gs.filterMap precedence?) = some p := by
  rw [canonical, mem_ordered, reducePrecedence]
  cases chosen : choose (gs.filterMap precedence?) with
  | none =>
    have open' : g ∈ gs → g.precedence? = none := by
      have empty := picks.eq_none_iff.1 chosen
      rw [List.filterMap_eq_nil_iff] at empty
      exact empty g
    simpa using open'
  | some p => simp

/-- The precedence that is chosen is one of those that were there. -/
theorem subset_canonical (picks : Picks choose better) (member : g ∈ canonical choose gs) : g ∈ gs := by
  rcases (mem_canonical picks).1 member with ⟨member, -⟩ | ⟨p, rfl, chosen⟩
  · exact member
  · exact mem_filterMap_precedence.1 (picks.eq_some_iff.1 chosen).1

theorem Picks.congr (picks : Picks choose better) {l l' : List Int} (same : ∀ p, p ∈ l ↔ p ∈ l') :
    choose l = choose l' := by
  refine Option.ext fun p => ?_
  rw [picks.eq_some_iff, picks.eq_some_iff]
  simp only [same]

theorem pairwise_canonical (choose : List Int → Option Int) (gs : List Guard) :
    (canonical choose gs).Pairwise Before := pairwise_ordered _

/-- Only which guards there are counts. -/
theorem canonical_congr (picks : Picks choose better) (same : ∀ g, g ∈ gs ↔ g ∈ hs) :
    canonical choose gs = canonical choose hs := by
  have precedences : choose (gs.filterMap precedence?) = choose (hs.filterMap precedence?) :=
    picks.congr fun p => by simp only [mem_filterMap_precedence, same]
  refine (pairwise_canonical ..).eq_of_mem_iff (pairwise_canonical ..) fun g => ?_
  rw [mem_canonical picks, mem_canonical picks, same, precedences]

/-- The best of all precedences is the best among that of one part and those of the other part. -/
theorem Picks.append (picks : Picks choose better) {l m : List Int} :
    choose ((choose l).toList ++ m) = choose (l ++ m) := by
  cases chosen : choose l with
  | none => rw [picks.eq_none_iff.1 chosen, Option.toList_none]
  | some b =>
    obtain ⟨there, best⟩ := picks.eq_some_iff.1 chosen
    refine Option.ext fun p => ?_
    rw [picks.eq_some_iff, picks.eq_some_iff]
    simp only [Option.toList_some, List.mem_append, List.mem_singleton]
    constructor
    · rintro ⟨member, atBest⟩
      refine ⟨member.imp_left (by rintro rfl; exact there), fun q member' => ?_⟩
      rcases member' with member' | member'
      · exact picks.trans (atBest b (.inl rfl)) (best q member')
      · exact atBest q (.inr member')
    · rintro ⟨member, atBest⟩
      refine ⟨member.imp_left fun member => ?_, fun q member' => ?_⟩
      · exact picks.antisymm (atBest b (.inl there)) (best p member)
      · exact atBest q (member'.imp_left (by rintro rfl; exact there))

/-- A part may be brought into canonical form first. -/
theorem canonical_append_left (picks : Picks choose better) :
    canonical choose (canonical choose gs ++ hs) = canonical choose (gs ++ hs) := by
  have precedences : choose ((canonical choose gs ++ hs).filterMap precedence?) =
      choose ((gs ++ hs).filterMap precedence?) := by
    rw [List.filterMap_append, List.filterMap_append, ← picks.append (l := gs.filterMap precedence?)]
    refine picks.congr fun p => ?_
    simp only [List.mem_append]
    refine or_congr_left ?_
    rw [mem_filterMap_precedence, mem_canonical picks, Option.mem_toList]
    simp [precedence?]
  refine (pairwise_canonical ..).eq_of_mem_iff (pairwise_canonical ..) fun g => ?_
  rw [mem_canonical picks, mem_canonical picks, precedences]
  refine or_congr_left (and_congr_left fun free => ?_)
  rw [List.mem_append, List.mem_append, mem_canonical picks]
  refine or_congr_left ⟨?_, fun member => .inl ⟨member, free⟩⟩
  rintro (⟨member, -⟩ | ⟨p, rfl, -⟩)
  · exact member
  · cases free

theorem canonical_append_comm (picks : Picks choose better) :
    canonical choose (gs ++ hs) = canonical choose (hs ++ gs) :=
  canonical_congr picks fun g => by simp only [List.mem_append, or_comm]

theorem canonical_append_right (picks : Picks choose better) :
    canonical choose (gs ++ canonical choose hs) = canonical choose (gs ++ hs) := by
  rw [canonical_append_comm picks, canonical_append_left picks, canonical_append_comm picks]

theorem canonical_idem (picks : Picks choose better) :
    canonical choose (canonical choose gs) = canonical choose gs := by
  have part : canonical choose (canonical choose gs ++ []) = _ := canonical_append_left picks
  simpa using part

theorem canonical_singleton (picks : Picks choose better) : canonical choose [g] = [g] := by
  refine (pairwise_canonical ..).eq_of_mem_iff (List.pairwise_singleton ..) fun h => ?_
  refine ⟨subset_canonical picks, fun member => ?_⟩
  obtain rfl := List.mem_singleton.1 member
  rw [mem_canonical picks]
  cases h with
  | precedence p =>
    refine .inr ⟨p, rfl, ?_⟩
    cases chosen : choose ([precedence p].filterMap precedence?) with
    | none => cases picks.eq_none_iff.1 chosen
    | some q => rw [List.mem_singleton.1 (picks.eq_some_iff.1 chosen).1]
  | always | predicate | all | any => exact .inl ⟨member, rfl⟩

end Canonical

/-! ## Connectives -/

/-- A connective: which of several precedences decides, the guard for a list of operands, and the operands of
a guard. -/
structure Connective where
  choose : List Int → Option Int
  make : List Guard → Guard
  operands : Guard → List Guard

namespace Connective

/-- Conjunctions. -/
def conj : Connective := ⟨List.min?, all, conjuncts⟩

/-- Disjunctions. -/
def disj : Connective := ⟨List.max?, any, disjuncts⟩

variable {k : Connective} {better : Int → Int → Prop} {a b c g : Guard} {gs : List Guard}

/-- The guard that the connective makes of two. -/
def join (k : Connective) (a b : Guard) : Guard :=
  combine k.make (canonical k.choose (k.operands a ++ k.operands b))

/-- The guards of a connective are the ones that it makes, and all others are operands. -/
structure Lawful (k : Connective) (better : Int → Int → Prop) : Prop where
  picks : Picks k.choose better
  operands_make : ∀ gs, k.operands (k.make gs) = gs

theorem lawful_conj : conj.Lawful (· ≤ ·) := ⟨picks_min, fun _ => rfl⟩

theorem lawful_disj : disj.Lawful (· ≥ ·) := ⟨picks_max, fun _ => rfl⟩

/-- The guard is what the connective makes of its operands, which are in canonical form and are not made by
the connective themselves. -/
structure Settled (k : Connective) (g : Guard) : Prop where
  canonical : canonical k.choose (k.operands g) = k.operands g
  flat : ∀ h ∈ k.operands g, k.operands h = [h]
  restored : combine k.make (k.operands g) = g

/-- A guard that is its own operand is settled. -/
theorem Settled.of_operand (lawful : k.Lawful better) (operand : k.operands g = [g]) : k.Settled g where
  canonical := by rw [operand, canonical_singleton lawful.picks]
  flat h member := by
    rw [operand, List.mem_singleton] at member
    rwa [member]
  restored := by rw [operand]; rfl

theorem operands_combine (lawful : k.Lawful better) (flat : ∀ g ∈ gs, k.operands g = [g]) :
    k.operands (combine k.make gs) = gs := by
  unfold combine
  split
  · exact flat _ (List.mem_singleton.2 rfl)
  · exact lawful.operands_make _

/-- What is joined comes from one of the sides. -/
theorem mem_operands_of_canonical (lawful : k.Lawful better)
    (member : g ∈ Guard.canonical k.choose (k.operands a ++ k.operands b)) :
    g ∈ k.operands a ∨ g ∈ k.operands b :=
  List.mem_append.1 (subset_canonical lawful.picks member)

/-- The operands of settled guards that are joined are the operands of the result. -/
theorem operands_join (lawful : k.Lawful better) (settledA : k.Settled a) (settledB : k.Settled b) :
    k.operands (k.join a b) = Guard.canonical k.choose (k.operands a ++ k.operands b) :=
  operands_combine lawful fun g member =>
    (mem_operands_of_canonical lawful member).elim (settledA.flat g) (settledB.flat g)

theorem Settled.join (lawful : k.Lawful better) (settledA : k.Settled a) (settledB : k.Settled b) :
    k.Settled (k.join a b) := by
  have operands := operands_join lawful settledA settledB
  refine ⟨by rw [operands, canonical_idem lawful.picks], fun g member => ?_, by rw [operands]; rfl⟩
  rw [operands] at member
  exact (mem_operands_of_canonical lawful member).elim (settledA.flat g) (settledB.flat g)

theorem join_comm (lawful : k.Lawful better) (a b : Guard) : k.join a b = k.join b a := by
  rw [Connective.join, canonical_append_comm lawful.picks, ← Connective.join]

theorem join_self (lawful : k.Lawful better) (settled : k.Settled a) : k.join a a = a := by
  have once : Guard.canonical k.choose (k.operands a ++ k.operands a) = k.operands a := by
    have same (g : Guard) : g ∈ k.operands a ++ k.operands a ↔ g ∈ k.operands a := by simp
    rw [canonical_congr lawful.picks same, settled.canonical]
  rw [Connective.join, once, settled.restored]

theorem join_assoc (lawful : k.Lawful better) (settledA : k.Settled a) (settledB : k.Settled b)
    (settledC : k.Settled c) : k.join (k.join a b) c = k.join a (k.join b c) := by
  show combine k.make (Guard.canonical k.choose (k.operands (k.join a b) ++ k.operands c)) =
    combine k.make (Guard.canonical k.choose (k.operands a ++ k.operands (k.join b c)))
  rw [operands_join lawful settledA settledB, operands_join lawful settledB settledC,
    canonical_append_left lawful.picks, canonical_append_right lawful.picks, List.append_assoc]

end Connective

open Connective

/-! ## Normal forms -/

/-- The operands of every conjunction and disjunction within the guard are in canonical form, and none of
them holds always. -/
inductive Normal : Guard → Prop
  | always : Normal .always
  | predicate (rule pred : Nat) (ctxDependent : Bool) : Normal (.predicate rule pred ctxDependent)
  | precedence (p : Int) : Normal (.precedence p)
  | all {gs : List Guard} (settled : conj.Settled (.all gs)) (proper : .always ∉ gs)
      (operands : ∀ g ∈ gs, Normal g) : Normal (.all gs)
  | any {gs : List Guard} (settled : disj.Settled (.any gs)) (proper : .always ∉ gs)
      (operands : ∀ g ∈ gs, Normal g) : Normal (.any gs)

variable {a b c g : Guard}

theorem Normal.conj_settled (normal : Normal g) : conj.Settled g := by
  cases normal with
  | all settled _ _ => exact settled
  | always | predicate | precedence | any => exact .of_operand lawful_conj rfl

theorem Normal.disj_settled (normal : Normal g) : disj.Settled g := by
  cases normal with
  | any settled _ _ => exact settled
  | always | predicate | precedence | all => exact .of_operand lawful_disj rfl

/-- The operands of a guard in normal form are in normal form, and none of them holds always unless the
guard does. -/
theorem Normal.of_mem_conjuncts (normal : Normal a) (open' : a.isAlways = false) (member : g ∈ a.conjuncts) :
    Normal g ∧ g ≠ .always := by
  cases normal with
  | all _ proper operands => exact ⟨operands g member, fun same => proper (same ▸ member)⟩
  | always => cases open'
  | predicate | precedence | any =>
    obtain rfl := List.mem_singleton.1 member
    exact ⟨by constructor <;> assumption, nofun⟩

theorem Normal.of_mem_disjuncts (normal : Normal a) (open' : a.isAlways = false) (member : g ∈ a.disjuncts) :
    Normal g ∧ g ≠ .always := by
  cases normal with
  | any _ proper operands => exact ⟨operands g member, fun same => proper (same ▸ member)⟩
  | always => cases open'
  | predicate | precedence | all =>
    obtain rfl := List.mem_singleton.1 member
    exact ⟨by constructor <;> assumption, nofun⟩

/-- A guard for operands is one of them or the one that is made of them. -/
theorem combine_eq (make : List Guard → Guard) (gs : List Guard) :
    combine make gs ∈ gs ∨ combine make gs = make gs := by
  unfold combine
  split
  · exact .inl (List.mem_singleton.2 rfl)
  · exact .inr rfl

/-- A connective whose guards are in normal form if their operands are joins guards to normal forms. -/
theorem Normal.join {k : Connective} {better : Int → Int → Prop} (lawful : k.Lawful better)
    (make : ∀ {gs}, k.Settled (k.make gs) → .always ∉ gs → (∀ g ∈ gs, Normal g) →
      Normal (k.make gs) ∧ k.make gs ≠ .always)
    (settledA : k.Settled a) (settledB : k.Settled b)
    (operands : ∀ g, g ∈ k.operands a ∨ g ∈ k.operands b → Normal g ∧ g ≠ .always) :
    Normal (k.join a b) ∧ k.join a b ≠ .always := by
  have members (g : Guard) (member : g ∈ canonical k.choose (k.operands a ++ k.operands b)) :=
    operands g (mem_operands_of_canonical lawful member)
  have settled := settledA.join lawful settledB
  unfold Connective.join at settled ⊢
  rcases combine_eq k.make (canonical k.choose (k.operands a ++ k.operands b)) with member | made
  · exact members _ member
  · rw [made] at settled ⊢
    exact make settled (fun member => (members _ member).2 rfl) fun g member => (members g member).1

theorem Normal.join_conj (normalA : Normal a) (normalB : Normal b) (openA : a.isAlways = false)
    (openB : b.isAlways = false) : Normal (conj.join a b) ∧ conj.join a b ≠ .always :=
  Normal.join lawful_conj (fun settled proper operands => ⟨.all settled proper operands, nofun⟩)
    normalA.conj_settled normalB.conj_settled fun _ member =>
      member.elim (normalA.of_mem_conjuncts openA) (normalB.of_mem_conjuncts openB)

theorem Normal.join_disj (normalA : Normal a) (normalB : Normal b) (openA : a.isAlways = false)
    (openB : b.isAlways = false) : Normal (disj.join a b) ∧ disj.join a b ≠ .always :=
  Normal.join lawful_disj (fun settled proper operands => ⟨.any settled proper operands, nofun⟩)
    normalA.disj_settled normalB.disj_settled fun _ member =>
      member.elim (normalA.of_mem_disjuncts openA) (normalB.of_mem_disjuncts openB)

theorem isAlways_eq_false (open' : a ≠ .always) : a.isAlways = false := by
  cases a <;> first | rfl | exact absurd rfl open'

theorem eq_always_or_open (a : Guard) : a = .always ∨ a.isAlways = false := by
  cases a <;> first | exact .inl rfl | exact .inr rfl

/-! ## Conjunction and disjunction -/

@[simp]
theorem always_and (b : Guard) : and .always b = b := rfl

@[simp]
theorem and_always (a : Guard) : and a .always = a := by
  cases a <;> rfl

@[simp]
theorem always_or (b : Guard) : or .always b = .always := rfl

@[simp]
theorem or_always (a : Guard) : or a .always = .always := by
  cases a <;> rfl

/-- Guards of which neither holds always are joined. -/
theorem and_eq_join (openA : a.isAlways = false) (openB : b.isAlways = false) : and a b = conj.join a b := by
  rw [and, openA, openB]
  rfl

theorem or_eq_join (openA : a.isAlways = false) (openB : b.isAlways = false) : or a b = disj.join a b := by
  rw [or, openA, openB]
  rfl

theorem Normal.and (normalA : Normal a) (normalB : Normal b) : Normal (and a b) := by
  rcases eq_always_or_open a with rfl | openA
  · exact normalB
  rcases eq_always_or_open b with rfl | openB
  · rwa [and_always]
  rw [and_eq_join openA openB]
  exact (normalA.join_conj normalB openA openB).1

theorem Normal.or (normalA : Normal a) (normalB : Normal b) : Normal (or a b) := by
  rcases eq_always_or_open a with rfl | openA
  · exact normalA
  rcases eq_always_or_open b with rfl | openB
  · rwa [or_always]
  rw [or_eq_join openA openB]
  exact (normalA.join_disj normalB openA openB).1

protected theorem and_comm (a b : Guard) : and a b = and b a := by
  rcases eq_always_or_open a with rfl | openA
  · simp
  rcases eq_always_or_open b with rfl | openB
  · simp
  rw [and_eq_join openA openB, and_eq_join openB openA, join_comm lawful_conj]

protected theorem or_comm (a b : Guard) : or a b = or b a := by
  rcases eq_always_or_open a with rfl | openA
  · simp
  rcases eq_always_or_open b with rfl | openB
  · simp
  rw [or_eq_join openA openB, or_eq_join openB openA, join_comm lawful_disj]

protected theorem and_self (normal : Normal a) : and a a = a := by
  rcases eq_always_or_open a with rfl | openA
  · rfl
  rw [and_eq_join openA openA, join_self lawful_conj normal.conj_settled]

protected theorem or_self (normal : Normal a) : or a a = a := by
  rcases eq_always_or_open a with rfl | openA
  · rfl
  rw [or_eq_join openA openA, join_self lawful_disj normal.disj_settled]

protected theorem and_assoc (normalA : Normal a) (normalB : Normal b) (normalC : Normal c) :
    and (and a b) c = and a (and b c) := by
  rcases eq_always_or_open a with rfl | openA
  · simp
  rcases eq_always_or_open b with rfl | openB
  · simp
  rcases eq_always_or_open c with rfl | openC
  · simp
  have openAB := isAlways_eq_false (normalA.join_conj normalB openA openB).2
  have openBC := isAlways_eq_false (normalB.join_conj normalC openB openC).2
  rw [and_eq_join openA openB, and_eq_join openB openC, and_eq_join openAB openC, and_eq_join openA openBC,
    join_assoc lawful_conj normalA.conj_settled normalB.conj_settled normalC.conj_settled]

protected theorem or_assoc (normalA : Normal a) (normalB : Normal b) (normalC : Normal c) :
    or (or a b) c = or a (or b c) := by
  rcases eq_always_or_open a with rfl | openA
  · simp
  rcases eq_always_or_open b with rfl | openB
  · simp
  rcases eq_always_or_open c with rfl | openC
  · simp
  have openAB := isAlways_eq_false (normalA.join_disj normalB openA openB).2
  have openBC := isAlways_eq_false (normalB.join_disj normalC openB openC).2
  rw [or_eq_join openA openB, or_eq_join openB openC, or_eq_join openAB openC, or_eq_join openA openBC,
    join_assoc lawful_disj normalA.disj_settled normalB.disj_settled normalC.disj_settled]

/-- The guards that arise from predicates and precedence predicates by conjunction and disjunction. -/
inductive Collected : Guard → Prop
  | always : Collected .always
  | predicate (rule pred : Nat) (ctxDependent : Bool) : Collected (.predicate rule pred ctxDependent)
  | precedence (p : Int) : Collected (.precedence p)
  | and {a b : Guard} (left : Collected a) (right : Collected b) : Collected (a.and b)
  | or {a b : Guard} (left : Collected a) (right : Collected b) : Collected (a.or b)

theorem Collected.normal (collected : Collected g) : Normal g := by
  induction collected with
  | always => exact .always
  | predicate r p c => exact .predicate r p c
  | precedence p => exact .precedence p
  | and _ _ left right => exact left.and right
  | or _ _ left right => exact left.or right

end AdaptiveLL.Guard
