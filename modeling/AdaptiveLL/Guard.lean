import AdaptiveLL.Text.Escape

/-!
# Guards

A guard is a condition under which a path through the network may be taken: predicates of the
grammar, precedence predicates, and conjunctions and disjunctions of guards. Conjunction and
disjunction flatten their operands, keep of all precedence predicates only the one that decides, and
order the operands, so that the order in which conditions were collected does not show.
-/

set_option autoImplicit false

namespace AdaptiveLL

/-- A condition on a path. -/
inductive Guard where
  | always
  | predicate (rule pred : Nat) (ctxDependent : Bool)
  | precedence (precedence : Int)
  | all (guards : List Guard)
  | any (guards : List Guard)
  deriving Inhabited

namespace Guard

/-! ## Equality and order -/

mutual

/-- Are two guards the same? -/
def same : Guard → Guard → Bool
  | .always, .always => true
  | .predicate r p c, .predicate r' p' c' => r == r' && p == p' && c == c'
  | .precedence p, .precedence p' => p == p'
  | .all gs, .all gs' => sameList gs gs'
  | .any gs, .any gs' => sameList gs gs'
  | _, _ => false

/-- Are two lists of guards the same? -/
def sameList : List Guard → List Guard → Bool
  | [], [] => true
  | g :: gs, g' :: gs' => same g g' && sameList gs gs'
  | _, _ => false

end

mutual

/-- Guards that are found the same are equal. -/
theorem eq_of_same : (a b : Guard) → same a b = true → a = b
  | .always, b, h => by cases b <;> simp_all [same]
  | .predicate _ _ _, b, h => by cases b <;> simp_all [same]
  | .precedence _, b, h => by cases b <;> simp_all [same]
  | .all gs, .all gs', h => by
    simp only [same] at h
    rw [eq_of_sameList gs gs' h]
  | .any gs, .any gs', h => by
    simp only [same] at h
    rw [eq_of_sameList gs gs' h]
  | .all _, .always, h | .all _, .predicate _ _ _, h | .all _, .precedence _, h
  | .all _, .any _, h | .any _, .always, h | .any _, .predicate _ _ _, h
  | .any _, .precedence _, h | .any _, .all _, h => by simp [same] at h

/-- Lists that are found the same are equal. -/
theorem eq_of_sameList : (as bs : List Guard) → sameList as bs = true → as = bs
  | [], bs, h => by cases bs <;> simp_all [sameList]
  | _ :: _, [], h => by simp [sameList] at h
  | a :: as, b :: bs, h => by
    simp only [sameList, Bool.and_eq_true] at h
    rw [eq_of_same a b h.1, eq_of_sameList as bs h.2]

end

mutual

/-- A guard is found the same as itself. -/
theorem same_self : (a : Guard) → same a a = true
  | .always | .predicate _ _ _ | .precedence _ => by simp [same]
  | .all gs | .any gs => by simpa only [same] using sameList_self gs

/-- A list is found the same as itself. -/
theorem sameList_self : (as : List Guard) → sameList as as = true
  | [] => by simp [sameList]
  | a :: as => by simp [sameList, same_self a, sameList_self as]

end

instance : DecidableEq Guard := fun a b =>
  if h : same a b = true then isTrue (eq_of_same a b h)
  else isFalse fun e => h (e ▸ same_self a)

/-- The place of a kind of guard in the order of kinds. -/
def rank : Guard → Nat
  | .always => 0
  | .predicate _ _ _ => 1
  | .precedence _ => 2
  | .all _ => 3
  | .any _ => 4

mutual

/-- The order of guards: by kind, then by contents from left to right. -/
def order : Guard → Guard → Ordering
  | .predicate r p c, .predicate r' p' c' =>
    (compare r r').then ((compare p p').then (compare c c'))
  | .precedence p, .precedence p' => compare p p'
  | .all gs, .all gs' => orderList gs gs'
  | .any gs, .any gs' => orderList gs gs'
  | a, b => compare a.rank b.rank

/-- The order of lists of guards, as that of words in a dictionary. -/
def orderList : List Guard → List Guard → Ordering
  | [], [] => .eq
  | [], _ :: _ => .lt
  | _ :: _, [] => .gt
  | g :: gs, g' :: gs' => (order g g').then (orderList gs gs')

end

/-- A short key by which guards are looked up. -/
def key : Guard → UInt64
  | .always => 1
  | .predicate r p c => mixHash (hash r) (mixHash (hash p) (hash c))
  | .precedence p => mixHash 3 (hash p)
  | .all gs => mixHash 5 (hash gs.length)
  | .any gs => mixHash 7 (hash gs.length)

instance : Hashable Guard := ⟨key⟩

/-! ## Conjunction and disjunction -/

/-- Does the guard always hold? -/
def isAlways : Guard → Bool
  | .always => true
  | _ => false

/-- The precedence of a precedence predicate. -/
def precedence? : Guard → Option Int
  | .precedence p => some p
  | _ => none

/-- Puts a guard into an ordered list without repetitions. -/
def insertOrdered (g : Guard) : List Guard → List Guard
  | [] => [g]
  | h :: rest =>
    match order g h with
    | .lt => g :: h :: rest
    | .eq => h :: rest
    | .gt => h :: insertOrdered g rest

/-- The guards in order and without repetitions. -/
def ordered (gs : List Guard) : List Guard := gs.foldr insertOrdered []

/-- Keeps of all precedence predicates one, with the precedence chosen from all of them. -/
def reducePrecedence (choose : List Int → Option Int) (gs : List Guard) : List Guard :=
  match choose (gs.filterMap precedence?) with
  | some p => gs.filter (·.precedence?.isNone) ++ [.precedence p]
  | none => gs

/-- A guard for ordered operands; a single operand stands for itself. -/
def combine (make : List Guard → Guard) : List Guard → Guard
  | [g] => g
  | gs => make gs

/-- The operands of a conjunction, or the guard alone. -/
def conjuncts : Guard → List Guard
  | .all gs => gs
  | g => [g]

/-- The operands of a disjunction, or the guard alone. -/
def disjuncts : Guard → List Guard
  | .any gs => gs
  | g => [g]

/-- Both guards hold. Of several precedence predicates the least is the one that decides. -/
def and (a b : Guard) : Guard :=
  if a.isAlways then b
  else if b.isAlways then a
  else combine .all (ordered (reducePrecedence List.min? (a.conjuncts ++ b.conjuncts)))

/-- One of the guards holds. Of several precedence predicates the greatest is the one that
decides. -/
def or (a b : Guard) : Guard :=
  if a.isAlways || b.isAlways then .always
  else combine .any (ordered (reducePrecedence List.max? (a.disjuncts ++ b.disjuncts)))

/-! ## Evaluation -/

/-- How predicates are answered, with a state of its own. -/
structure Evaluator (η : Type) where
  predicate : (rule pred : Nat) → η → Bool × η
  /-- Is the precedence at least that of the rule call in progress? -/
  precedence : Int → η → Bool × η

variable {η : Type}

mutual

/-- Does the guard hold? Operands are asked from left to right until the answer is known. -/
def eval (ev : Evaluator η) : Guard → StateM η Bool
  | .always => pure true
  | .predicate rule pred _ => fun h => ev.predicate rule pred h
  | .precedence p => fun h => ev.precedence p h
  | .all gs => evalAll ev gs
  | .any gs => evalAny ev gs

/-- Do all guards hold? -/
def evalAll (ev : Evaluator η) : List Guard → StateM η Bool
  | [] => pure true
  | g :: rest => do if ← eval ev g then evalAll ev rest else return false

/-- Does some guard hold? -/
def evalAny (ev : Evaluator η) : List Guard → StateM η Bool
  | [] => pure false
  | g :: rest => do if ← eval ev g then return true else evalAny ev rest

end

mutual

/-- Answers the precedence predicates of a guard and leaves the others open. No guard is left when
the answer is no. -/
def resolve (ev : Evaluator η) : Guard → StateM η (Option Guard)
  | .precedence p => do if ← (fun h => ev.precedence p h) then return some .always else return none
  | .all gs => do
    match ← resolveAll ev gs with
    | none => return none
    | some resolved =>
      if resolved = gs then return some (.all gs)
      else return some ((resolved.filter (!·.isAlways)).foldl and .always)
  | .any gs => do
    match ← resolveAny ev gs with
    | none => return some .always
    | some resolved =>
      if resolved = gs.map some then return some (.any gs)
      else
        match resolved.filterMap id with
        | [] => return none
        | first :: rest => return some (rest.foldl or first)
  | g => return some g

/-- Resolves the operands of a conjunction until one is found false. -/
def resolveAll (ev : Evaluator η) : List Guard → StateM η (Option (List Guard))
  | [] => return some []
  | g :: rest => do
    match ← resolve ev g with
    | none => return none
    | some g' =>
      match ← resolveAll ev rest with
      | none => return none
      | some rest' => return some (g' :: rest')

/-- Resolves the operands of a disjunction until one is found to hold always; a false operand is
left empty. -/
def resolveAny (ev : Evaluator η) : List Guard → StateM η (Option (List (Option Guard)))
  | [] => return some []
  | g :: rest => do
    match ← resolve ev g with
    | some .always => return none
    | g' =>
      match ← resolveAny ev rest with
      | none => return none
      | some rest' => return some (g' :: rest')

end

/-! ## Written form -/

mutual

/-- The guard as diagnostics show it. -/
def toText : Guard → String
  | .always => "true"
  | .predicate rule pred _ => "\x7b" ++ toString rule ++ ":" ++ toString pred ++ "\x7d?"
  | .precedence p => "\x7b" ++ toString p ++ ">=prec\x7d?"
  | .all gs => joinText "&&" gs
  | .any gs => joinText "||" gs

/-- The operands with a mark between two of them. -/
def joinText (mark : String) : List Guard → String
  | [] => ""
  | [g] => toText g
  | g :: h :: rest => toText g ++ mark ++ joinText mark (h :: rest)

end

end Guard

end AdaptiveLL
