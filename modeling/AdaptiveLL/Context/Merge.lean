import AdaptiveLL.Context.Intern
import Std.Data.HashMap

/-!
# Merging contexts

`Context.merge` joins two contexts into one that stands for the call stacks of both. Entries with the
same return state are joined by merging what follows them. With local context only, the bottom of the
stack means "any caller" and swallows everything (`wild`); with full context it is a stack of its own.

`Context.mergeMemo` does the same and remembers its results. A remembered result is found under the
two contexts in either order. What it builds is held once, so that equal contexts are found equal
without a walk through their stacks.
-/

set_option autoImplicit false

namespace AdaptiveLL.Context

/-- Merges two single entries of which at least one is the bottom of the stack. -/
def mergeRoot (wild : Bool) (a b : Context) : Option Context :=
  if wild then
    if a.isEmpty || b.isEmpty then some empty else none
  else if a.isEmpty && b.isEmpty then some empty
  else if a.isEmpty then
    match b with
    | .cons ret parent _ => some (.cons ret parent empty)
    | .nil => none
  else if b.isEmpty then
    match a with
    | .cons ret parent _ => some (.cons ret parent empty)
    | .nil => none
  else none

mutual

/-- The context that stands for the stacks of both. -/
def merge (wild : Bool) (a b : Context) : Context :=
  if a = b then a
  else if a.isSingle && b.isSingle then
    match mergeRoot wild a b with
    | some c => c
    | none => mergeEntries wild a b
  else if wild && a.isEmpty then a
  else if wild && b.isEmpty then b
  else mergeEntries wild a b
termination_by (sizeOf a + sizeOf b, 1)

/-- Merges two ascending lists of entries. -/
def mergeEntries (wild : Bool) (a b : Context) : Context :=
  match a, b with
  | .nil, b => b
  | a, .nil => a
  | .cons r p restA, .cons s q restB =>
    if r = s then .cons r (merge wild p q) (mergeEntries wild restA restB)
    else if precedes r s then .cons r p (mergeEntries wild restA (.cons s q restB))
    else .cons s q (mergeEntries wild (.cons r p restA) restB)
termination_by (sizeOf a + sizeOf b, 0)

end

/-! ## Remembered merges -/

/-- The results of earlier merges, and the contexts that were built on the way. -/
structure Memo where
  known : Std.HashMap (Context × Context) Context := {}
  built : Table := {}

namespace Memo

/-- The remembered merge of two contexts, in either order. -/
def find? (memo : Memo) (a b : Context) : Option Context :=
  (memo.known[(a, b)]?).or (memo.known[(b, a)]?)

/-- Holds a context once with the equal one that was built before. -/
def share (memo : Memo) (c : Context) : Context × Memo :=
  match memo.built.find? c with
  | some kept => (kept, memo)
  | none => (c, { memo with built := memo.built.insert c })

/-- Sharing does not change a context. -/
theorem share_fst (memo : Memo) (c : Context) : (memo.share c).1 = c := by
  unfold share
  split
  · next h => exact Table.eq_of_find? h
  · rfl

/-- Remembers a merge and gives its result. -/
def store (memo : Memo) (a b c : Context) : Context × Memo :=
  let (c, memo) := memo.share c
  (c, { memo with known := memo.known.insert (a, b) c })

end Memo

mutual

/-- The context that stands for the stacks of both, looked up if it is known. -/
def mergeMemo (wild : Bool) (a b : Context) (memo : Memo) : Context × Memo :=
  if a = b then (a, memo)
  else if a.isSingle && b.isSingle then
    match memo.find? a b with
    | some c => (c, memo)
    | none =>
      match mergeRoot wild a b with
      | some c => memo.store a b c
      | none => mergeSingles wild a b memo
  else if wild && a.isEmpty then (a, memo)
  else if wild && b.isEmpty then (b, memo)
  else
    match memo.find? a b with
    | some c => (c, memo)
    | none =>
      let (c, memo) := mergeEntriesMemo wild a b memo
      memo.store a b (if c = a then a else if c = b then b else c)
termination_by (sizeOf a + sizeOf b, 2)

/-- Merges two single entries, neither of them the bottom. A result that is one of the two is not
worth remembering. -/
def mergeSingles (wild : Bool) (a b : Context) (memo : Memo) : Context × Memo :=
  match a, b with
  | .cons r p _, .cons s q _ =>
    if r = s then
      let (parent, memo) := mergeParents wild p q memo
      if parent = p then (a, memo)
      else if parent = q then (b, memo)
      else memo.store a b (singleton parent r)
    else
      memo.store a b
        (if precedes r s then .cons r p (singleton q s) else .cons s q (singleton p r))
  | _, _ => (a, memo)
termination_by (sizeOf a + sizeOf b, 0)

/-- Merges what follows two entries; an unknown continuation gives way to a known one. -/
def mergeParents (wild : Bool) (p q : Context) (memo : Memo) : Context × Memo :=
  if p = .nil then (q, memo)
  else if q = .nil then (p, memo)
  else mergeMemo wild p q memo
termination_by (sizeOf p + sizeOf q, 3)

/-- Merges two ascending lists of entries. -/
def mergeEntriesMemo (wild : Bool) (a b : Context) (memo : Memo) : Context × Memo :=
  match a, b with
  | .nil, b => (b, memo)
  | a, .nil => (a, memo)
  | .cons r p restA, .cons s q restB =>
    if r = s then
      let (parent, memo) := mergeParents wild p q memo
      let (rest, memo) := mergeEntriesMemo wild restA restB memo
      (.cons r parent rest, memo)
    else if precedes r s then
      let (rest, memo) := mergeEntriesMemo wild restA (.cons s q restB) memo
      (.cons r p rest, memo)
    else
      let (rest, memo) := mergeEntriesMemo wild (.cons r p restA) restB memo
      (.cons s q rest, memo)
termination_by (sizeOf a + sizeOf b, 1)

end

end AdaptiveLL.Context
