import AdaptiveLL.Context.Basic
import Std.Data.HashSet

/-!
# The table of contexts

Contexts that outlive a prediction are kept in one table, each once, together with all contexts that
follow their entries. What is kept shares its parts: a context that the table knows is replaced by the
one that is kept. The bottom of the stack needs no entry of its own.
-/

set_option autoImplicit false

namespace AdaptiveLL.Context

/-- The contexts that are kept. -/
structure Table where
  known : Std.HashSet Context := {}

namespace Table

/-- The number of contexts in the table. -/
def size (t : Table) : Nat := t.known.size

/-- Is the table empty? -/
def isEmpty (t : Table) : Bool := t.known.isEmpty

/-- The context of the table that equals a given one. -/
def find? (t : Table) (c : Context) : Option Context := t.known.get? c

/-- What the table gives for a context is that context. -/
theorem eq_of_find? {t : Table} {c kept : Context} (h : t.find? c = some kept) : kept = c := by
  unfold find? at h
  by_cases hc : c ∈ t.known
  · rw [Std.HashSet.get?_eq_some hc] at h
    exact (Option.some.inj h).symm
  · rw [Std.HashSet.get?_eq_none hc] at h
    exact absurd h (by simp)

/-- Puts a context into the table. -/
def insert (t : Table) (c : Context) : Table := ⟨t.known.insert c⟩

/-- Enters everything that follows the entries of a context, and gives the context over what was
entered. -/
def internParents : Context → Table → Context × Table
  | .nil, t => (.nil, t)
  | .cons ret parent rest, t =>
    let (parent, t) :=
      if parent = .nil then (.nil, t)
      else if parent.isEmpty then (empty, t)
      else
        match t.find? parent with
        | some kept => (kept, t)
        | none =>
          let (parent, t) := internParents parent t
          (parent, t.insert parent)
    let (rest, t) := internParents rest t
    (.cons ret parent rest, t)

/-- Enters a context with everything that follows its entries. -/
def intern (c : Context) (t : Table) : Context × Table :=
  if c.isEmpty then (empty, t)
  else
    match t.find? c with
    | some kept => (kept, t)
    | none =>
      let (c, t) := internParents c t
      (c, t.insert c)

end Table

end AdaptiveLL.Context
