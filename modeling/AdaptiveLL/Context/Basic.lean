import AdaptiveLL.Network.Basic

/-!
# Call contexts

While a prediction runs ahead of the input it keeps, instead of one call stack, a graph that stands
for many: a list of entries, each a state to return to and the context to go on with after the
return. The entry without a return state is the bottom, behind which nothing is known, and it comes
after all others. A context is written down as a list; the list without entries is no context, and
beside a return state it says that nothing is known about what follows the return.
-/

set_option autoImplicit false

namespace AdaptiveLL

/-! ## Keys -/

/-- Mixes two keys into one. -/
def mixKeys (a b : UInt64) : UInt64 :=
  let k := (a ^^^ (b + 0x9e3779b97f4a7c15)) * 0xff51afd7ed558ccd
  k ^^^ (k >>> 32)

/-- The key of a state to return to. -/
def returnKey : Option Nat → UInt64
  | none => 1
  | some n => 2 * n.toUInt64 + 2

/-! ## Contexts -/

/-- A graph of call stacks. It is a graph because a context that several entries go on with is held
once; each context carries the key by which it is looked up. -/
inductive Context where
  /-- No context. -/
  | nil
  /-- An entry: the state to return to, or none at the bottom of the stack, and how to go on after
  the return. -/
  | cons (ret : Option Nat) (parent : Context) (rest : Context)
with
  /-- A number that tells contexts apart: contexts with different keys differ. -/
  @[computed_field] key : Context → UInt64
    | .nil => 7
    | .cons ret parent rest => mixKeys (mixKeys (returnKey ret) parent.key) rest.key
  deriving Inhabited

namespace Context

/-- Decides equality of two states to return to. -/
def decEqReturn : (r s : Option Nat) → Decidable (r = s)
  | none, none => isTrue rfl
  | none, some _ => isFalse nofun
  | some _, none => isFalse nofun
  | some m, some n => if h : m = n then isTrue (by rw [h]) else isFalse (by simpa using h)

/-- Decides equality. What two contexts share is not compared, and contexts with different keys are
told apart at once, so the work does not grow with the number of call stacks. -/
def decEq (a b : Context) : Decidable (a = b) :=
  withPtrEqDecEq a b fun _ =>
    if h : a.key = b.key then
      match a, b with
      | .nil, .nil => isTrue rfl
      | .nil, .cons _ _ _ => isFalse nofun
      | .cons _ _ _, .nil => isFalse nofun
      | .cons r p restA, .cons s q restB =>
        match decEqReturn r s, decEq p q, decEq restA restB with
        | isTrue hr, isTrue hp, isTrue hrest => isTrue (by rw [hr, hp, hrest])
        | isFalse hr, _, _ => isFalse fun e => hr (by injection e)
        | _, isFalse hp, _ => isFalse fun e => hp (by injection e)
        | _, _, isFalse hrest => isFalse fun e => hrest (by injection e)
    else isFalse fun e => h (congrArg key e)

instance : DecidableEq Context := decEq

instance : Hashable Context := ⟨key⟩

/-- The bottom of the stack alone. -/
def empty : Context := .cons none .nil .nil

/-- Return to a state, then go on as the context says. -/
def push (c : Context) (ret : Nat) : Context := .cons (some ret) c .nil

/-- The context of one entry. -/
def singleton (parent : Context) (ret : Option Nat) : Context := .cons ret parent .nil

/-- The context of an exact call stack of calling states, outermost first. -/
def ofCallStack (net : Network) (callStack : List Nat) : Context :=
  (net.follows callStack).foldl push empty

/-- The entries in order. -/
def entries : Context → List (Option Nat × Context)
  | .nil => []
  | .cons ret parent rest => (ret, parent) :: rest.entries

/-- The states to return to. -/
def returnStates (c : Context) : List (Option Nat) := c.entries.map (·.1)

/-- Is there exactly one entry? -/
def isSingle : Context → Bool
  | .cons _ _ .nil => true
  | _ => false

/-- Is the bottom of the stack the only entry? -/
def isEmpty : Context → Bool
  | .cons none _ .nil => true
  | _ => false

/-- Is the bottom of the stack among the entries? It would be the last. -/
def hasEmptyPath : Context → Bool
  | .nil => false
  | .cons ret _ .nil => ret.isNone
  | .cons _ _ rest => rest.hasEmptyPath

/-- Does one return state come before another? The bottom comes last. -/
def precedes : Option Nat → Option Nat → Bool
  | some a, some b => a < b
  | some _, none => true
  | none, _ => false

/-! ## Written form -/

mutual

/-- The entries of a context in brackets; the bottom alone is a dollar sign. -/
def toText : Context → String
  | .nil => "[]"
  | .cons none _ .nil => "$"
  | .cons ret parent rest => "[" ++ entryText ret parent ++ entriesText rest ++ "]"

/-- One entry: its return state, followed by what comes after unless that is the bottom. -/
def entryText : Option Nat → Context → String
  | none, _ => "$"
  | some ret, .nil => toString ret ++ " null"
  | some ret, .cons none _ .nil => toString ret
  | some ret, .cons r parent rest =>
    toString ret ++ " [" ++ entryText r parent ++ entriesText rest ++ "]"

/-- Further entries, each after a comma. -/
def entriesText : Context → String
  | .nil => ""
  | .cons ret parent rest => ", " ++ entryText ret parent ++ entriesText rest

end

end Context

end AdaptiveLL
