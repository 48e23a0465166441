import AdaptiveLL.Network.Decode
import Mathlib.Tactic.Common

/-!
# States and edges of a growing network

A network grows by states and by transitions. This module says what each way to grow does to the state
of a number and to the transitions that leave it, so that later arguments never look into the array of
states. A list of edges adds to each state the transitions with that source, in order.
-/

set_option autoImplicit false

namespace AdaptiveLL.Network

/-- The transitions that leave a state. -/
def out (net : Network) (n : Nat) : List Transition := (net.state n).transitions

theorem state_of_lt {net : Network} {n : Nat} (bound : n < net.states.size) :
    net.state n = net.states[n] := by
  simp [state, Array.getD, bound]

theorem state_of_le {net : Network} {n : Nat} (bound : net.states.size ≤ n) :
    net.state n = { number := n, rule := none, kind := .invalid } := by
  simp [state, Array.getD, Nat.not_lt.2 bound]

theorem out_of_le {net : Network} {n : Nat} (bound : net.states.size ≤ n) : net.out n = [] := by
  simp [out, state_of_le bound]

/-! ## New states -/

@[simp]
theorem addState_fst (net : Network) (rule : Option Nat) (kind : StateKind) :
    (net.addState rule kind).1 = net.states.size := rfl

@[simp]
theorem addState_size (net : Network) (rule : Option Nat) (kind : StateKind) :
    (net.addState rule kind).2.states.size = net.states.size + 1 := by
  simp [addState]

theorem addState_state_new (net : Network) (rule : Option Nat) (kind : StateKind) :
    (net.addState rule kind).2.state net.states.size =
      { number := net.states.size, rule, kind } := by
  rw [state_of_lt (by simp)]
  simp [addState]

theorem addState_state_of_ne (net : Network) (rule : Option Nat) (kind : StateKind) {n : Nat}
    (other : n ≠ net.states.size) : (net.addState rule kind).2.state n = net.state n := by
  rcases Nat.lt_or_gt_of_ne other with below | above
  · rw [state_of_lt (by simp; omega), state_of_lt below]
    simp [addState, Array.getElem_push_lt below]
  · rw [state_of_le (by simp; omega), state_of_le (by omega)]

@[simp]
theorem addState_out (net : Network) (rule : Option Nat) (kind : StateKind) (n : Nat) :
    (net.addState rule kind).2.out n = net.out n := by
  by_cases new : n = net.states.size
  · subst new
    rw [out_of_le (Nat.le_refl _), out, addState_state_new]
  · rw [out, addState_state_of_ne _ _ _ new, out]

/-! ## Changed states -/

@[simp]
theorem modifyState_size (net : Network) (m : Nat) (f : State → State) :
    (net.modifyState m f).states.size = net.states.size := by
  simp [modifyState]

theorem modifyState_state_same (net : Network) {m : Nat} (f : State → State)
    (bound : m < net.states.size) : (net.modifyState m f).state m = f (net.state m) := by
  rw [state_of_lt (by simpa using bound), state_of_lt bound]
  simp [modifyState, Array.getElem_modify]

theorem modifyState_state_of_ne (net : Network) {m n : Nat} (f : State → State) (other : n ≠ m) :
    (net.modifyState m f).state n = net.state n := by
  by_cases bound : n < net.states.size
  · rw [state_of_lt (by simpa using bound), state_of_lt bound]
    simp [modifyState, Array.getElem_modify, Ne.symm other]
  · rw [state_of_le (by simpa using bound), state_of_le (by simpa using bound)]

/-- What a change keeps of the changed state stays what it was. -/
theorem modifyState_keeps_at {α : Type} (net : Network) (m : Nat) (f : State → State)
    (get : State → α) (keeps : get (f (net.state m)) = get (net.state m)) (n : Nat) :
    get ((net.modifyState m f).state n) = get (net.state n) := by
  by_cases same : n = m
  · subst same
    by_cases bound : n < net.states.size
    · rw [modifyState_state_same _ _ bound, keeps]
    · rw [state_of_le (by simpa using bound), state_of_le (by simpa using bound)]
  · rw [modifyState_state_of_ne _ _ same]

/-- What a change keeps of every state stays what it was. -/
theorem modifyState_keeps {α : Type} (net : Network) (m : Nat) (f : State → State) (get : State → α)
    (keeps : ∀ s, get (f s) = get s) (n : Nat) :
    get ((net.modifyState m f).state n) = get (net.state n) :=
  modifyState_keeps_at net m f get (keeps _) n

theorem modifyState_out_of_keeps (net : Network) (m : Nat) (f : State → State)
    (keeps : ∀ s, (f s).transitions = s.transitions) (n : Nat) :
    (net.modifyState m f).out n = net.out n :=
  modifyState_keeps net m f (·.transitions) keeps n

@[simp]
theorem defineDecision_out (net : Network) (m n : Nat) :
    (net.defineDecision m).2.out n = net.out n :=
  modifyState_out_of_keeps net m (fun s => { s with decision := some net.decisions.size })
    (fun _ => rfl) n

@[simp]
theorem defineDecision_size (net : Network) (m : Nat) :
    (net.defineDecision m).2.states.size = net.states.size := by
  simp [defineDecision]

/-- All states are changed the same way. -/
theorem mapStates_state (net : Network) (f : State → State) (n : Nat) :
    ({ net with states := net.states.map f } : Network).state n =
      if n < net.states.size then f (net.state n) else net.state n := by
  by_cases inside : n < net.states.size
  · rw [if_pos inside, state_of_lt (by simpa using inside), state_of_lt inside]
    simp
  · rw [if_neg inside, state_of_le (by simpa using inside), state_of_le (by simpa using inside)]

theorem mapStates_keeps {α : Type} (net : Network) (f : State → State) (get : State → α)
    (keeps : ∀ s, get (f s) = get s) (n : Nat) :
    get (({ net with states := net.states.map f } : Network).state n) = get (net.state n) := by
  rw [mapStates_state]
  split
  · exact keeps _
  · rfl

/-! ## Added edges -/

theorem addEdge_out (net : Network) (e : Nat × Transition) (n : Nat) :
    (Decode.addEdge net e).out n =
      if e.1 = n ∧ n < net.states.size then net.out n ++ [e.2] else net.out n := by
  by_cases same : e.1 = n
  · subst same
    by_cases bound : e.1 < net.states.size
    · rw [if_pos ⟨rfl, bound⟩, out, Decode.addEdge, modifyState_state_same _ _ bound]
      rfl
    · rw [if_neg (by simp [bound]), out_of_le (by simpa [Decode.addEdge] using bound),
        out_of_le (by simpa using bound)]
  · rw [if_neg (by simp [same]), out, Decode.addEdge, modifyState_state_of_ne _ _ (Ne.symm same), out]

@[simp]
theorem addEdge_size (net : Network) (e : Nat × Transition) :
    (Decode.addEdge net e).states.size = net.states.size := by
  simp [Decode.addEdge]

theorem addEdge_state_of_ne (net : Network) (e : Nat × Transition) {n : Nat} (other : n ≠ e.1) :
    (Decode.addEdge net e).state n = net.state n :=
  modifyState_state_of_ne net _ other

/-- Adds edges to their sources, in order. -/
def addEdges (net : Network) (edges : List (Nat × Transition)) : Network :=
  edges.foldl Decode.addEdge net

@[simp]
theorem addEdges_nil (net : Network) : net.addEdges [] = net := rfl

@[simp]
theorem addEdges_cons (net : Network) (e : Nat × Transition) (edges : List (Nat × Transition)) :
    net.addEdges (e :: edges) = (Decode.addEdge net e).addEdges edges := rfl

@[simp]
theorem addEdges_size (net : Network) (edges : List (Nat × Transition)) :
    (net.addEdges edges).states.size = net.states.size := by
  induction edges generalizing net with
  | nil => rfl
  | cons e edges ih => rw [addEdges_cons, ih, addEdge_size]

/-- Edges change nothing but the states. -/
theorem addEdges_eq (net : Network) (edges : List (Nat × Transition)) :
    net.addEdges edges = { net with states := (net.addEdges edges).states } := by
  induction edges generalizing net with
  | nil => rfl
  | cons e edges ih => rw [addEdges_cons, ih]; rfl

/-- The transitions of a list of edges that leave a state. -/
def edgesFrom (n : Nat) (edges : List (Nat × Transition)) : List Transition :=
  edges.filterMap fun e => if e.1 = n then some e.2 else none

theorem addEdges_out (net : Network) (edges : List (Nat × Transition)) {n : Nat}
    (bound : n < net.states.size) :
    (net.addEdges edges).out n = net.out n ++ edgesFrom n edges := by
  induction edges generalizing net with
  | nil => simp [edgesFrom]
  | cons e edges ih =>
    rw [addEdges_cons, ih _ (by simpa using bound), addEdge_out]
    by_cases same : e.1 = n
    · simp [same, bound, edgesFrom]
    · simp [same, edgesFrom]

theorem addEdges_state (net : Network) (edges : List (Nat × Transition)) {n : Nat}
    (inside : n < net.states.size) : (net.addEdges edges).state n =
      { net.state n with transitions := net.out n ++ edgesFrom n edges } := by
  induction edges generalizing net with
  | nil => simp [edgesFrom, out]
  | cons e edges ih =>
    rw [addEdges_cons, ih _ (by simpa using inside), addEdge_out]
    by_cases same : e.1 = n
    · subst same
      rw [Decode.addEdge, modifyState_state_same _ _ inside]
      simp [edgesFrom, inside, State.addTransition]
    · rw [addEdge_state_of_ne _ _ (Ne.symm same)]
      simp [same, edgesFrom]

theorem addEdges_state_of_no_edge (net : Network) (edges : List (Nat × Transition)) {n : Nat}
    (none' : ∀ e ∈ edges, e.1 ≠ n) : (net.addEdges edges).state n = net.state n := by
  induction edges generalizing net with
  | nil => rfl
  | cons e edges ih =>
    rw [addEdges_cons, ih _ fun e' member => none' e' (by simp [member])]
    exact addEdge_state_of_ne _ _ (Ne.symm (none' e (by simp)))

end AdaptiveLL.Network
