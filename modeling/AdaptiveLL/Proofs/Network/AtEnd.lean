import AdaptiveLL.Proofs.Network.Silent

/-!
# Networks at the end of the input

At the end of the input a transition that asks for it is passed without moving on, as often as a thread comes
to it. So what can be passed there is what can be passed silently in a network where these transitions ask for
nothing (`atEnd`). When no rule of that network comes back to its start, none does in the network itself
(`Progressive.of_atEnd`), but not the other way round: a rule that matches the end of the input and then itself
goes on forever there.
-/

set_option autoImplicit false

namespace AdaptiveLL

/-- Does the transition ask for the end of the input? -/
def Transition.takesEnd (t : Transition) : Bool := t.label.accepts endOfInput 0 1

/-- What is left of the transition at the end of the input. -/
def Transition.atEnd (t : Transition) : Transition := if t.takesEnd then .epsilon t.target else t

theorem Transition.atEnd_of_free {t : Transition} (free : t.label.isEpsilon = true) : t.atEnd = t := by
  have notEnd : t.takesEnd = false := by
    obtain ⟨target, label⟩ := t
    cases label <;> first | rfl | cases free
  rw [atEnd, notEnd, if_neg Bool.false_ne_true]

theorem Transition.move_of_call {t : Transition} {r follow : Nat} {q : Int} (label : t.label = .rule r q follow) :
    t.move = .call r t.target follow := by
  rw [move, label]

theorem Transition.move_of_takesEnd {t : Transition} (takes : t.takesEnd = true) :
    t.atEnd.move = .free t.target := by
  rw [atEnd, if_pos takes]
  rfl

namespace Network

/-- The network at the end of the input: what asks for the end asks for nothing. -/
def atEnd (net : Network) : Network :=
  { net with states := net.states.map fun s => { s with transitions := s.transitions.map Transition.atEnd } }

variable {net : Network} {n m r start follow : Nat} {move : Move}

@[simp]
theorem isStop_atEnd (net : Network) (n : Nat) : net.atEnd.isStop n = net.isStop n :=
  mapStates_keeps net (fun s => { s with transitions := s.transitions.map Transition.atEnd })
    (fun s => s.kind.isRuleStop) (fun _ => rfl) n

theorem out_atEnd (net : Network) (n : Nat) : net.atEnd.out n = (net.out n).map Transition.atEnd := by
  rw [out, atEnd, mapStates_state]
  split
  · rfl
  · rename_i outside
    rw [out_of_le (Nat.not_lt.1 outside), state_of_le (Nat.not_lt.1 outside)]
    rfl

theorem mem_moves_atEnd {t : Transition} (member : t ∈ net.out n) : t.atEnd.move ∈ net.atEnd.moves n := by
  rw [moves, out_atEnd]
  exact List.mem_map_of_mem (List.mem_map_of_mem member)

/-- What consumes nothing is left as it is. -/
theorem mem_moves_atEnd_of_silent (member : move ∈ net.moves n) (silent : ∀ k, move ≠ .consume k) :
    move ∈ net.atEnd.moves n := by
  obtain ⟨t, among, rfl⟩ := List.mem_map.1 member
  have free : t.label.isEpsilon = true := by
    by_contra consumes
    obtain ⟨target, label⟩ := t
    cases label <;> first | exact silent _ rfl | exact consumes rfl
  have same := mem_moves_atEnd among
  rwa [Transition.atEnd_of_free free] at same

theorem call_of_atEnd (call : .call r start follow ∈ net.atEnd.moves n) : .call r start follow ∈ net.moves n := by
  rw [moves, out_atEnd, List.map_map] at call
  obtain ⟨t, among, isCall⟩ := List.mem_map.1 call
  rw [Function.comp_apply, Transition.atEnd] at isCall
  split at isCall
  · cases isCall
  · exact isCall ▸ List.mem_map_of_mem among

theorem Passes.atEnd (passes : net.Passes n) : net.atEnd.Passes n := by
  induction passes with
  | stop isStop => exact .stop ((isStop_atEnd _ _).trans isStop)
  | free inner move _ ih => exact .free ((isStop_atEnd _ _).trans inner) (mem_moves_atEnd_of_silent move nofun) ih
  | call inner move _ _ ihThrough ihRest =>
    exact .call ((isStop_atEnd _ _).trans inner) (mem_moves_atEnd_of_silent move nofun) ihThrough ihRest

theorem Silent.atEnd (silent : net.Silent n m) : net.atEnd.Silent n m := by
  cases silent with
  | glide step =>
    cases step with
    | free inner move =>
      exact .glide (.free ((isStop_atEnd _ _).trans inner) (mem_moves_atEnd_of_silent move nofun))
    | skip inner move passed =>
      exact .glide (.skip ((isStop_atEnd _ _).trans inner) (mem_moves_atEnd_of_silent move nofun) passed.atEnd)
  | enter inner move => exact .enter ((isStop_atEnd _ _).trans inner) (mem_moves_atEnd_of_silent move nofun)

/-- A rule that comes back to its start comes back at the end of the input as well. -/
theorem Progressive.of_atEnd (progressive : net.atEnd.Progressive) : net.Progressive :=
  fun r known circle => progressive r known (Relation.TransGen.mono (fun _ _ => Silent.atEnd) _ _ circle)

theorem CallsStarts.atEnd (calls : net.CallsStarts) : net.atEnd.CallsStarts := by
  intro n r start follow inner call
  exact calls n r start follow ((isStop_atEnd net n).symm.trans inner) (call_of_atEnd call)

end Network

end AdaptiveLL
