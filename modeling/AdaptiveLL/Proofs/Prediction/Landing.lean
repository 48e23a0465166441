import AdaptiveLL.Prediction.Adaptive
import AdaptiveLL.Proofs.Context.Homeward
import AdaptiveLL.Proofs.Grammar.Returns
import AdaptiveLL.Proofs.Guards.Stateless
import AdaptiveLL.Proofs.Network.AtEnd
import AdaptiveLL.Proofs.Prediction.Alternatives
import AdaptiveLL.Proofs.Prediction.Inheritance

/-!
# Full context settles at the end of the input

With full context a thread comes to rest at the end of a rule only when it has returned from all calls, and then it
is at home: at the end of the rule of the outermost call, with nothing left on its stack (`Config.Landed`). Whatever
is remembered of merges, and however wrong it is for full context, every set of a prediction keeps to this
(`upholds_landed`). At the end of the input nothing but such threads is left, so all of them meet in one state and
one context: either one alternative is left or all that are left conflict, and every mode of prediction settles for
one (`reachSet_settled`).
-/

set_option autoImplicit false

namespace AdaptiveLL

open Prediction

/-! ## Rules of a network -/

/-- The states of a rule are entered by a call and left at one end, by what asks for nothing. -/
structure Network.Ruled (net : Network) : Prop where
  owner : ∀ n r, (net.state n).rule = some r → net.isStop n = false → ∀ t ∈ net.out n,
    (net.state t.move.next).rule = some r
  caller : ∀ n r start follow, net.isStop n = false → .call r start follow ∈ net.moves n →
    ∃ i, (net.state n).rule = some i
  called : ∀ n r start follow, net.isStop n = false → .call r start follow ∈ net.moves n →
    ∃ i, (net.state start).rule = some i
  consumes : ∀ n m, net.isStop n = false → .consume m ∈ net.moves n → net.isStop m = false
  ends : ∀ r stop stop', net.EndsRule r stop → net.EndsRule r stop' → stop = stop'
  /-- The end of a rule does not call. -/
  returns : ∀ n, net.isStop n = true → ∀ move ∈ net.moves n, ∃ m, move = .free m

theorem Grammar.compile_ruled {g : Grammar} {compiled : CompiledGrammar} {net : Network} {verify : Bool}
    (assembled : g.Assembled) (representable : g.Representable) (run : g.compile = .ok compiled)
    (decoded : Network.decode compiled.words verify = .ok net) : net.Ruled := by
  obtain ⟨built, -⟩ := compile_built assembled run decoded
  refine ⟨?_, ?_, ?_, ?_, ?_, built.returns⟩
  · exact fun n r owned inner t member => built.owner n r owned inner t.move (List.mem_map_of_mem member)
  · exact fun n r start follow inner move => compile_owned_of_call assembled run decoded inner move
  · intro n r start follow inner move
    obtain ⟨known, rfl⟩ := built.calls n r start follow inner move
    exact ⟨r, built.startRule r known⟩
  · exact fun n m inner move => compile_consumes assembled run decoded inner move
  · intro r stop stop' ends ends'
    exact Option.some.inj ((compile_ruleStop assembled representable run decoded ends).symm.trans
      (compile_ruleStop assembled representable run decoded ends'))

/-- Where a transition leads that is no call. -/
theorem Transition.next_of_plain {t : Transition} (plain : ∀ r q follow, t.label ≠ .rule r q follow) :
    t.move.next = t.target := by
  unfold move
  split
  · exact absurd ‹_› (plain _ _ _)
  · split <;> rfl

theorem Transition.move_of_consuming {t : Transition} (consumes : t.label.isEpsilon = false) :
    t.move = .consume t.target := by
  obtain ⟨target, label⟩ := t
  cases label <;> first | rfl | cases consumes

/-! ## The way home -/

namespace Context

variable {net : Network}

/-- From any rule a call stack leads home, wherever that is. -/
theorem exists_home_of_follows {follows : List Nat} (owned : ∀ n ∈ follows, ∃ r, (net.state n).rule = some r)
    (r : Nat) : ∃ home, (follows.foldl push empty).Homeward net home r := by
  induction follows using List.reverseRecOn generalizing r with
  | nil => exact ⟨r, homeward_empty⟩
  | append_singleton before n ih =>
    obtain ⟨r', known⟩ := owned n (by simp)
    obtain ⟨home, homeward⟩ := ih (fun m member => owned m (List.mem_append_left _ member)) r'
    rw [List.foldl_append]
    exact ⟨home, homeward.push known r⟩

theorem exists_home (ruled : net.Ruled) (callStack : List Nat) (r : Nat) :
    ∃ home, (ofCallStack net callStack).Homeward net home r := by
  refine exists_home_of_follows (fun follow member => ?_) r
  obtain ⟨n, -, isCall⟩ := List.mem_filterMap.1 member
  obtain ⟨t, rest, i, q, out, label⟩ : ∃ t rest i q, net.out n = t :: rest ∧ t.label = .rule i q follow := by
    unfold Network.follow? State.follow? at isCall
    split at isCall
    · rename_i found
      cases isCall
      exact ⟨_, _, _, _, found, rfl⟩
    · cases isCall
  have among : t ∈ net.out n := out ▸ List.mem_cons_self
  have isMove : t.move = .call i t.target follow := Transition.move_of_call label
  have move : .call i t.target follow ∈ net.moves n := isMove ▸ List.mem_map_of_mem among
  cases inner : net.isStop n with
  | true =>
    obtain ⟨m, free⟩ := ruled.returns n inner _ move
    cases free
  | false =>
    obtain ⟨r, owned⟩ := ruled.caller n i t.target follow inner move
    have next := ruled.owner n r owned inner t among
    rw [isMove] at next
    exact ⟨r, next⟩

end Context

/-! ## Configurations that have landed -/

namespace Config

variable {net : Network} {home : Nat} {c d : Config}

/-- The configuration lies in a rule from which its context leads home. -/
def OnWay (net : Network) (home : Nat) (c : Config) : Prop :=
  ∃ r, (net.state c.state).rule = some r ∧ c.context.Homeward net home r

/-- At the end of a rule nothing is left on the stack. -/
structure Landed (net : Network) (home : Nat) (c : Config) : Prop where
  onWay : c.OnWay net home
  grounded : net.isStop c.state = true → c.context = .empty

/-- The end at which a configuration has landed is that of the home. -/
theorem Landed.endsHome (landed : c.Landed net home) (stop : net.isStop c.state = true) :
    net.EndsRule home c.state := by
  obtain ⟨r, known, homeward⟩ := landed.onWay
  obtain ⟨-, rfl⟩ := homeward.at_home (landed.grounded stop ▸ rfl)
  exact ⟨stop, known⟩

end Config

namespace ConfigSet

variable {net : Network} {home : Nat} {s : ConfigSet} {c : Config} {memo : Context.Memo}

/-- An insertion remembers only merges that lead home. -/
theorem insertMemo_homing (homing : memo.Homing net home) : (s.insertMemo c memo).2.Homing net home := by
  unfold insertMemo
  dsimp only
  split
  · exact homing
  · split
    · exact (Context.mergeMemo_home _ _ _ _ homing).1
    · exact homing

theorem landed_insertMemo (landed : ∀ d ∈ s.configs, d.Landed net home) (new : c.Landed net home)
    (homing : memo.Homing net home) : ∀ d ∈ (s.insertMemo c memo).1.configs, d.Landed net home := by
  have pushed : ∀ d ∈ s.configs.push c, d.Landed net home :=
    fun d member => (Array.mem_push.1 member).elim (landed d) (· ▸ new)
  unfold insertMemo
  dsimp only
  split
  · unfold insertOrdered
    split
    · exact landed
    · exact pushed
  · split
    · rename_i i found
      obtain ⟨inside, agrees, -⟩ := Array.findIdx?_eq_some_iff_getElem.1 found
      have inside : i < s.configs.size := inside
      have old := landed s.configs[i] (Array.getElem_mem inside)
      have sameState : s.configs[i].state = c.state := by
        simp only [Config.agrees, Bool.and_eq_true, beq_iff_eq] at agrees
        exact agrees.1.1
      have context : (s.note c).contextAt i = s.configs[i].context := by
        simp [contextAt, note, inside]
      intro d member
      rcases (mem_absorbAt inside).1 member with rfl | ⟨j, bound, -, rfl⟩
      · rw [context]
        obtain ⟨r, known, homeward⟩ := old.onWay
        obtain ⟨r', known', homeward'⟩ := new.onWay
        obtain rfl : r = r' := Option.some.inj (known.symm.trans (sameState ▸ known'))
        refine ⟨⟨r, known, (Context.mergeMemo_home _ _ _ _ homing).2 r homeward homeward'⟩, fun stop => ?_⟩
        have same : s.configs[i].context = c.context :=
          (old.grounded stop).trans (new.grounded (sameState ▸ stop)).symm
        change (Context.mergeMemo _ s.configs[i].context c.context memo).1 = .empty
        rw [Context.mergeMemo, if_pos same]
        exact old.grounded stop
      · exact landed _ (Array.getElem_mem bound)
    · exact pushed

end ConfigSet

namespace Prediction

variable {η : Type} {env : Env η} {net : Network} {home : Nat} {full : Bool} {s : ConfigSet} {w : Scratch η} {x : Int}
  {mode : PredictionMode}

/-- What a prediction remembers leads home, and the state of the user code is the same as before. -/
structure Kept (net : Network) (home : Nat) (hooks : η) (w : Scratch η) : Prop where
  homing : w.merges.Homing net home
  hooks : w.hooks = hooks

/-- In every prediction. -/
theorem upholds_kept (stateless : env.evaluator.Stateless) (hooks : η) :
    Upholds env full (fun _ => True) (fun _ => True) fun _ w => Kept net home hooks w where
  empty kept := kept
  emptied kept := kept
  insert kept _ := ⟨ConfigSet.insertMemo_homing kept.homing, kept.hooks⟩
  share context kept := ⟨kept.homing.share context, kept.hooks⟩
  asked g kept := ⟨kept.homing, (Guard.eval_stateless stateless g _).trans kept.hooks⟩
  resolved g kept := ⟨kept.homing, (Guard.resolve_stateless stateless g _).trans kept.hooks⟩
  dips kept := kept
  mem _ _ := trivial
  opened _ := trivial
  rested _ _ := trivial
  carried _ _ _ _ := trivial
  moved _ _ _ _ := trivial
  called _ _ _ _ := trivial
  guarded _ _ _ _ := trivial
  left _ _ _ := trivial
  returned _ _ _ := trivial
  ended _ _ _ := trivial

/-- With full context every configuration lands. -/
theorem upholds_landed (ruled : env.net.Ruled) :
    Upholds env true (Config.OnWay env.net home) (Config.Landed env.net home) fun s (w : Scratch η) =>
      (∀ c ∈ s.configs, c.Landed env.net home) ∧ w.merges.Homing env.net home where
  empty kept := ⟨fun c member => by simp [ConfigSet.ofParser] at member, kept.2⟩
  emptied kept := ⟨fun c member => by simp [ConfigSet.ofParser] at member, kept.2⟩
  insert kept landed := ⟨ConfigSet.landed_insertMemo kept.1 landed kept.2, ConfigSet.insertMemo_homing kept.2⟩
  share context kept := ⟨kept.1, kept.2.share context⟩
  asked _ kept := kept
  resolved _ kept := kept
  dips kept := kept
  mem kept member := kept.1 _ member
  opened landed := landed.onWay
  rested onWay rests := ⟨onWay, fun stop => by
    obtain ⟨r, -, homeward⟩ := onWay
    exact (homeward.at_home (rests rfl stop)).1⟩
  carried {c t} landed member inner consumes := by
    obtain ⟨r, known, homeward⟩ := landed.onWay
    have isMove := Transition.move_of_consuming consumes
    have next := ruled.owner c.state r known inner t member
    rw [isMove] at next
    have inner' := ruled.consumes c.state t.target inner (isMove ▸ List.mem_map_of_mem member)
    exact ⟨⟨r, next, homeward⟩, fun stop => absurd (inner'.symm.trans stop) Bool.false_ne_true⟩
  moved {c t} onWay member inner plain := by
    obtain ⟨r, known, homeward⟩ := onWay
    exact ⟨r, Transition.next_of_plain plain ▸ ruled.owner c.state r known (inner rfl) t member, homeward⟩
  called {c t i q ret} onWay member inner label := by
    obtain ⟨r, known, homeward⟩ := onWay
    have isMove := Transition.move_of_call label
    have next := ruled.owner c.state r known (inner rfl) t member
    rw [isMove] at next
    obtain ⟨r', entered⟩ := ruled.called c.state i t.target ret (inner rfl) (isMove ▸ List.mem_map_of_mem member)
    exact ⟨r', entered, homeward.push next r'⟩
  guarded isLocal := absurd isLocal.symm Bool.false_ne_true
  left _ _ onWay := onWay
  returned onWay _ member := by
    obtain ⟨r, -, homeward⟩ := onWay
    obtain ⟨r', known, further⟩ := homeward.2.of_mem member
    rw [if_neg further.1]
    exact ⟨r', known, further⟩
  ended onWay _ member := by
    obtain ⟨r, known, homeward⟩ := onWay
    obtain ⟨rfl, -⟩ := homeward.2.of_mem member
    exact ⟨r, known, Context.homeward_empty⟩

/-! ## What is left at the end -/

/-- Alternatives with one key make one group. -/
theorem groups_of_key {κ : Type} [DecidableEq κ] {key : Config → κ} {k : κ} (nonempty : s.isEmpty = false)
    (same : ∀ c ∈ s.configs, key c = k) : ∃ g, groups key s = [g] := by
  have fold (cs : List Config) (g : AltSet) (same : ∀ c ∈ cs, key c = k) :
      ∃ g', cs.foldl (fun gs c => addToGroup (key c) c.alt gs) [(k, g)] = [(k, g')] := by
    induction cs generalizing g with
    | nil => exact ⟨g, rfl⟩
    | cons c rest ih =>
      rw [List.foldl_cons, same c List.mem_cons_self, addToGroup, if_pos rfl]
      exact ih _ fun d member => same d (List.mem_cons_of_mem _ member)
  have same : ∀ c ∈ s.configs.toList, key c = k := fun c member => same c (Array.mem_toList_iff.1 member)
  unfold groups
  cases configs : s.configs.toList with
  | nil =>
    rw [ConfigSet.isEmpty, Array.isEmpty_eq_false_iff] at nonempty
    exact absurd (Array.toList_eq_nil_iff.1 configs) nonempty
  | cons c rest =>
    rw [configs] at same
    obtain ⟨g, folded⟩ := fold rest (.singleton c.alt) fun d member => same d (List.mem_cons_of_mem _ member)
    refine ⟨g, ?_⟩
    rw [List.foldl_cons, same c List.mem_cons_self, addToGroup, folded]
    rfl

/-- Where all configurations meet in one state and one context, every mode settles. -/
theorem settled_of_meeting {k : Nat × Context} (nonempty : s.isEmpty = false)
    (valid : ∀ c ∈ s.configs, c.alt ≠ invalidAlt) (meet : ∀ c ∈ s.configs, (c.state, c.context) = k) :
    ∃ outcome, Simulator.settled? mode { s with uniqueAlt := s.sharedAlt } = some outcome := by
  have grouped : Grouped s.configs.toList (conflictGroups s) := grouped_of _ s
  obtain ⟨g, single⟩ := groups_of_key nonempty meet
  have single : conflictGroups s = [g] := single
  rw [single] at grouped
  unfold Simulator.settled?
  rw [show conflictGroups { s with uniqueAlt := s.sharedAlt } = [g] from single]
  dsimp only
  split
  · exact ⟨_, rfl⟩
  rename_i several
  have several : s.sharedAlt = invalidAlt := not_not.1 several
  have only : AltSet.min? g = some (singleViable [g]) := by
    obtain ⟨a, least⟩ : ∃ a, g.min? = some a := by
      obtain ⟨a, member⟩ := grouped.nonempty g List.mem_cons_self
      unfold AltSet.min?
      cases members : g.members with
      | nil => simp [members] at member
      | cons b _ => exact ⟨b, rfl⟩
    rw [least, singleViable]
    simp [least, AltSet.ofList, AltSet.insert, AltSet.empty, AltSet.insertAscending]
  have isValid : singleViable [g] ≠ invalidAlt := by
    have member := ((grouped.ascends g List.mem_cons_self).min?_eq_some_iff.1 only).1
    obtain ⟨c, among, same⟩ := grouped.sound g List.mem_cons_self _ member
    exact same ▸ valid c (Array.mem_toList_iff.1 among)
  split
  · exact ⟨_, rfl⟩
  · have all : g = s.alts := by
      refine (grouped.ascends g List.mem_cons_self).ext (AltSet.ofList_spec _).1 fun a => ?_
      rw [mem_alts]
      refine ⟨fun member => grouped.sound g List.mem_cons_self a member, ?_⟩
      rintro ⟨c, among, rfl⟩
      obtain ⟨g', isGroup, member⟩ := grouped.complete c among
      exact List.mem_singleton.1 isGroup ▸ member
    have two : 1 < g.size := all ▸ two_le_alts nonempty valid several
    have conflict : (allConflict [g] && allEqual [g]) = true := by simpa [allConflict, allEqual] using two
    rw [if_pos conflict]
    exact ⟨_, rfl⟩

/-- At the end of the input full context settles for an alternative, unless nothing is left. -/
theorem reachSet_settled (ruled : env.net.Ruled) (landed : ∀ c ∈ s.configs, c.Landed env.net home)
    (valid : s.Within fun alt _ => alt ≠ invalidAlt) (homing : w.merges.Homing env.net home) :
    Leaves (reachSet env s endOfInput true) w fun result _ => ∀ reach, result = some reach →
      ∃ outcome, Simulator.settled? mode { reach with uniqueAlt := reach.sharedAlt } = some outcome := by
  have inherits : env.net.Inherits fun alt _ => alt ≠ invalidAlt := fun _ _ _ _ _ _ _ valid => valid
  intro result w' ran reach found
  obtain ⟨-, isLanded⟩ := reachSet_upholds (upholds_landed ruled) ⟨landed, homing⟩ result w' ran
  obtain ⟨-, isValid⟩ := reachSet_upholds (upholds_within inherits) valid result w' ran
  obtain ⟨⟨landed', -⟩, nonempty⟩ := isLanded reach found
  have stops := allAtStop_iff.1 (reachSet_atStop (.inl rfl) result w' ran reach found)
  obtain ⟨c, member⟩ : ∃ c, c ∈ reach.configs := by
    rw [ConfigSet.isEmpty, Array.isEmpty_eq_false_iff] at nonempty
    exact Array.exists_mem_of_ne_empty _ nonempty
  refine settled_of_meeting nonempty (isValid reach found).1.configs fun d among => (?_ : _ = (c.state, Context.empty))
  rw [(landed' d among).grounded (stops d among)]
  refine congrArg (·, _) ?_
  exact ruled.ends home _ _ ((landed' d among).endsHome (stops d among)) ((landed' c member).endsHome (stops c member))

end Prediction

end AdaptiveLL
