import AdaptiveLL.Prediction.Reach
import AdaptiveLL.Proofs.Context.Stacks
import AdaptiveLL.Proofs.Network.Threads

/-!
# Configurations of a prediction as threads

A configuration of a prediction is, for its alternative, a bundle of threads of the network: one for each
call stack of its context (`Config.Stands`). Adding a configuration to a set adds its threads, and with full
context nothing else (`ConfigSet.Plain.insertMemo`). This holds as long as the remembered merges are right
for the kind of context, and no configuration has a guard.
-/

set_option autoImplicit false

namespace AdaptiveLL

open Network

/-- The configuration stands for the thread of the alternative. -/
def Config.Stands (wild : Bool) (c : Config) (a : Nat) (θ : Thread) : Prop :=
  c.alt = a ∧ c.state = θ.state ∧ c.context.Stands wild θ.stack

/-- A configuration without a guard, with a context and an alternative. -/
structure Config.Plain (c : Config) : Prop where
  guard : c.guard = .always
  formed : c.context.WellFormed
  present : c.context ≠ .nil
  valid : c.alt ≠ invalidAlt

/-- Remembered merges that are right for the flag. -/
structure Context.Memo.Faithful (wild : Bool) (memo : Memo) : Prop where
  right : memo.Right wild
  coherent : memo.Coherent

theorem Context.Memo.faithful_empty (wild : Bool) : Memo.Faithful wild {} :=
  ⟨right_empty wild, coherent_empty⟩

theorem Context.Memo.Faithful.mergeMemo {wild : Bool} {memo : Memo} {a b : Context}
    (faithful : memo.Faithful wild) (formedA : a.WellFormed) (formedB : b.WellFormed) :
    (Context.mergeMemo wild a b memo).1 = merge wild a b ∧
      (Context.mergeMemo wild a b memo).2.Faithful wild := by
  obtain ⟨value, growth⟩ := mergeMemo_spec wild a b memo formedA formedB faithful.coherent
  have extends' := growth (faithful.right.fits a b)
  exact ⟨value.2 (faithful.right.fits a b), faithful.right.extends extends', extends'.coherent⟩

theorem Context.Memo.Faithful.share {wild : Bool} {memo : Memo} (faithful : memo.Faithful wild)
    (c : Context) : (memo.share c).2.Faithful wild := by
  unfold Memo.share
  split
  · exact faithful
  · exact ⟨faithful.right, faithful.coherent⟩

namespace ConfigSet

variable {full : Bool} {s : ConfigSet} {c : Config} {memo : Context.Memo} {a : Nat} {θ : Thread}

/-- A set of a prediction without guards. -/
structure Plain (full : Bool) (s : ConfigSet) : Prop where
  ordered : s.ordered = false
  fullContext : s.fullContext = full
  configs : ∀ c ∈ s.configs, c.Plain

/-- The set has the thread of the alternative. -/
def Has (full : Bool) (s : ConfigSet) (a : Nat) (θ : Thread) : Prop :=
  ∃ c ∈ s.configs, c.Stands (!full) a θ

theorem plain_ofParser (full : Bool) : (ofParser full).Plain full :=
  ⟨rfl, rfl, fun c member => by simp [ofParser] at member⟩

theorem not_has_ofParser : ¬ (ofParser full).Has full a θ := by
  rintro ⟨c, member, -⟩
  simp [ofParser] at member

/-- Configurations without guards share their place if they have the same state and alternative. -/
theorem agrees_of_plain {c d : Config} (plainC : c.Plain) (plainD : d.Plain) :
    c.agrees d = true ↔ c.state = d.state ∧ c.alt = d.alt := by
  simp [Config.agrees, plainC.guard, plainD.guard]

/-- The members of a set after a configuration was merged into the one at a place. -/
theorem mem_absorbAt {i : Nat} (inside : i < s.configs.size) {merged : Context} {d : Config} :
    d ∈ (s.absorbAt i c merged).configs ↔ d = s.configs[i].absorb c merged ∨
      ∃ (j : Nat) (bound : j < s.configs.size), j ≠ i ∧ d = s.configs[j] := by
  simp only [absorbAt, Array.mem_iff_getElem, Array.size_modify, Array.getElem_modify]
  constructor
  · rintro ⟨j, bound, rfl⟩
    by_cases here : i = j
    · subst here
      exact .inl (if_pos rfl)
    · exact .inr ⟨j, bound, Ne.symm here, if_neg here⟩
  · rintro (rfl | ⟨j, bound, other, rfl⟩)
    · exact ⟨i, inside, if_pos rfl⟩
    · exact ⟨j, bound, if_neg (Ne.symm other)⟩

theorem Plain.insertMemo (plain : s.Plain full) (plainC : c.Plain) (faithful : memo.Faithful (!full)) :
    (s.insertMemo c memo).1.Plain full ∧ (s.insertMemo c memo).2.Faithful (!full) ∧
      (∀ a θ, s.Has full a θ ∨ c.Stands (!full) a θ → (s.insertMemo c memo).1.Has full a θ) ∧
      (full = true → ∀ a θ, (s.insertMemo c memo).1.Has full a θ → s.Has full a θ ∨ c.Stands false a θ) := by
  have flag : (!(s.note c).fullContext) = !full := congrArg (!·) plain.fullContext
  unfold ConfigSet.insertMemo
  rw [if_neg (by simp [note, plain.ordered])]
  split
  · rename_i i found
    obtain ⟨inside, agrees, -⟩ := Array.findIdx?_eq_some_iff_getElem.1 found
    have inside : i < s.configs.size := inside
    have plainOld := plain.configs s.configs[i] (Array.getElem_mem inside)
    obtain ⟨state, alt⟩ := (agrees_of_plain plainOld plainC).1 agrees
    have context : (s.note c).contextAt i = s.configs[i].context := by
      simp [contextAt, note, inside]
    obtain ⟨merged, faithful'⟩ := faithful.mergeMemo plainOld.formed plainC.formed
    rw [flag, context]
    dsimp only
    rw [merged]
    refine ⟨⟨plain.ordered, plain.fullContext, ?_⟩, faithful', ?_, ?_⟩
    · intro d member
      rcases (mem_absorbAt inside).1 member with rfl | ⟨j, bound, -, rfl⟩
      · exact ⟨plainOld.guard, plainOld.formed.merge _ plainC.formed,
          Context.merge_ne_nil plainOld.formed plainC.formed plainOld.present, plainOld.valid⟩
      · exact plain.configs _ (Array.getElem_mem bound)
    · rintro a θ (⟨d, member, stands⟩ | ⟨alt', state', context'⟩)
      · obtain ⟨j, bound, rfl⟩ := Array.mem_iff_getElem.1 member
        by_cases here : j = i
        · subst here
          refine ⟨_, (mem_absorbAt inside).2 (.inl rfl), stands.1, stands.2.1, ?_⟩
          exact Context.stands_merge _ plainOld.formed plainC.formed _ (.inl stands.2.2)
        · exact ⟨_, (mem_absorbAt inside).2 (.inr ⟨j, bound, here, rfl⟩), stands⟩
      · refine ⟨_, (mem_absorbAt inside).2 (.inl rfl), alt.trans alt', state.trans state', ?_⟩
        exact Context.stands_merge _ plainOld.formed plainC.formed _ (.inr context')
    · rintro rfl a θ ⟨d, member, stands⟩
      rcases (mem_absorbAt inside).1 member with rfl | ⟨j, bound, -, rfl⟩
      · obtain ⟨alt', state', context'⟩ := stands
        rcases Context.stands_of_merge plainOld.formed plainC.formed context' with old | new
        · exact .inl ⟨_, Array.getElem_mem inside, alt', state', old⟩
        · exact .inr ⟨alt.symm.trans alt', state.symm.trans state', new⟩
      · exact .inl ⟨_, Array.getElem_mem bound, stands⟩
  · refine ⟨⟨plain.ordered, plain.fullContext, ?_⟩, faithful, ?_, ?_⟩
    · intro d member
      rcases Array.mem_push.1 member with old | rfl
      · exact plain.configs d old
      · exact plainC
    · rintro a θ (⟨d, member, stands⟩ | stands)
      · exact ⟨d, Array.mem_push.2 (.inl member), stands⟩
      · exact ⟨c, Array.mem_push.2 (.inr rfl), stands⟩
    · rintro isFull a θ ⟨d, member, stands⟩
      rcases Array.mem_push.1 member with old | rfl
      · exact .inl ⟨d, old, stands⟩
      · rw [isFull] at stands
        exact .inr stands

end ConfigSet

end AdaptiveLL
