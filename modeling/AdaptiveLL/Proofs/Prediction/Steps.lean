import AdaptiveLL.Proofs.Prediction.Closure

/-!
# The steps of a prediction

The set with which a prediction begins and the sets behind each token, by their threads. A token moves the
threads of a set that consume it (`move_spec`); the closure of what was moved is left out where one
alternative is left (`reachSet_full`, `reachSet_local`).
-/

set_option autoImplicit false

namespace AdaptiveLL

open Network

/-- A computation folds a list: each turn takes what the turns before have achieved one step further. -/
theorem Leaves.foldlM {σ α β : Type} {f : β → α → StateT σ Option β} {P : List α → β → σ → Prop} {l : List α}
    {b : β} {s : σ} (before : P [] b s)
    (each : ∀ done x b s, x ∈ l → P done b s → Leaves (f b x) s (P (done ++ [x]))) :
    Leaves (l.foldlM f b) s (P l) := by
  have from' (rest done : List α) (b : β) (s : σ) (holds : P done b s) (known : ∀ x ∈ rest, x ∈ l) :
      Leaves (rest.foldlM f b) s (P (done ++ rest)) := by
    induction rest generalizing done b s with
    | nil =>
      rw [List.append_nil]
      exact .pure holds
    | cons x rest ih =>
      rw [List.foldlM_cons]
      refine (each done x b s (known x List.mem_cons_self) holds).bind fun b' s' holds' => ?_
      rw [← List.singleton_append, ← List.append_assoc]
      exact ih (done ++ [x]) b' s' holds' fun y member => known y (List.mem_cons_of_mem _ member)
  exact from' l [] b s before fun _ => id

namespace Prediction

variable {η : Type} {env : Env η} {net : Network} {full : Bool} {Q : Nat → Thread → Prop} {s s' : ConfigSet}
  {w : Scratch η} {c : Config} {x : Int}

/-! ## Inserted threads -/

/-- The set got the threads with `U` and, with full context, no others. -/
structure Inserts (full : Bool) (s : ConfigSet) (U : Nat → Thread → Prop) (s' : ConfigSet) (w' : Scratch η) :
    Prop where
  plain : s'.Plain full
  faithful : w'.merges.Faithful (!full)
  has : ∀ a θ, s.Has full a θ ∨ U a θ → s'.Has full a θ
  only : full = true → ∀ a θ, s'.Has full a θ → s.Has full a θ ∨ U a θ

theorem Inserts.refl (plain : s.Plain full) (faithful : w.merges.Faithful (!full)) :
    Inserts full s (fun _ _ => False) s w :=
  ⟨plain, faithful, fun _ _ known => known.resolve_right id, fun _ _ _ => .inl⟩

theorem insert_inserts (plain : s.Plain full) (faithful : w.merges.Faithful (!full)) (plainC : c.Plain) :
    Leaves (insert s c) w (Inserts full s (c.Stands (!full))) := by
  obtain ⟨plain', faithful', has, only⟩ := plain.insertMemo plainC faithful
  intro s' w' ran
  cases ran
  refine ⟨plain', faithful', has, fun isFull a θ known => ?_⟩
  subst isFull
  exact only rfl a θ known

/-- What every turn inserts is inserted in the end. -/
theorem foldlM_inserts {α : Type} {f : ConfigSet → α → ScratchM η ConfigSet} {U : α → Nat → Thread → Prop}
    {l : List α} (plain : s.Plain full) (faithful : w.merges.Faithful (!full))
    (each : ∀ y ∈ l, ∀ (s : ConfigSet) (w : Scratch η), s.Plain full → w.merges.Faithful (!full) →
      Leaves (f s y) w (Inserts full s (U y))) :
    Leaves (l.foldlM f s) w (Inserts full s fun a θ => ∃ y ∈ l, U y a θ) := by
  refine Leaves.foldlM (P := fun done => Inserts full s fun a θ => ∃ y ∈ done, U y a θ) ?_ ?_
  · exact ⟨plain, faithful, fun a θ known => known.resolve_right (by simp), fun _ _ _ => .inl⟩
  · intro done y s₁ w₁ member earlier s₂ w₂ ran
    have later := each y member s₁ w₁ earlier.plain earlier.faithful s₂ w₂ ran
    refine ⟨later.plain, later.faithful, fun a θ known => later.has a θ ?_, fun isFull a θ known => ?_⟩
    · rcases known with old | ⟨z, among, new⟩
      · exact .inl (earlier.has a θ (.inl old))
      · rcases List.mem_append.1 among with before | here
        · exact .inl (earlier.has a θ (.inr ⟨z, before, new⟩))
        · exact .inr (List.mem_singleton.1 here ▸ new)
    · rcases later.only isFull a θ known with known | new
      · rcases earlier.only isFull a θ known with old | ⟨z, among, new⟩
        · exact .inl old
        · exact .inr ⟨z, List.mem_append_left _ among, new⟩
      · exact .inr ⟨y, by simp, new⟩

/-! ## Closures of several configurations -/

/-- The closure of the configuration went into the set. -/
def Covers (η : Type) (net : Network) (full : Bool) (s : ConfigSet) (c : Config) : Prop :=
  ∃ work : Work η, (∀ a θ, work.configs.Has full a θ → s.Has full a θ) ∧
    (∀ d ∈ work.busy, Expanded net full work d) ∧ Handled net full work c

theorem Covers.mono (covers : Covers η net full s c) (kept : ∀ a θ, s.Has full a θ → s'.Has full a θ) :
    Covers η net full s' c := by
  obtain ⟨work, within, expanded, handled⟩ := covers
  exact ⟨work, fun a θ known => kept a θ (within a θ known), expanded, handled⟩

/-- The closures of the configurations were added to the set. -/
structure Closes (net : Network) (full : Bool) (Q : Nat → Thread → Prop) (s : ConfigSet) (cs : List Config)
    (s' : ConfigSet) (w' : Scratch η) : Prop where
  plain : s'.Plain full
  faithful : w'.merges.Faithful (!full)
  kept : ∀ a θ, s.Has full a θ → s'.Has full a θ
  sound : full = true → ∀ a θ, s'.Has full a θ → s.Has full a θ ∨ (Q a θ ∧ net.Rests θ.state)
  covers : ∀ c ∈ cs, Covers η net full s' c

theorem closureOf_closes (unguarded : env.net.Unguarded) (closed : Closed env.net Q) (plain : s.Plain full)
    (faithful : w.merges.Faithful (!full)) {cs : List Config} (plains : ∀ c ∈ cs, c.Plain)
    (sound : full = true → ∀ c ∈ cs, ∀ a θ, c.Stands false a θ → Q a θ) (collect : Bool) :
    Leaves (closureOf env ⟨full, false⟩ collect s cs) w (Closes env.net full Q s cs) := by
  refine .get_bind (.lift_bind fun ⟨⟨⟩, work⟩ ran => ?_)
  have fit : Fit full ({ configs := s, scratch := w } : Work η) := ⟨plain, faithful⟩
  have leaves : Leaves (cs.forM fun c => closure env ⟨full, false⟩ env.fuel c collect 0)
      ({ configs := s, scratch := w } : Work η) fun _ w' =>
        Spans env.net full Q { configs := s, scratch := w } w' ∧ ∀ c ∈ cs, Handled env.net full w' c :=
    Leaves.forM (P := fun c w' => Handled env.net full w' c) (R := Spans env.net full Q)
      (fun spans => .refl spans.toFit) Spans.trans (fun spans handled => handled.mono spans.toGrows) (.refl fit)
      fun c member w' spans => closure_spans unguarded closed env.fuel w' c collect 0 spans.toFit
        (plains c member) fun isFull => sound isFull c member
  obtain ⟨spans, handled⟩ := leaves _ _ ran
  intro s' w' ran'
  cases ran'
  refine ⟨spans.plain, spans.faithful, spans.kept, spans.sound, fun c member => ?_⟩
  refine ⟨work, fun _ _ => id, fun d noted => ?_, handled c member⟩
  exact (spans.expanded d noted).resolve_left Std.HashSet.not_mem_empty

/-! ## The start -/

/-- The configuration with which an alternative begins. -/
def first (i : Nat) (t : Transition) (context : Context) : Config := { state := t.target, alt := i + 1, context }

/-- A prediction begins with the closures of its alternatives. -/
theorem startSet_spec (unguarded : env.net.Unguarded) (closed : Closed env.net Q)
    (faithful : w.merges.Faithful (!full)) {context : Context} (formed : context.WellFormed)
    (present : context ≠ .nil) (sound : full = true → ∀ i t, (env.net.out env.startState)[i]? = some t →
      ∀ a θ, (first i t context).Stands false a θ → Q a θ) :
    Leaves (startSet env context full) w fun s w' => s.Plain full ∧ w'.merges.Faithful (!full) ∧
      (full = true → ∀ a θ, s.Has full a θ → Q a θ ∧ env.net.Rests θ.state) ∧
      ∀ i t, (env.net.out env.startState)[i]? = some t → Covers η env.net full s (first i t context) := by
  have each := Leaves.foldlM (f := fun configs (y : Transition × Nat) =>
      closureOf env { fullContext := full, atEof := false } true configs [first y.2 y.1 context])
    (P := fun done s w' => s.Plain full ∧ w'.merges.Faithful (!full) ∧
      (full = true → ∀ a θ, s.Has full a θ → Q a θ ∧ env.net.Rests θ.state) ∧
      ∀ y ∈ done, Covers η env.net full s (first y.2 y.1 context))
    (l := (env.net.out env.startState).zipIdx) (b := .ofParser full) (s := w)
    ⟨ConfigSet.plain_ofParser full, faithful, fun _ a θ known => absurd known ConfigSet.not_has_ofParser,
      nofun⟩ ?_
  · intro s w' ran
    obtain ⟨plain, faithful', sound', covers⟩ := each s w' ran
    refine ⟨plain, faithful', sound', fun i t found => covers (t, i) ?_⟩
    exact List.mem_zipIdx_iff_getElem?.2 found
  · rintro done ⟨t, i⟩ s₁ w₁ member ⟨plain, faithful₁, sound₁, covers₁⟩ s₂ w₂ ran
    have found := List.mem_zipIdx_iff_getElem?.1 member
    have plains : ∀ c ∈ [first i t context], c.Plain := by
      simpa using ⟨rfl, formed, present, Nat.succ_ne_zero i⟩
    have closes := closureOf_closes unguarded closed plain faithful₁ plains (fun isFull c among => by
      obtain rfl := List.mem_singleton.1 among
      exact sound isFull i t found) true s₂ w₂ ran
    refine ⟨closes.plain, closes.faithful, fun isFull a θ known => ?_, fun y among => ?_⟩
    · rcases closes.sound isFull a θ known with old | new
      · exact sound₁ isFull a θ old
      · exact new
    · rcases List.mem_append.1 among with before | here
      · exact (covers₁ y before).mono closes.kept
      · obtain rfl := List.mem_singleton.1 here
        exact closes.covers _ (by simp)

/-! ## Moving over a token -/

/-- The threads of a set that consume a token, behind it. -/
def Consumed (env : Env η) (full : Bool) (s : ConfigSet) (x : Int) (a : Nat) (θ' : Thread) : Prop :=
  ∃ θ, s.Has full a θ ∧ θ' ∈ env.net.consumeNext 0 env.net.maxTokenType x θ

/-- The set has the threads with `U` and, with full context, no others. -/
structure Moved (full : Bool) (U : Nat → Thread → Prop) (s : ConfigSet) (w : Scratch η) : Prop where
  plain : s.Plain full
  faithful : w.merges.Faithful (!full)
  has : ∀ a θ, U a θ → s.Has full a θ
  only : full = true → ∀ a θ, s.Has full a θ → U a θ

theorem move_spec (plain : s.Plain full) (faithful : w.merges.Faithful (!full)) :
    Leaves (move env s x full) w (Moved full (Consumed env full s x)) := by
  let U (c : Config) (a : Nat) (θ : Thread) : Prop :=
    ∃ t ∈ env.net.out c.state, t.label.accepts x 0 env.net.maxTokenType = true ∧
      (c.withState t.target).Stands (!full) a θ
  have inner (c : Config) (plainC : c.Plain) (s : ConfigSet) (w : Scratch η) (plain : s.Plain full)
      (faithful : w.merges.Faithful (!full)) :
      Leaves ((env.net.out c.state).foldlM (fun moved t =>
        if t.label.accepts x 0 env.net.maxTokenType then insert moved (c.withState t.target) else pure moved) s) w
        (Inserts full s (U c)) := by
    have turns := foldlM_inserts (l := env.net.out c.state) (s := s) (w := w)
      (U := fun t a θ => t.label.accepts x 0 env.net.maxTokenType = true ∧
        (c.withState t.target).Stands (!full) a θ)
      (f := fun moved t => if t.label.accepts x 0 env.net.maxTokenType then insert moved (c.withState t.target)
        else pure moved) plain faithful fun t _ s w plain faithful => ?_
    · exact turns
    · cases accepts : t.label.accepts x 0 env.net.maxTokenType with
      | true =>
        intro s' w' ran
        have inserts := insert_inserts plain faithful
          (c := c.withState t.target) ⟨plainC.guard, plainC.formed, plainC.present, plainC.valid⟩ s' w' ran
        simpa using inserts
      | false =>
        refine .pure ⟨plain, faithful, fun a θ known => ?_, fun _ a θ => .inl⟩
        exact known.resolve_right (fun new => nomatch new.1)
  have turns := foldlM_inserts (l := s.configs.toList.filter fun c => !(env.net.state c.state).kind.isRuleStop)
    (s := .ofParser full) (w := w) (U := U) (ConfigSet.plain_ofParser full) faithful fun c among s₁ w₁ plain₁ =>
      inner c (plain.configs c (Array.mem_toList_iff.1 (List.mem_filter.1 among).1)) s₁ w₁ plain₁
  intro s' w' ran
  have inserts := turns s' w' ran
  refine ⟨inserts.plain, inserts.faithful, fun a θ' consumed => inserts.has a θ' (.inr ?_), ?_⟩
  · obtain ⟨⟨n, stack⟩, ⟨c, member, alt, rfl, context⟩, step⟩ := consumed
    obtain ⟨isInner, t, among, accepts, rfl⟩ := mem_consumeNext.1 step
    refine ⟨c, List.mem_filter.2 ⟨Array.mem_toList_iff.2 member, ?_⟩, t, among, accepts, alt, rfl, context⟩
    exact congrArg (!·) isInner
  · intro isFull a θ' known
    obtain ⟨c, among, t, edge, accepts, alt, state, context⟩ :=
      (inserts.only isFull a θ' known).resolve_left ConfigSet.not_has_ofParser
    obtain ⟨member, isInner⟩ := List.mem_filter.1 among
    refine ⟨⟨c.state, θ'.stack⟩, ⟨c, Array.mem_toList_iff.1 member, alt, rfl, context⟩, ?_⟩
    obtain ⟨n, stack⟩ := θ'
    obtain rfl : t.target = n := state
    have notStop : (env.net.state c.state).kind.isRuleStop = false := by simpa using isInner
    exact mem_consumeNext.2 ⟨notStop, t, edge, accepts, rfl⟩

/-! ## One token -/

/-- Every member of a list of one has its alternative, and no configuration has none. -/
theorem sharedAlt_of_size (plain : s.Plain full) (one : s.size = 1) : s.sharedAlt ≠ invalidAlt := by
  obtain ⟨c, single⟩ : ∃ c, s.configs.toList = [c] := by
    rw [ConfigSet.size, ← Array.length_toList] at one
    exact List.length_eq_one_iff.1 one
  have member : c ∈ s.configs := Array.mem_toList_iff.1 (by simp [single])
  rw [ConfigSet.sharedAlt, single]
  simpa [ConfigSet.sharedAltFrom] using (plain.configs c member).valid

/-- Of what was reached, some configurations at the ends of rules may come from the set before. -/
structure Retains (net : Network) (full : Bool) (s s' : ConfigSet) (w' : Scratch η) : Prop where
  plain : s'.Plain full
  faithful : w'.merges.Faithful (!full)
  kept : ∀ a θ, s.Has full a θ → s'.Has full a θ
  only : full = true → ∀ a θ, s'.Has full a θ → s.Has full a θ ∨ net.isStop θ.state = true

/-- Behind a token other than the end of the input is what was moved, if one alternative is left, and
otherwise its closure. -/
inductive Behind (env : Env η) (full : Bool) (Q : Nat → Thread → Prop) (s : ConfigSet) (x : Int)
    (result : Option ConfigSet) (w' : Scratch η) : Prop
  | decided {moved : ConfigSet} (moves : Moved full (Consumed env full s x) moved w')
      (unique : moved.sharedAlt ≠ invalidAlt) (same : result = if moved.isEmpty then none else some moved)
  | closed {moved reach last : ConfigSet} {w₁ w₂ : Scratch η} (moves : Moved full (Consumed env full s x) moved w₁)
      (closes : Closes env.net full Q (.ofParser full) moved.configs.toList reach w₂)
      (retains : Retains env.net full reach last w') (same : result = if last.isEmpty then none else some last)

theorem reachSet_behind (unguarded : env.net.Unguarded) (closed : Closed env.net Q) (plain : s.Plain full)
    (faithful : w.merges.Faithful (!full)) (noEof : x ≠ endOfInput)
    (sound : full = true → ∀ a θ, Consumed env full s x a θ → Q a θ) :
    Leaves (reachSet env s x full) w (Behind env full Q s x) := by
  have atEof : (x == endOfInput) = false := beq_false_of_ne noEof
  unfold reachSet
  rw [atEof]
  refine (move_spec plain faithful).bind fun moved w₁ moves => ?_
  generalize eqStopped : (if (full || false) = true then
    s.configs.toList.filter fun c => (env.net.state c.state).kind.isRuleStop else []) = stopped
  have atStop (c : Config) (member : c ∈ stopped) :
      c.Plain ∧ env.net.isStop c.state = true ∧ full = true := by
    subst eqStopped
    split at member
    · rename_i isFull
      obtain ⟨among, isStop⟩ := List.mem_filter.1 member
      exact ⟨plain.configs c (Array.mem_toList_iff.1 among), isStop, by simpa using isFull⟩
    · cases member
  dsimp only
  cases isDecided : stopped.isEmpty && !false && (moved.size == 1 || moved.sharedAlt != invalidAlt) with
  | true =>
    simp only [Bool.and_eq_true, List.isEmpty_iff, Bool.or_eq_true, bne_iff_ne, beq_iff_eq] at isDecided
    obtain ⟨⟨rfl, -⟩, unique⟩ := isDecided
    have unique : moved.sharedAlt ≠ invalidAlt := unique.elim (sharedAlt_of_size moves.plain) id
    rw [if_pos rfl, pure_bind, if_neg Bool.false_ne_true, pure_bind, List.foldlM_nil, ite_self, pure_bind]
    exact .pure (.decided moves unique rfl)
  | false =>
    rw [if_neg Bool.false_ne_true]
    refine (closureOf_closes unguarded closed (ConfigSet.plain_ofParser full) moves.faithful
      (fun c member => moves.plain.configs c (Array.mem_toList_iff.1 member))
      (fun isFull c member a θ stands => sound isFull a θ (moves.only isFull a θ
        ⟨c, Array.mem_toList_iff.1 member, by rwa [isFull]⟩)) false).bind fun reach w₂ closes => ?_
    rw [if_neg Bool.false_ne_true, pure_bind]
    split
    · refine (foldlM_inserts (U := fun c => c.Stands (!full)) closes.plain closes.faithful
        fun c member s w plain faithful => insert_inserts plain faithful (atStop c member).1).bind
          fun last w' inserts => .pure (.closed moves closes ?_ rfl)
      refine ⟨inserts.plain, inserts.faithful, fun a θ known => inserts.has a θ (.inl known), ?_⟩
      intro isFull a θ known
      rcases inserts.only isFull a θ known with old | ⟨c, member, stands⟩
      · exact .inl old
      · exact .inr (stands.2.1 ▸ (atStop c member).2.1)
    · rw [pure_bind]
      refine .pure (.closed moves closes ?_ rfl)
      exact ⟨closes.plain, closes.faithful, fun _ _ => id, fun _ _ _ => .inl⟩

/-! ## The end of the input -/

/-- What is inserted gives a set no states but its own. -/
theorem state_of_mem_insertMemo {s : ConfigSet} {c d : Config} {memo : Context.Memo}
    (member : d ∈ (s.insertMemo c memo).1.configs) : d.state = c.state ∨ ∃ b ∈ s.configs, d.state = b.state := by
  unfold ConfigSet.insertMemo at member
  dsimp only at member
  split at member
  · unfold ConfigSet.insertOrdered at member
    split at member
    · exact .inr ⟨d, member, rfl⟩
    · rcases Array.mem_push.1 member with old | rfl
      · exact .inr ⟨d, old, rfl⟩
      · exact .inl rfl
  · split at member
    · rename_i i found
      obtain ⟨inside, -⟩ := Array.findIdx?_eq_some_iff_getElem.1 found
      rcases (ConfigSet.mem_absorbAt inside).1 member with rfl | ⟨j, bound, -, rfl⟩
      · exact .inr ⟨_, Array.getElem_mem inside, rfl⟩
      · exact .inr ⟨_, Array.getElem_mem bound, rfl⟩
    · rcases Array.mem_push.1 member with old | rfl
      · exact .inr ⟨d, old, rfl⟩
      · exact .inl rfl

theorem allAtStop_iff : allAtStop net s = true ↔ ∀ c ∈ s.configs, net.isStop c.state = true := by
  rw [allAtStop, Array.all_eq_true_iff_forall_mem]
  rfl

/-- Configurations at the ends of rules keep a set at the ends of rules. -/
theorem foldlM_atStop {cs : List Config} (before : allAtStop net s = true)
    (atStop : ∀ c ∈ cs, net.isStop c.state = true) :
    Leaves (cs.foldlM insert s : ScratchM η ConfigSet) w fun s' _ => allAtStop net s' = true := by
  refine Leaves.foldlM (P := fun _ s' _ => allAtStop net s' = true) before fun _ c s' w' member earlier => ?_
  intro s'' w'' ran
  cases ran
  rw [allAtStop_iff] at earlier ⊢
  intro d among
  rcases state_of_mem_insertMemo among with same | ⟨b, old, same⟩
  · rw [same]
    exact atStop c member
  · rw [same]
    exact earlier b old

theorem keepStopped_atStop :
    Leaves (keepStopped env s) w fun s' _ => allAtStop env.net s' = true := by
  unfold keepStopped
  split
  · rename_i already
    exact .pure already
  · exact foldlM_atStop (by simp [allAtStop, ConfigSet.ofParser]) fun c member => (List.mem_filter.1 member).2

/-- Behind the end of the input, and behind configurations that are all at the ends of rules, is nothing
else. -/
theorem reachSet_atStop (finished : x = endOfInput ∨ allAtStop env.net s = true) :
    Leaves (reachSet env s x full) w fun result _ => ∀ s', result = some s' → allAtStop env.net s' = true := by
  unfold reachSet
  refine Leaves.bind (P := fun moved _ => allAtStop env.net s = true → moved = .ofParser full) ?_
    fun moved w₁ still => ?_
  · intro moved w₁ ran atStop
    rw [allAtStop_iff] at atStop
    have none' : (s.configs.toList.filter fun c => !(env.net.state c.state).kind.isRuleStop) = [] := by
      refine List.filter_eq_nil_iff.2 fun c member => ?_
      have isStop := atStop c (Array.mem_toList_iff.1 member)
      rw [Network.isStop] at isStop
      simp [isStop]
    rw [move, none'] at ran
    cases ran
    rfl
  generalize eqStopped : (if (full || x == endOfInput) = true then
    s.configs.toList.filter fun c => (env.net.state c.state).kind.isRuleStop else []) = stopped
  have atStop (c : Config) (member : c ∈ stopped) : env.net.isStop c.state = true := by
    subst eqStopped
    split at member
    · exact (List.mem_filter.1 member).2
    · cases member
  have lasts (reach : ConfigSet) (w₂ : Scratch η) (before : allAtStop env.net reach = true) :
      Leaves (if (!full || !someAtStop env.net reach) = true then do
          let reach ← stopped.foldlM insert reach
          pure (if reach.isEmpty then none else some reach)
        else do
          let reach ← pure reach
          pure (if reach.isEmpty then none else some reach)) w₂
        fun result _ => ∀ s', result = some s' → allAtStop env.net s' = true := by
    have conclude (reach : ConfigSet) (w₃ : Scratch η) (known : allAtStop env.net reach = true) :
        Leaves (pure (if reach.isEmpty then none else some reach)) w₃
          fun result _ => ∀ s', result = some s' → allAtStop env.net s' = true := by
      refine .pure fun s' same => ?_
      split at same
      · cases same
      · cases same
        exact known
    split
    · exact (foldlM_atStop before atStop).bind conclude
    · exact conclude reach w₂ before
  have ends (reach : ConfigSet) (w₂ : Scratch η) (known : x = endOfInput ∨ allAtStop env.net reach = true) :
      Leaves (if (x == endOfInput) = true then do
          let reach ← keepStopped env reach
          if (!full || !someAtStop env.net reach) = true then do
            let reach ← stopped.foldlM insert reach
            pure (if reach.isEmpty then none else some reach)
          else do
            let reach ← pure reach
            pure (if reach.isEmpty then none else some reach)
        else do
          let reach ← pure reach
          if (!full || !someAtStop env.net reach) = true then do
            let reach ← stopped.foldlM insert reach
            pure (if reach.isEmpty then none else some reach)
          else do
            let reach ← pure reach
            pure (if reach.isEmpty then none else some reach)) w₂
        fun result _ => ∀ s', result = some s' → allAtStop env.net s' = true := by
    split
    · exact keepStopped_atStop.bind lasts
    · rename_i notEof
      exact lasts reach w₂ (known.resolve_left fun isEof => notEof (beq_iff_eq.2 isEof))
  have empty : allAtStop env.net (.ofParser full) = true := by simp [allAtStop, ConfigSet.ofParser]
  have ofMoved : x = endOfInput ∨ moved = .ofParser full := finished.imp_right still
  dsimp only
  split
  · refine ends moved w₁ (ofMoved.imp_right fun same => ?_)
    rw [same]
    exact empty
  · refine Leaves.bind (P := fun reach _ => x = endOfInput ∨ allAtStop env.net reach = true) ?_ ends
    intro reach w₂ ran
    refine ofMoved.imp_right fun same => ?_
    rw [same] at ran
    cases ran
    exact empty

end Prediction

end AdaptiveLL
