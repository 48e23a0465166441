import AdaptiveLL.Proofs.Grammar.Loading
import AdaptiveLL.Proofs.Prediction.Rerunning
import AdaptiveLL.Proofs.Prediction.Settling
import AdaptiveLL.Proofs.Prediction.Steps

/-!
# Closures in which no call is pending

With local context and no call pending, a closure only passes along transitions: it adds a configuration
where symbols are consumed (`closure_rest`), and elsewhere it goes on at the targets (`closure_forM`,
`closure_one`). What it adds is said by its places (`Gains`).
-/

set_option autoImplicit false

namespace AdaptiveLL.Prediction

variable {η : Type} {env : Env η} {p : Purpose} {X : Nat → Prop} {fuel : Nat} {s : ConfigSet}
  {w w' w'' : Work η}
  {U V : Place → Prop} {c : Config} {collect : Bool} {depth : Int}

/-- No call is pending, and only configurations in these states are exempt from the filter on precedences. -/
structure Exempting (X : Nat → Prop) (s : ConfigSet) : Prop extends s.Rooted where
  exempt : ∀ c ∈ s.configs, c.filterSuppressed = true → X c.state

theorem exempting_ofParser (X : Nat → Prop) : Exempting X (.ofParser false) :=
  ⟨ConfigSet.rooted_ofParser, fun c member => by simp [ConfigSet.ofParser] at member⟩

theorem Exempting.insertMemo {memo : Context.Memo} (exempting : Exempting X s) (bottom : c.context = .empty)
    (exempt : c.filterSuppressed = true → X c.state) : Exempting X (s.insertMemo c memo).1 := by
  refine ⟨exempting.toRooted.insertMemo bottom, ?_⟩
  simp only [ConfigSet.insertMemo]
  rw [show (s.note c).ordered = s.ordered from rfl, exempting.unordered, if_neg Bool.false_ne_true]
  cases found : (s.note c).place? c with
  | none =>
    intro d member
    rcases Array.mem_push.1 member with old | rfl
    · exact exempting.exempt d old
    · exact exempt
  | some i =>
    obtain ⟨inside, agrees, -⟩ := Array.findIdx?_eq_some_iff_getElem.1 found
    have inside : i < s.configs.size := inside
    have sameState : s.configs[i].state = c.state := (Config.agrees_iff.1 agrees).1
    intro d member suppressed
    simp only [ConfigSet.absorbAt, Array.mem_iff_getElem, Array.size_modify, Array.getElem_modify] at member
    obtain ⟨j, below, rfl⟩ := member
    split at suppressed
    · rename_i here
      subst here
      simp only [Config.absorb, Bool.or_eq_true] at suppressed
      rw [if_pos rfl]
      rcases suppressed with before | now
      · exact exempting.exempt s.configs[i] (Array.getElem_mem inside) before
      · exact sameState ▸ exempt now
    · rename_i other
      rw [if_neg other]
      exact exempting.exempt _ (Array.getElem_mem below) suppressed

theorem exempting_of_rooted (rooted : s.Rooted) : Exempting (fun _ => True) s :=
  ⟨rooted, fun _ _ _ => trivial⟩

/-- The closure has added these places. -/
structure Gains (X : Nat → Prop) (w : Work η) (U : Place → Prop) (w' : Work η) : Prop where
  exempting : Exempting X w'.configs
  hooks : w'.scratch.hooks = w.scratch.hooks
  busy : w'.busy = w.busy
  at_iff : ∀ q, w'.configs.At q ↔ w.configs.At q ∨ U q

theorem Gains.refl (exempting : Exempting X w.configs) : Gains X w (fun _ => False) w :=
  ⟨exempting, rfl, rfl, fun _ => (or_false _).symm.to_iff⟩

theorem Gains.trans (first : Gains X w U w') (second : Gains X w' V w'') : Gains X w (fun q => U q ∨ V q) w'' :=
  ⟨second.exempting, second.hooks.trans first.hooks, second.busy.trans first.busy, fun q => by
    rw [second.at_iff, first.at_iff, or_assoc]⟩

theorem Gains.congr (gains : Gains X w U w') (same : ∀ q, U q ↔ V q) : Gains X w V w' :=
  ⟨gains.exempting, gains.hooks, gains.busy, fun q => by rw [gains.at_iff, same]⟩

theorem addConfig_gains (exempting : Exempting X w.configs) (bottom : c.context = .empty)
    (exempt : c.filterSuppressed = true → X c.state) :
    Yields (addConfig c) w fun _ w' => Gains X w (· = c.place) w' :=
  ⟨(), _, rfl, exempting.insertMemo bottom exempt, rfl, rfl, fun _ => ConfigSet.at_insertMemo exempting.unordered⟩

/-- What each of several steps adds is added by all of them. -/
theorem forM_gains {ι : Type} {l : List ι} {f : ι → WorkM η Unit} {U : ι → Place → Prop}
    (each : ∀ i ∈ l, ∀ w : Work η, Exempting X w.configs → Yields (f i) w fun _ w' => Gains X w (U i) w')
    (exempting : Exempting X w.configs) :
    Yields (l.forM f) w fun _ w' => Gains X w (fun q => ∃ i ∈ l, U i q) w' := by
  induction l generalizing w with
  | nil => exact .pure ((Gains.refl exempting).congr fun q => by simp)
  | cons i rest ih =>
    change Yields (f i >>= fun _ => rest.forM f) w _
    refine (each i List.mem_cons_self w exempting).bind fun _ w₁ gains => ?_
    refine (ih (fun j member => each j (List.mem_cons_of_mem _ member)) gains.exempting).imp fun _ w₂ gains' => ?_
    exact (gains.trans gains').congr fun q => by simp

/-! ## Transitions -/

/-- Where no call is pending, the end of a rule is passed like any other state. -/
theorem closure_bottom (bottom : c.context = .empty) (local' : p.fullContext = false) :
    closure env p (fuel + 1) c collect depth = closureStep env p fuel c collect depth := by
  have isEmpty : c.context.isEmpty = true := by rw [bottom]; rfl
  rw [closure, isEmpty, local']
  simp

/-- Where symbols are consumed, or nothing is, the configuration is added. -/
theorem closure_rest (refreshed : env.net.Refreshed) (bottom : c.context = .empty) (local' : p.fullContext = false)
    (rests : ∀ t ∈ env.net.out c.state, t.label.isEpsilon = false) (open' : p.atEof = false ∨ env.net.out c.state = [])
    (exempt : c.filterSuppressed = true → X c.state) (exempting : Exempting X w.configs) :
    Yields (closure env p (fuel + 2) c collect depth) w fun _ w' => Gains X w (· = c.place) w' := by
  have consumes : (env.net.state c.state).epsilonOnly = false := by
    rw [refreshed]
    cases out : env.net.out c.state with
    | nil => rfl
    | cons t rest => simp [rests t (out ▸ List.mem_cons_self)]
  rw [closure_bottom bottom local', closureStep_succ, consumes]
  refine (addConfig_gains exempting bottom exempt).bind fun _ w₁ gains => ?_
  have nothing : ∀ t ∈ env.net.out c.state, ∀ w : Work η, Exempting X w.configs →
      Yields (passEdge env p fuel c collect depth t) w fun _ w' => Gains X w (fun _ => False) w' := by
    intro t member w exempting
    rcases open' with noEof | none'
    · have refused (collect inRule : Bool) : epsilonTarget env p c t collect inRule = pure none := by
        have label := rests t member
        unfold epsilonTarget
        cases kind : t.label <;> simp_all [Label.isEpsilon]
      rw [passEdge, refused]
      exact .pure (.refl exempting)
    · rw [none'] at member
      cases member
  refine (forM_gains nothing gains.exempting).imp fun _ w₂ none' => (gains.trans none').congr fun q => ?_
  simp

/-- Where nothing is consumed, the closure goes on along the transitions. -/
theorem closure_forM (refreshed : env.net.Refreshed) (bottom : c.context = .empty) (local' : p.fullContext = false)
    (some' : env.net.out c.state ≠ []) (free : ∀ t ∈ env.net.out c.state, t.label.isEpsilon = true) :
    closure env p (fuel + 2) c collect depth = (env.net.out c.state).forM (passEdge env p fuel c collect depth) := by
  have epsilonOnly : (env.net.state c.state).epsilonOnly = true := by
    rw [refreshed, Bool.and_eq_true, Bool.not_eq_true', List.isEmpty_eq_false_iff]
    exact ⟨some', List.all_eq_true.2 free⟩
  rw [closure_bottom bottom local', closureStep_succ, epsilonOnly]
  simp

theorem passEdge_epsilon {t : Transition} {o : Option Nat} (inner : env.net.isStop c.state = false)
    (label : t.label = .epsilon o) :
    passEdge env p fuel c collect depth t = closure env p fuel (c.withState t.target) collect depth := by
  have notStop : (env.net.state c.state).kind.isRuleStop = false := inner
  simp [passEdge, epsilonTarget, label, isAction, isCall, notStop, Label.isEpsilon]

theorem passEdge_precedence {t : Transition} {q : Int} (inner : env.net.isStop c.state = false)
    (label : t.label = .precedence q) (local' : p.fullContext = false) :
    passEdge env p fuel c collect depth t = closure env p fuel
      (if collect && depth == 0 then c.withGuard t.target (c.guard.and (.precedence q)) else c.withState t.target)
      collect depth := by
  have notStop : (env.net.state c.state).kind.isRuleStop = false := inner
  simp only [passEdge, epsilonTarget, label, isAction, isCall, notStop, Label.isEpsilon, passPredicate, local',
    Bool.not_false, Bool.true_and]
  cases collect && depth == 0 <;> simp

/-- A single transition that asks for nothing is followed. -/
theorem closure_one (refreshed : env.net.Refreshed) (bottom : c.context = .empty) (local' : p.fullContext = false)
    {n : Nat} (inner : env.net.isStop c.state = false) (out : env.net.out c.state = [.epsilon n]) :
    closure env p (fuel + 2) c collect depth = closure env p fuel (c.withState n) collect depth := by
  have free : ∀ t ∈ env.net.out c.state, t.label.isEpsilon = true := by
    rw [out]
    intro t member
    rw [List.mem_singleton.1 member]
    rfl
  rw [closure_forM refreshed bottom local' (by rw [out]; simp) free, out]
  change (passEdge env p fuel c collect depth (.epsilon n) >>= fun _ => pure ()) = _
  rw [passEdge_epsilon inner (o := none) rfl]
  exact bind_pure _

/-! ## Adding to sets -/

variable {s' : ConfigSet} {r : Scratch η} {x : Int} {q : Place}

/-- A set with these places more, the state of the user code being as it was. -/
structure Extends (s : ConfigSet) (r : Scratch η) (U : Place → Prop) (s' : ConfigSet) (r' : Scratch η) : Prop where
  rooted : s'.Rooted
  hooks : r'.hooks = r.hooks
  at_iff : ∀ q, s'.At q ↔ s.At q ∨ U q

theorem Extends.refl (rooted : s.Rooted) : Extends s r (fun _ => False) s r :=
  ⟨rooted, rfl, fun _ => (or_false _).symm.to_iff⟩

theorem Extends.trans {s₁ s₂ : ConfigSet} {r₁ r₂ : Scratch η} (first : Extends s r U s₁ r₁)
    (second : Extends s₁ r₁ V s₂ r₂) : Extends s r (fun q => U q ∨ V q) s₂ r₂ :=
  ⟨second.rooted, second.hooks.trans first.hooks, fun q => by rw [second.at_iff, first.at_iff, or_assoc]⟩

theorem Extends.congr {r' : Scratch η} (extends' : Extends s r U s' r') (same : ∀ q, U q ↔ V q) :
    Extends s r V s' r' :=
  ⟨extends'.rooted, extends'.hooks, fun q => by rw [extends'.at_iff, same]⟩

theorem insert_extends (rooted : s.Rooted) (bottom : c.context = .empty) :
    Yields (insert s c) r fun s' r' => Extends s r (· = c.place) s' r' :=
  ⟨_, _, rfl, rooted.insertMemo bottom, rfl, fun _ => ConfigSet.at_insertMemo rooted.unordered⟩

/-- What each of several steps adds is added by all of them. -/
theorem foldlM_extends {ι : Type} {l : List ι} {f : ConfigSet → ι → ScratchM η ConfigSet} {U : ι → Place → Prop}
    (each : ∀ i ∈ l, ∀ (s : ConfigSet) (r : Scratch η), s.Rooted →
      Yields (f s i) r fun s' r' => Extends s r (U i) s' r')
    (rooted : s.Rooted) :
    Yields (l.foldlM f s) r fun s' r' => Extends s r (fun q => ∃ i ∈ l, U i q) s' r' := by
  induction l generalizing s r with
  | nil => exact .pure ((Extends.refl rooted).congr fun q => by simp)
  | cons i rest ih =>
    rw [List.foldlM_cons]
    refine (each i List.mem_cons_self s r rooted).bind fun s₁ r₁ first => ?_
    refine (ih (fun j member => each j (List.mem_cons_of_mem _ member)) first.rooted).imp fun s₂ r₂ second => ?_
    exact (first.trans second).congr fun q => by simp

theorem closureOf_yields {cs : List Config} {Q : ConfigSet → Scratch η → Prop}
    (yields : Yields (cs.forM fun c => closure env p env.fuel c collect 0) { configs := s, scratch := r }
      fun _ w => Q w.configs w.scratch) :
    Yields (closureOf env p collect s cs) r Q := by
  obtain ⟨⟨⟩, w, ran, holds⟩ := yields
  refine ⟨w.configs, w.scratch, ?_, holds⟩
  rw [closureOf_run, ran]
  rfl

/-! ## One token -/

/-- A token moves the threads of the set to this place. -/
def Moves (env : Env η) (s : ConfigSet) (x : Int) (q : Place) : Prop :=
  ∃ c ∈ s.configs, env.net.isStop c.state = false ∧
    ∃ t ∈ env.net.out c.state, t.label.accepts x 0 env.net.maxTokenType = true ∧ q = ⟨t.target, c.alt, c.guard⟩

theorem moves_iff : Moves env s x q ↔ ∃ q₀, s.At q₀ ∧ env.net.isStop q₀.state = false ∧
    ∃ t, (t ∈ env.net.out q₀.state ∧ t.label.accepts x 0 env.net.maxTokenType = true) ∧
      q = ⟨t.target, q₀.alt, q₀.guard⟩ := by
  constructor
  · rintro ⟨c, member, running, t, edge, accepts, same⟩
    exact ⟨c.place, ⟨c, member, rfl⟩, running, t, ⟨edge, accepts⟩, same⟩
  · rintro ⟨_, ⟨c, member, rfl⟩, running, t, ⟨edge, accepts⟩, same⟩
    exact ⟨c, member, running, t, edge, accepts, same⟩

theorem move_extends (rooted : s.Rooted) :
    Yields (move env s x false) r fun m r' => Extends (.ofParser false) r (Moves env s x) m r' := by
  refine (foldlM_extends (U := fun c q => ∃ t ∈ env.net.out c.state,
    t.label.accepts x 0 env.net.maxTokenType = true ∧ q = ⟨t.target, c.alt, c.guard⟩) ?_ ConfigSet.rooted_ofParser).imp
    fun m r' extends' => extends'.congr fun q => ?_
  · intro c member m r' rooted'
    have bottom := rooted.contexts c (Array.mem_toList_iff.1 (List.mem_filter.1 member).1)
    refine (foldlM_extends (U := fun t q => t.label.accepts x 0 env.net.maxTokenType = true ∧
      q = ⟨t.target, c.alt, c.guard⟩) ?_ rooted').imp fun m' r'' extends' => extends'.congr fun q => Iff.rfl
    intro t _ m r' rooted'
    split
    · rename_i accepts
      refine (insert_extends (c := c.withState t.target) rooted' bottom).imp
        fun _ _ extends' => extends'.congr fun q => ?_
      rw [and_iff_right accepts]
      rfl
    · rename_i refuses
      exact .pure ((Extends.refl rooted').congr fun q => by simp [refuses])
  · simp only [List.mem_filter, Array.mem_toList_iff, Bool.not_eq_true', Moves, and_assoc]
    rfl

theorem not_at_ofParser {full : Bool} : ¬ (ConfigSet.ofParser full).At q := by
  rintro ⟨c, member, -⟩
  simp [ConfigSet.ofParser] at member

theorem isEmpty_of_at (here : s.At q) : s.isEmpty = false := by
  obtain ⟨c, member, -⟩ := here
  rw [ConfigSet.isEmpty, Array.isEmpty_eq_false_iff]
  rintro none'
  rw [none'] at member
  simp at member

/-- A token that leads to one place settles the decision. -/
theorem reachSet_only (rooted : s.Rooted) (noEof : x ≠ endOfInput) (only : ∀ q', Moves env s x q' ↔ q' = q)
    (valid : 1 ≤ q.alt) : Yields (reachSet env s x false) r fun result r' => r'.hooks = r.hooks ∧
      ∃ s', result = some s' ∧ s'.Rooted ∧ s'.Only q := by
  refine (move_extends rooted).bind fun m r' extends' => ?_
  have isOnly : m.Only q := fun q' => by
    rw [extends'.at_iff, only, or_iff_right not_at_ofParser]
  have unique : m.sharedAlt ≠ invalidAlt := by
    rw [sharedAlt_of_only isOnly valid]
    exact Nat.ne_of_gt valid
  have notEof : (x == endOfInput) = false := beq_eq_false_iff_ne.2 noEof
  have decided : (m.size == 1 || m.sharedAlt != invalidAlt) = true := by
    rw [bne_iff_ne.2 unique, Bool.or_true]
  simp only [notEof, Bool.or_self, Bool.false_eq_true, if_false, List.isEmpty_nil, Bool.not_false,
    Bool.and_self, decided, if_true, Bool.true_or, List.foldlM_nil, pure_bind,
    isEmpty_of_at ((isOnly q).2 rfl)]
  exact .pure ⟨extends'.hooks, m, rfl, extends'.rooted, isOnly⟩

/-- At the end of the input the decision goes on to the end of the rule. -/
theorem reachSet_end (rooted : s.Rooted) (running : ∀ c ∈ s.configs, env.net.isStop c.state = false)
    (only : ∀ q', Moves env s endOfInput q' ↔ q' = q) {last : Place} (stops : env.net.isStop last.state = true)
    (closes : ∀ c : Config, c.place = q → c.context = .empty → ∀ w : Work η, Exempting (fun _ => True) w.configs →
      Yields (closure env ⟨false, true⟩ env.fuel c false 0) w fun _ w' => Gains (fun _ => True) w (· = last) w') :
    Yields (reachSet env s endOfInput false) r fun result r' => r'.hooks = r.hooks ∧
      ∃ s', result = some s' ∧ s'.Rooted ∧ s'.Only last := by
  have none' : (s.configs.toList.filter fun c => (env.net.state c.state).kind.isRuleStop) = [] :=
    List.filter_eq_nil_iff.2 fun c member => by
      rw [show (env.net.state c.state).kind.isRuleStop = false from running c (Array.mem_toList_iff.1 member)]
      exact Bool.false_ne_true
  refine (move_extends rooted).bind fun m r₁ moved => ?_
  have isOnly : m.Only q := fun q' => by
    rw [moved.at_iff, only, or_iff_right not_at_ofParser]
  simp only [beq_self_eq_true, Bool.or_true, if_true, none', Bool.not_true, Bool.and_false, Bool.false_and,
    Bool.false_eq_true, if_false]
  have places {c : Config} (member : c ∈ m.configs) : c.place = q := (isOnly c.place).1 ⟨c, member, rfl⟩
  refine Yields.bind (P := fun s₂ r₂ => r₂.hooks = r₁.hooks ∧ s₂.Rooted ∧ s₂.Only last) (closureOf_yields ?_)
    fun s₂ r₂ ⟨hooks, rooted₂, only₂⟩ => ?_
  · refine (forM_gains (X := fun _ => True) (U := fun _ => (· = last)) (fun c member w exempting => ?_)
      (exempting_ofParser _)).imp fun _ w gains => ⟨gains.hooks, gains.exempting.toRooted, fun q' => ?_⟩
    · have among := Array.mem_toList_iff.1 member
      exact closes c (places among) (moved.rooted.contexts c among) w exempting
    · rw [gains.at_iff]
      obtain ⟨c, member, -⟩ := (isOnly q).2 rfl
      exact ⟨fun here => here.elim (fun here => absurd here not_at_ofParser) fun ⟨_, _, same⟩ => same,
        fun same => .inr ⟨c, Array.mem_toList_iff.2 member, same⟩⟩
  · have atStop : allAtStop env.net s₂ = true := allAtStop_iff.2 fun c member => by
      rw [show c.state = last.state from congrArg Place.state ((only₂ c.place).1 ⟨c, member, rfl⟩)]
      exact stops
    rw [keepStopped, if_pos atStop, pure_bind]
    simp only [Bool.not_false, Bool.true_or, if_true, List.foldlM_nil, pure_bind,
      isEmpty_of_at ((only₂ last).2 rfl), Bool.false_eq_true, if_false]
    exact .pure ⟨hooks.trans moved.hooks, s₂, rfl, rooted₂, only₂⟩

/-! ## The filter on precedences -/

variable {R : Guard → Option Guard} {seen : List (Nat × Context)}

/-- The states in which the first alternative was seen, with no call pending. -/
structure Seen (R : Guard → Option Guard) (seen : List (Nat × Context)) (cs : List Config)
    (seen' : List (Nat × Context)) : Prop where
  bottom : ∀ entry ∈ seen', entry.2 = .empty
  states : ∀ n, (∃ entry ∈ seen', entry.1 = n) ↔
    (∃ entry ∈ seen, entry.1 = n) ∨ ∃ c ∈ cs, c.state = n ∧ (R c.guard).isSome = true

/-- The guards that do not fail are answered. -/
theorem filterFirst_yields {cs : List Config} (rooted : s.Rooted) (bottoms : ∀ c ∈ cs, c.context = .empty)
    (resolves : ∀ c ∈ cs, ∀ h, (c.guard.resolve env.evaluator).run h = (R c.guard, h))
    (seenBottom : ∀ entry ∈ seen, entry.2 = .empty) :
    Yields (filterFirst env s seen cs) r fun result r' =>
      Extends s r (fun q => ∃ c ∈ cs, ∃ g, R c.guard = some g ∧ q = ⟨c.state, c.alt, g⟩) result.1 r' ∧
        Seen R seen cs result.2 := by
  induction cs generalizing s r seen with
  | nil => exact .pure ⟨(Extends.refl rooted).congr fun q => by simp, seenBottom, fun n => by simp⟩
  | cons c cs ih =>
    have bottoms' : ∀ d ∈ cs, d.context = .empty := fun d member => bottoms d (List.mem_cons_of_mem _ member)
    have resolves' : ∀ d ∈ cs, ∀ h, (d.guard.resolve env.evaluator).run h = (R d.guard, h) := fun d member =>
      resolves d (List.mem_cons_of_mem _ member)
    unfold filterFirst
    refine .get_bind ?_
    rw [resolves c List.mem_cons_self]
    cases answer : R c.guard with
    | none =>
      change Yields (filterFirst env s seen cs) r _
      refine (ih rooted bottoms' resolves' seenBottom).imp fun result r' ⟨extends', seen'⟩ =>
        ⟨extends'.congr fun q => by simp [answer], seen'.bottom, fun n => ?_⟩
      rw [seen'.states]
      simp [answer]
    | some g =>
      change Yields (insert s (c.withGuard c.state g) >>= fun result =>
        filterFirst env result ((c.state, c.context) :: seen) cs) r _
      refine (insert_extends (c := c.withGuard c.state g) rooted (bottoms c List.mem_cons_self)).bind
        fun s₁ r₁ first => ?_
      refine (ih first.rooted bottoms' resolves' ?_).imp fun result r' ⟨extends', seen'⟩ =>
        ⟨(first.trans extends').congr fun q => ?_, seen'.bottom, fun n => ?_⟩
      · rintro entry (_ | ⟨_, member⟩)
        · exact bottoms c List.mem_cons_self
        · exact seenBottom entry member
      · simp [answer, Config.place, Config.withGuard]
      · rw [seen'.states]
        simp [answer, or_assoc, or_left_comm]

/-- What the filter keeps of a set: the first alternative where its guards do not fail, and the others where it
was not kept in the same state. -/
def Sifted (R : Guard → Option Guard) (s : ConfigSet) (q : Place) : Prop :=
  (∃ q', s.At q' ∧ q'.alt = 1 ∧ ∃ g, R q'.guard = some g ∧ q = ⟨q'.state, 1, g⟩) ∨
    s.At q ∧ q.alt ≠ 1 ∧ ∀ q', s.At q' → q'.alt = 1 → q'.state = q.state → R q'.guard = none

theorem precedenceFilter_yields (exempting : Exempting X s) (apart : ∀ q, s.At q → q.alt = 1 → ¬ X q.state)
    (resolves : ∀ q, s.At q → q.alt = 1 → ∀ h, (q.guard.resolve env.evaluator).run h = (R q.guard, h)) :
    Yields (precedenceFilter env s) r fun s' r' => r'.hooks = r.hooks ∧ s'.Rooted ∧ ∀ q, s'.At q ↔ Sifted R s q := by
  have here {c : Config} (member : c ∈ s.configs) : s.At c.place := ⟨c, member, rfl⟩
  have firsts (c : Config) : c ∈ s.configs.toList.filter (·.alt == 1) ↔ c ∈ s.configs ∧ c.alt = 1 := by
    rw [List.mem_filter, Array.mem_toList_iff, beq_iff_eq]
  have others (c : Config) : c ∈ s.configs.toList.filter (·.alt != 1) ↔ c ∈ s.configs ∧ c.alt ≠ 1 := by
    rw [List.mem_filter, Array.mem_toList_iff, bne_iff_ne]
  unfold precedenceFilter
  dsimp only
  rw [exempting.local']
  refine (filterFirst_yields (R := R) ConfigSet.rooted_ofParser
    (fun c member => exempting.contexts c ((firsts c).1 member).1)
    (fun c member => resolves c.place (here ((firsts c).1 member).1) ((firsts c).1 member).2)
    (List.forall_mem_nil _)).bind fun result r₁ ⟨first, seen⟩ => ?_
  refine (foldlM_extends (U := fun c q => q = c.place ∧ ∀ q', s.At q' → q'.alt = 1 → q'.state = c.state →
    R q'.guard = none) (fun c member s₁ r₂ rooted => ?_) first.rooted).imp fun s' r' rest =>
      ⟨rest.hooks.trans first.hooks, rest.rooted, fun q => ?_⟩
  · obtain ⟨among, second⟩ := (others c).1 member
    have bottom := exempting.contexts c among
    -- The first alternative was kept in the state if one of its guards there did not fail.
    have found : (result.2.find? (·.1 == c.state)).any (·.2 == c.context) = true ↔
        ∃ q', s.At q' ∧ q'.alt = 1 ∧ q'.state = c.state ∧ (R q'.guard).isSome = true := by
      trans ∃ entry ∈ result.2, entry.1 = c.state
      · constructor
        · intro any
          cases find : result.2.find? (·.1 == c.state) with
          | none =>
            rw [find] at any
            cases any
          | some entry =>
            have same : (entry.1 == c.state) = true := by simpa using List.find?_some find
            exact ⟨entry, List.mem_of_find?_eq_some find, beq_iff_eq.1 same⟩
        · rintro ⟨entry, member, same⟩
          cases find : result.2.find? (·.1 == c.state) with
          | none => exact absurd (beq_iff_eq.2 same) (List.find?_eq_none.1 find entry member)
          | some entry' =>
            rw [Option.any_some, seen.bottom entry' (List.mem_of_find?_eq_some find), bottom]
            exact beq_self_eq_true _
      · rw [seen.states]
        constructor
        · rintro (⟨entry, member, -⟩ | ⟨d, member, same, answered⟩)
          · cases member
          · exact ⟨d.place, here ((firsts d).1 member).1, ((firsts d).1 member).2, same, answered⟩
        · rintro ⟨_, ⟨d, member, rfl⟩, alt, same, answered⟩
          exact .inr ⟨d, (firsts d).2 ⟨member, alt⟩, same, answered⟩
    split
    · rename_i repeats
      obtain ⟨q', at', alt, same, answered⟩ := found.1 (Bool.and_eq_true_iff.1 repeats).2
      refine .pure ((Extends.refl rooted).congr fun q => ⟨False.elim, fun ⟨_, none'⟩ => ?_⟩)
      rw [none' q' at' alt same] at answered
      cases answered
    · rename_i new
      refine (insert_extends rooted bottom).imp fun s₂ r₃ extends' => extends'.congr fun q =>
        (and_iff_left fun q' at' alt same => ?_).symm
      cases answer : R q'.guard with
      | none => rfl
      | some g =>
        refine absurd (Bool.and_eq_true_iff.2 ⟨?_, found.2 ⟨q', at', alt, same, by rw [answer]; rfl⟩⟩) new
        -- The exempt configurations are in a state that the first alternative does not come to.
        cases exempt : c.filterSuppressed with
        | false => rfl
        | true => exact absurd (same ▸ exempting.exempt c among exempt) (apart q' at' alt)
  · rw [rest.at_iff, first.at_iff, or_iff_right not_at_ofParser]
    refine or_congr ?_ ?_
    · constructor
      · rintro ⟨c, member, g, answer, rfl⟩
        obtain ⟨among, alt⟩ := (firsts c).1 member
        exact ⟨c.place, here among, alt, g, answer, by rw [alt]; rfl⟩
      · rintro ⟨_, ⟨c, among, rfl⟩, alt, g, answer, rfl⟩
        exact ⟨c, (firsts c).2 ⟨among, alt⟩, g, answer, by rw [show c.alt = 1 from alt]; rfl⟩
    · constructor
      · rintro ⟨c, member, rfl, none'⟩
        obtain ⟨among, second⟩ := (others c).1 member
        exact ⟨here among, second, none'⟩
      · rintro ⟨⟨c, among, rfl⟩, second, none'⟩
        exact ⟨c, (others c).2 ⟨among, second⟩, rfl, none'⟩

end AdaptiveLL.Prediction
