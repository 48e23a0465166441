import AdaptiveLL.Proofs.Guards.Evaluation
import AdaptiveLL.Proofs.Lookahead.Walks
import AdaptiveLL.Proofs.Prediction.Ending
import Mathlib.Data.Set.Finite.List
import Mathlib.Data.Finset.Dedup

/-!
# What a closure may note

Where no rule comes back to its start at the end of the input, the closure of a configuration can come to finitely
many others. Their contexts are piles of pending calls on what was there at the beginning or lies below it, and
there are no more pending calls than rules (`Atop`, `finite_atop`). Their guards are conjunctions of predicates of
the network, whose order and number do not matter (`finite_gathered`). So closures end, and with them the sets of
the start and those behind each token (`startSet_settles`, `reachSet_settles`).
-/

set_option autoImplicit false

namespace AdaptiveLL

open Network

/-! ## Contexts -/

namespace Context

variable {b c d k parent : Context} {ret : Option Nat}

/-- What a context may return to. -/
def under : Context → List Context
  | .nil => []
  | .cons _ parent rest => parent.ground :: (under parent ++ under rest)

theorem ground_mem_under (member : (ret, parent) ∈ c.entries) : parent.ground ∈ c.under := by
  induction c with
  | nil => cases member
  | cons ret' p rest _ ih =>
    rcases List.mem_cons.1 member with same | later
    · cases same
      exact List.mem_cons_self
    · exact List.mem_cons_of_mem _ (List.mem_append_right _ (ih later))

theorem under_trans (lower : b ∈ c.under) (lowest : d ∈ b.under) : d ∈ c.under := by
  induction c with
  | nil => cases lower
  | cons ret p rest ihParent ihRest =>
    rcases List.mem_cons.1 lower with rfl | lower
    · unfold ground at lowest
      split at lowest
      · rename_i bottom
        obtain rfl : d = .empty := by simpa [under, empty, ground] using lowest
        exact List.mem_cons.2 (.inl (by rw [ground, if_pos bottom]))
      · exact List.mem_cons_of_mem _ (List.mem_append_left _ lowest)
    · refine List.mem_cons_of_mem _ (List.mem_append.2 ?_)
      exact (List.mem_append.1 lower).imp ihParent ihRest

/-- The context, what it may return to, and the bottom of the stack. -/
def bases (k : Context) : List Context := k :: .empty :: k.under

theorem ground_mem_bases (base : b ∈ k.bases) (member : (ret, parent) ∈ b.entries) : parent.ground ∈ k.bases := by
  have lower := ground_mem_under member
  rcases List.mem_cons.1 base with rfl | base
  · exact List.mem_cons_of_mem _ (List.mem_cons_of_mem _ lower)
  · rcases List.mem_cons.1 base with rfl | base
    · obtain same : parent.ground = .empty := by simpa [under, empty, ground] using lower
      exact same ▸ List.mem_cons_of_mem _ List.mem_cons_self
    · exact List.mem_cons_of_mem _ (List.mem_cons_of_mem _ (under_trans base lower))

/-- Calls that are pending on top of a context, innermost first. -/
def pile (stack : List Nat) (b : Context) : Context := stack.foldr (fun ret c => c.push ret) b

end Context

namespace Network

variable {net : Network} {n m r start follow : Nat} {k k₀ parent : Context}

/-- The context is a pile of pending calls, as they may be pending at the end of the input, on the context of the
beginning or on one that this may return to. -/
def Atop (net : Network) (k₀ : Context) (n : Nat) (k : Context) : Prop :=
  ∃ stack called b, b ∈ k₀.bases ∧ k = Context.pile stack b ∧ net.atEnd.Frames 0 n stack called

namespace Atop

theorem begins (net : Network) (k₀ : Context) (n : Nat) : net.Atop k₀ n k₀ :=
  ⟨[], [], k₀, List.mem_cons_self, rfl, .ground (Nat.le_refl 0)⟩

theorem free (atop : net.Atop k₀ n k) (inner : net.isStop n = false) (move : .free m ∈ net.atEnd.moves n) :
    net.Atop k₀ m k := by
  obtain ⟨stack, called, b, base, same, frames⟩ := atop
  exact ⟨stack, called, b, base, same, frames.glide (.free ((isStop_atEnd _ _).trans inner) move)⟩

theorem call (atop : net.Atop k₀ n k) (inner : net.isStop n = false) (move : .call r start follow ∈ net.moves n) :
    net.Atop k₀ start (k.push follow) := by
  obtain ⟨stack, called, b, base, rfl, frames⟩ := atop
  exact ⟨follow :: stack, r :: called, b, base, rfl,
    .called frames ((isStop_atEnd _ _).trans inner) (mem_moves_atEnd_of_silent move nofun) .refl⟩

/-- A return goes on with what was below the call. -/
theorem back (atop : net.Atop k₀ n k) (stop : net.isStop n = true) (member : (some m, parent) ∈ k.entries) :
    net.Atop k₀ m parent.ground := by
  obtain ⟨stack, called, b, base, rfl, frames⟩ := atop
  cases frames with
  | ground short =>
    obtain rfl := List.eq_nil_of_length_eq_zero (Nat.le_zero.1 short)
    exact ⟨[], [], _, Context.ground_mem_bases base member, rfl, .ground (Nat.le_refl 0)⟩
  | @called _ m' r' start follow stack called outer inner call way =>
    obtain ⟨rfl, rfl⟩ : m = follow ∧ parent = Context.pile stack b := by
      simpa [Context.pile, Context.push, Context.entries] using member
    have further : net.atEnd.Frames 0 m stack called :=
      outer.glide (.skip inner call (passes_of_glides way (.stop ((isStop_atEnd _ _).trans stop))))
    unfold Context.ground
    split
    · exact ⟨[], [], .empty, List.mem_cons_of_mem _ List.mem_cons_self, rfl, .ground (Nat.le_refl 0)⟩
    · exact ⟨stack, called, b, base, rfl, further⟩

/-- Where the bottom of the stack shows no call is pending, so any state may follow. -/
theorem exit (atop : net.Atop k₀ n k) (member : (none, parent) ∈ k.entries) (m : Nat) : net.Atop k₀ m k := by
  obtain ⟨stack, called, b, base, rfl, frames⟩ := atop
  cases frames with
  | ground short =>
    obtain rfl := List.eq_nil_of_length_eq_zero (Nat.le_zero.1 short)
    exact ⟨[], [], b, base, rfl, .ground (Nat.le_refl 0)⟩
  | called => simp [Context.pile, Context.push, Context.entries] at member

end Atop

/-- The states behind the calls of a network. -/
def callFollows (net : Network) : Set Nat := {m | ∃ n r start, .call r start m ∈ net.moves n}

/-- The states to which the transitions of a network lead. -/
def targets (net : Network) : Set Nat := {m | ∃ n, ∃ t ∈ net.out n, t.target = m}

theorem finite_of_out {α : Type} (net : Network) (f : Transition → Option α) :
    {a | ∃ n, ∃ t ∈ net.out n, f t = some a}.Finite := by
  refine Set.Finite.subset ((Set.finite_lt_nat net.states.size).biUnion fun n _ =>
    ((net.out n).filterMap f).finite_toSet) ?_
  rintro a ⟨n, t, member, same⟩
  have inside : n < net.states.size := by
    by_contra outside
    rw [out_of_le (Nat.not_lt.1 outside)] at member
    cases member
  exact Set.mem_biUnion (show n ∈ {n | n < net.states.size} from inside) (List.mem_filterMap.2 ⟨t, member, same⟩)

theorem finite_targets (net : Network) : net.targets.Finite := by
  refine (finite_of_out net fun t => some t.target).subset ?_
  rintro m ⟨n, t, member, rfl⟩
  exact ⟨n, t, member, rfl⟩

theorem finite_callFollows (net : Network) : net.callFollows.Finite := by
  refine (finite_of_out net fun t => match t.move with | .call _ _ follow => some follow | _ => none).subset ?_
  rintro m ⟨n, r, start, call⟩
  obtain ⟨t, member, isCall⟩ := List.mem_map.1 call
  exact ⟨n, t, member, by simp [isCall]⟩

theorem Frames.follows {depth : Nat} {stack called : List Nat} (frames : net.atEnd.Frames depth n stack called)
    (shallow : depth = 0) : ∀ m ∈ stack, m ∈ net.callFollows := by
  induction frames with
  | ground short =>
    subst shallow
    rw [List.eq_nil_of_length_eq_zero (Nat.le_zero.1 short)]
    exact List.forall_mem_nil _
  | called outer inner call way ih => exact List.forall_mem_cons.2 ⟨⟨_, _, _, call_of_atEnd call⟩, ih⟩

/-- There are finitely many such contexts. -/
theorem finite_atop (calls : net.CallsStarts) (progressive : net.atEnd.Progressive) (k₀ : Context) :
    {k | ∃ n, net.Atop k₀ n k}.Finite := by
  have piles : {stack : List net.callFollows | stack.length ≤ net.numRules}.Finite := by
    have := (finite_callFollows net).to_subtype
    exact List.finite_length_le _ _
  refine ((piles.prod k₀.bases.finite_toSet).image fun x => Context.pile (x.1.map Subtype.val) x.2).subset ?_
  rintro k ⟨n, stack, called, b, base, rfl, frames⟩
  have short := frames.length_le calls.atEnd progressive
  have follows := frames.follows rfl
  lift stack to List net.callFollows using follows
  refine ⟨(stack, b), ⟨?_, base⟩, rfl⟩
  rw [List.length_map, Nat.zero_add] at short
  exact short

/-! ## Guards -/

/-- The guards that the network asks for. -/
def asked (net : Network) : Set Guard := {q | ∃ n, ∃ t ∈ net.out n, t.label.guard? = some q}

/-- The conjunctions of guards that the network asks for. -/
def gathered (net : Network) : Set Guard :=
  {g | ∃ gs : List Guard, (∀ q ∈ gs, q ∈ net.asked) ∧ g = gs.foldl Guard.and .always}

theorem finite_asked (net : Network) : net.asked.Finite := finite_of_out net fun t => t.label.guard?

theorem normal_of_asked {q : Guard} (asked : q ∈ net.asked) : q.Normal := by
  obtain ⟨n, t, -, asks⟩ := asked
  unfold Label.guard? at asks
  split at asks
  · cases asks
    exact .predicate _ _ _
  · cases asks
    exact .precedence _
  · cases asks

/-- A guard that was collected before adds nothing. -/
theorem foldl_and_of_mem {gs : List Guard} {q : Guard} (normal : ∀ g ∈ gs, g.Normal) (member : q ∈ gs) :
    (gs.foldl Guard.and .always).and q = gs.foldl Guard.and .always := by
  have normalQ := normal q member
  have moved : gs.Perm (gs.erase q ++ [q]) := (List.perm_cons_erase member).trans (List.perm_append_singleton _ _).symm
  have normalRest : ((gs.erase q).foldl Guard.and .always).Normal :=
    List.foldlRecOn (motive := Guard.Normal) _ _ .always fun a normalA g among =>
      normalA.and (normal g (List.mem_of_mem_erase among))
  rw [Guard.foldl_and_perm moved normal, List.foldl_append, List.foldl_cons, List.foldl_nil,
    Guard.and_assoc normalRest normalQ normalQ, Guard.and_self normalQ]

theorem finite_gathered (net : Network) : net.gathered.Finite := by
  refine (((finite_asked net).toFinset.powerset.finite_toSet).image fun S : Finset Guard =>
    S.toList.foldl Guard.and .always).subset ?_
  rintro g ⟨gs, all, rfl⟩
  induction gs using List.reverseRecOn with
  | nil => exact ⟨∅, by simp, by simp⟩
  | append_singleton gs q ih =>
    rw [List.forall_mem_append, List.forall_mem_singleton] at all
    obtain ⟨S, within, same⟩ := ih all.1
    have within : S ⊆ (finite_asked net).toFinset := by simpa using within
    have normal : ∀ g ∈ S.toList, g.Normal := fun g member =>
      normal_of_asked ((finite_asked net).mem_toFinset.1 (within (Finset.mem_toList.1 member)))
    rw [List.foldl_append, List.foldl_cons, List.foldl_nil, ← same]
    by_cases member : q ∈ S
    · exact ⟨S, by simpa using within, (foldl_and_of_mem normal (Finset.mem_toList.2 member)).symm⟩
    · refine ⟨insert q S, ?_, ?_⟩
      · exact Finset.mem_coe.2 (Finset.mem_powerset.2
          (Finset.insert_subset ((finite_asked net).mem_toFinset.2 all.2) within))
      · have perm : (insert q S).toList.Perm (S.toList ++ [q]) :=
          (Finset.toList_insert member).trans (List.perm_append_singleton _ _).symm
        have normal' : ∀ g ∈ (insert q S).toList, g.Normal := by
          intro g among
          rcases List.mem_append.1 (perm.mem_iff.1 among) with old | new
          · exact normal g old
          · exact List.mem_singleton.1 new ▸ normal_of_asked all.2
        simp only [Guard.foldl_and_perm perm normal', List.foldl_append, List.foldl_cons, List.foldl_nil]

theorem always_mem_gathered (net : Network) : .always ∈ net.gathered := ⟨[], List.forall_mem_nil _, rfl⟩

theorem and_mem_gathered {g q : Guard} (gathered : g ∈ net.gathered) (asks : q ∈ net.asked) :
    g.and q ∈ net.gathered := by
  obtain ⟨gs, all, rfl⟩ := gathered
  refine ⟨gs ++ [q], ?_, by simp⟩
  rw [List.forall_mem_append, List.forall_mem_singleton]
  exact ⟨all, asks⟩

end Network

/-! ## Configurations -/

namespace Prediction

variable {η : Type} {env : Env η} {net : Network} {may : Bool} {G : Config → Set Guard} {c c₀ : Config}
  {cs : List Config}

/-- The state is that of the beginning, or a transition, a call or a return leads there. -/
def Known (net : Network) (c₀ : Config) : Set Nat :=
  {c₀.state} ∪ net.targets ∪ net.callFollows ∪ {m | ∃ b ∈ c₀.context.bases, ∃ parent, (some m, parent) ∈ b.entries}

/-- The configuration may be met by the closure of another one, with a guard of some kind. -/
structure Stems (net : Network) (G : Set Guard) (c₀ c : Config) : Prop where
  alt : c.alt = c₀.alt
  actions : c.actions = c₀.actions
  nonGreedy : c.nonGreedy = c₀.nonGreedy
  state : c.state ∈ Known net c₀
  context : net.Atop c₀.context c.state c.context
  guard : c.guard ∈ G

theorem finite_known (net : Network) (c₀ : Config) : (Known net c₀).Finite := by
  refine (((Set.finite_singleton _).union (finite_targets net)).union (finite_callFollows net)).union ?_
  refine (c₀.context.bases.finite_toSet.biUnion fun b _ => (b.entries.filterMap Prod.fst).finite_toSet).subset ?_
  rintro m ⟨b, base, parent, member⟩
  exact Set.mem_biUnion (show b ∈ {b | b ∈ c₀.context.bases} from base) (List.mem_filterMap.2 ⟨_, member, rfl⟩)

theorem finite_stems (calls : net.CallsStarts) (progressive : net.atEnd.Progressive) {G : Set Guard} (finite : G.Finite)
    (c₀ : Config) : (Config.identity '' {c | Stems net G c₀ c}).Finite := by
  refine (((finite_known net c₀).prod ((finite_atop calls progressive c₀.context).prod (finite.prod
    (Set.finite_univ : (Set.univ : Set Bool).Finite)))).image fun x => { c₀ with
      state := x.1, context := x.2.1, guard := x.2.2.1, filterSuppressed := x.2.2.2, outerDepth := 0 }).subset ?_
  rintro d ⟨c, stems, rfl⟩
  refine ⟨(c.state, c.context, c.guard, c.filterSuppressed), ?_, ?_⟩
  · exact ⟨stems.state, ⟨_, stems.context⟩, stems.guard, trivial⟩
  obtain ⟨state, alt, context, guard, depth, suppressed, actions, nonGreedy⟩ := c
  obtain rfl := stems.alt
  obtain rfl := stems.actions
  obtain rfl := stems.nonGreedy
  rfl

/-- The end of a rule is left freely. -/
def EndsFreely (net : Network) : Prop := ∀ n, net.isStop n = true → ∀ move ∈ net.moves n, ∃ m, move = .free m

/-- A configuration behind a transition, whatever its guard. -/
theorem Stems.followed {G : Set Guard} {t : Transition} (stems : Stems net G c₀ c) (free : EndsFreely net)
    (member : t ∈ net.out c.state) (bottomed : Bottomed net c) (silent : t.label.isEpsilon = true ∨ t.takesEnd = true) :
    (follow c t).state ∈ Known net c₀ ∧ net.Atop c₀.context (follow c t).state (follow c t).context := by
  have move : t.move ∈ net.moves c.state := List.mem_map_of_mem member
  have reached (k : Context) : (c.withContext t.target k).state ∈ Known net c₀ :=
    .inl (.inl (.inr ⟨c.state, t, member, rfl⟩))
  cases isStop : net.isStop c.state with
  | true =>
    obtain ⟨parent, bottom⟩ := bottomed isStop
    obtain ⟨m, isFree⟩ := free c.state isStop t.move move
    have same : follow c t = c.withState t.target := by
      obtain ⟨target, label⟩ := t
      cases label with
      | rule => cases isFree
      | _ => rfl
    rw [same]
    exact ⟨reached c.context, stems.context.exit bottom _⟩
  | false =>
    have moved (isFree : t.atEnd.move = .free t.target) : net.Atop c₀.context t.target c.context :=
      stems.context.free isStop (isFree ▸ mem_moves_atEnd member)
    rcases silent with silent | takes
    · have kept := Transition.atEnd_of_free silent
      rw [kept] at moved
      obtain ⟨target, label⟩ := t
      cases label with
      | rule r q ret => exact ⟨reached _, stems.context.call isStop move⟩
      | epsilon | predicate | action | precedence => exact ⟨reached c.context, moved rfl⟩
      | _ => cases silent
    · have further := moved (Transition.move_of_takesEnd takes)
      obtain ⟨target, label⟩ := t
      cases label with
      | rule => cases takes
      | _ => exact ⟨reached c.context, further⟩

theorem follow_frame (c : Config) (t : Transition) : (follow c t).alt = c.alt ∧ (follow c t).actions = c.actions ∧
    (follow c t).nonGreedy = c.nonGreedy ∧ (follow c t).guard = c.guard := by
  unfold follow
  split <;> exact ⟨rfl, rfl, rfl, rfl⟩

/-- What a closure of several configurations may come to. -/
theorem grounds_stems (calls : net.CallsStarts) (free : EndsFreely net) (progressive : net.atEnd.Progressive)
    (finite : ∀ c ∈ cs, (G c).Finite)
    (absorbs : may = true → ∀ c ∈ cs, ∀ g ∈ G c, ∀ q ∈ net.asked, g.and q ∈ G c) :
    Grounds net may fun c => ∃ c₀ ∈ cs, Stems net (G c₀) c₀ c where
  finite := by
    refine (cs.finite_toSet.biUnion fun c₀ member => finite_stems calls progressive (finite c₀ member) c₀).subset ?_
    rintro d ⟨c, ⟨c₀, member, stems⟩, rfl⟩
    exact Set.mem_biUnion (show c₀ ∈ {c | c ∈ cs} from member) ⟨c, stems, rfl⟩
  followed := by
    rintro c t ⟨c₀, among, stems⟩ member bottomed silent
    obtain ⟨alt, actions, nonGreedy, guard⟩ := follow_frame c t
    obtain ⟨state, context⟩ := stems.followed free member bottomed silent
    exact ⟨c₀, among, alt.trans stems.alt, actions.trans stems.actions, nonGreedy.trans stems.nonGreedy, state, context,
      guard ▸ stems.guard⟩
  guarded := by
    rintro c t q collects ⟨c₀, among, stems⟩ member bottomed asks
    have silent : t.label.isEpsilon = true := by
      obtain ⟨target, label⟩ := t
      cases label <;> first | rfl | cases asks
    have same : follow c t = c.withState t.target := by
      obtain ⟨target, label⟩ := t
      cases label <;> first | rfl | cases asks
    obtain ⟨state, context⟩ := stems.followed free member bottomed (.inl silent)
    rw [same] at state context
    exact ⟨c₀, among, stems.alt, stems.actions, stems.nonGreedy, state, context,
      absorbs collects c₀ among _ stems.guard q ⟨_, t, member, asks⟩⟩
  left := by
    rintro c suppressed depth ⟨c₀, among, stems⟩
    exact ⟨c₀, among, stems.alt, stems.actions, stems.nonGreedy, stems.state, stems.context, stems.guard⟩
  returned := by
    rintro c n parent ⟨c₀, among, stems⟩ stop member
    refine ⟨c₀, among, stems.alt, stems.actions, stems.nonGreedy, ?_, stems.context.back stop member, stems.guard⟩
    obtain ⟨stack, called, b, base, same, frames⟩ := stems.context
    cases stack with
    | nil => exact .inr ⟨b, base, parent, by rwa [same] at member⟩
    | cons follow stack =>
      obtain ⟨rfl, -⟩ : n = follow ∧ parent = Context.pile stack b := by
        rw [same] at member
        simpa [Context.pile, Context.push, Context.entries] using member
      exact .inl (.inr (frames.follows rfl n List.mem_cons_self))

/-- A configuration stems from itself. -/
theorem stems_self {G : Set Guard} (guard : c.guard ∈ G) : Stems net G c c :=
  ⟨rfl, rfl, rfl, .inl (.inl (.inl rfl)), .begins _ _ _, guard⟩

/-! ## Sets -/

/-- What is known of a network whose closures end. -/
structure Ending (net : Network) : Prop where
  calls : net.CallsStarts
  free : EndsFreely net
  progressive : net.atEnd.Progressive
  turns : WellFounded fun b a => net.Turn a b

variable {p : Purpose} {s : ConfigSet} {w : Scratch η}

/-- Without predicates to collect, all closures end. -/
theorem closureOf_ends (ending : Ending env.net) (cs : List Config) :
    Settles (fun fuel => closureOf (env.fueled fuel) p false s cs) w fun _ _ => True := by
  have grounds : Grounds env.net false fun c => ∃ c₀ ∈ cs, Stems env.net {c₀.guard} c₀ c :=
    grounds_stems ending.calls ending.free ending.progressive (fun _ _ => Set.finite_singleton _) nofun
  exact closureOf_settles ending.turns grounds (id : false = true → false = true)
    (fun c member => ⟨c, member, stems_self (Set.mem_singleton c.guard)⟩) s w

/-- The closures of the alternatives of a decision end. -/
theorem startSet_settles (ending : Ending env.net) (context : Context) (full : Bool) :
    Settles (fun fuel => startSet (env.fueled fuel) context full) w fun _ _ => True := by
  have each (y : Transition × Nat) (s : ConfigSet) (w : Scratch η) : Settles (fun fuel =>
      closureOf (env.fueled fuel) ⟨full, false⟩ true s [first y.2 y.1 context]) w fun _ _ => True := by
    have grounds : Grounds env.net true fun c => ∃ c₀ ∈ [first y.2 y.1 context], Stems env.net env.net.gathered c₀ c :=
      grounds_stems ending.calls ending.free ending.progressive (fun _ _ => finite_gathered _)
        fun _ _ _ _ gathered _ asks => and_mem_gathered gathered asks
    refine closureOf_settles ending.turns grounds (fun _ => rfl) (fun c member => ⟨c, member, stems_self ?_⟩) s w
    rw [List.mem_singleton.1 member]
    exact always_mem_gathered _
  exact Settles.foldlM (f := fun fuel configs (y : Transition × Nat) =>
    closureOf (env.fueled fuel) ⟨full, false⟩ true configs [first y.2 y.1 context])
    (l := (env.net.out env.startState).zipIdx) (fun y _ s w => each y s w) (.ofParser full) w

/-! ### Steps without fuel -/

theorem insert_settles (s : ConfigSet) (c : Config) (w : Scratch η) :
    Settles (fun _ => insert s c) w fun _ _ => True := ⟨_, _, .of_forall fun _ => rfl, trivial⟩

theorem insertAll_settles (cs : List Config) (s : ConfigSet) (w : Scratch η) :
    Settles (fun _ => cs.foldlM insert s) w fun _ _ => True := .foldlM (fun c _ s w => insert_settles s c w) s w

theorem move_settles (s : ConfigSet) (x : Int) (full : Bool) (w : Scratch η) :
    Settles (fun fuel => move (env.fueled fuel) s x full) w fun _ _ => True := by
  have each (c : Config) (moved : ConfigSet) (w : Scratch η) : Settles (fun _ => (env.net.out c.state).foldlM
      (fun moved t => if t.label.accepts x 0 env.net.maxTokenType then insert moved (c.withState t.target)
        else pure moved) moved) w fun _ _ => True := by
    refine .foldlM (fun t _ moved w => ?_) moved w
    split
    · exact insert_settles moved _ w
    · exact .pure trivial
  exact Settles.foldlM (l := s.configs.toList.filter fun c => !(env.net.state c.state).kind.isRuleStop)
    (fun c _ moved w => each c moved w) (.ofParser full) w

theorem keepStopped_settles (s : ConfigSet) (w : Scratch η) :
    Settles (fun fuel => keepStopped (env.fueled fuel) s) w fun _ _ => True := by
  unfold keepStopped
  simp only [net_fueled]
  exact .ite (fun _ => .pure trivial) fun _ => insertAll_settles _ _ w

/-- With enough fuel it is found out where a token leads, always in the same way. -/
theorem reachSet_settles (ending : Ending env.net) (s : ConfigSet) (x : Int) (full : Bool) (w : Scratch η) :
    Settles (fun fuel => reachSet (env.fueled fuel) s x full) w fun _ _ => True := by
  simp only [reachSet_eq, net_fueled]
  refine (move_settles s x full w).bind fun moved w₁ _ => ?_
  refine (Settles.ite (fun _ => .pure trivial) fun _ => closureOf_ends ending _).bind fun reach w₂ _ => ?_
  refine (Settles.ite (fun _ => keepStopped_settles reach w₂) fun _ => .pure trivial).bind fun reach w₃ _ => ?_
  exact (Settles.ite (fun _ => insertAll_settles _ reach w₃) fun _ => .pure trivial).bind fun _ _ _ => .pure trivial

theorem filterFirst_settles (cs : List Config) (s : ConfigSet) (seen : List (Nat × Context)) (w : Scratch η) :
    Settles (fun fuel => filterFirst (env.fueled fuel) s seen cs) w fun _ _ => True := by
  induction cs generalizing s seen w with
  | nil => exact .pure trivial
  | cons c rest ih =>
    simp only [filterFirst, evaluator_fueled]
    refine .get_bind ?_
    obtain ⟨resolved, hooks⟩ := (c.guard.resolve env.evaluator).run w.hooks
    refine .set_bind ?_
    cases resolved with
    | none => exact ih _ _ _
    | some g => exact (insert_settles _ _ _).bind fun s' w' _ => ih s' _ w'

theorem precedenceFilter_settles (s : ConfigSet) (w : Scratch η) :
    Settles (fun fuel => precedenceFilter (env.fueled fuel) s) w fun _ _ => True := by
  refine (filterFirst_settles _ _ _ w).bind fun result w₁ _ => ?_
  refine .foldlM (fun c _ s w => ?_) _ w₁
  dsimp only
  split
  · exact .pure trivial
  · exact insert_settles _ _ w

theorem ask_settles (g : Guard) (w : Scratch η) : Settles (fun fuel => ask (env.fueled fuel) g) w fun _ _ => True := by
  change Settles (fun _ => ask env g) w _
  exact ⟨_, _, .of_forall fun _ => rfl, trivial⟩

theorem answerGuards_settles (cs : List Config) (w : Scratch η) :
    Settles (fun fuel => answerGuards (env.fueled fuel) cs) w fun _ _ => True := by
  induction cs generalizing w with
  | nil => exact .pure trivial
  | cons c rest ih => exact (ask_settles c.guard w).bind fun holds w₁ _ => (ih w₁).bind fun _ _ _ => .pure trivial

theorem fallbackAlt_settles (s : ConfigSet) (w : Scratch η) :
    Settles (fun fuel => fallbackAlt (env.fueled fuel) s) w fun _ _ => True := by
  refine (answerGuards_settles _ w).bind fun answered w₁ _ => ?_
  generalize answered.partition (·.2) = parts
  obtain ⟨valid, invalid⟩ := parts
  simp only [net_fueled]
  exact .pure trivial

theorem enabledAlts_settles (alts : List GuardedAlt) (w : Scratch η) :
    Settles (fun fuel => enabledAlts (env.fueled fuel) alts) w fun _ _ => True := by
  refine .foldlM (fun p _ enabled w => ?_) _ w
  exact (ask_settles p.guard w).bind fun holds w₁ _ => .pure trivial

end Prediction

end AdaptiveLL
