import AdaptiveLL.Lexer.Match
import AdaptiveLL.Proofs.Grammar.Loading
import AdaptiveLL.Proofs.Grammar.Spelling

/-!
# The language of a rule

The paths through a rule spell the words that the body of the rule denotes, and no others
(`Grammar.compile_language`). That they spell no others is shown with a language for every state of an
element: what can be read from the state on, when a word of a given language follows the element. Such
languages take up whatever a transition reads (`TakesUp`), and at the left end of the element they are no
more than the words of the element followed by one of the given (`Carries`). Along a path they only grow.
-/

set_option autoImplicit false

namespace AdaptiveLL

open scoped Computability

namespace Network

variable {net : Network} {g : Grammar} {least greatest : Int} {rule : Nat}

/-! ## Languages of states -/

/-- The language of a state has what can be read by leaving it: a transition, then a word of the language
of the state behind it; for a call, a word of the rule that is called. -/
structure TakesUp (net : Network) (g : Grammar) (least greatest : Int) (K : Nat → Language Int) (n : Nat) :
    Prop where
  free : ∀ m, .free m ∈ net.moves n → K m ≤ K n
  consume : ∀ t ∈ net.out n, ∀ symbol, t.label.accepts symbol least greatest = true →
    ∀ w ∈ K t.target, symbol :: w ∈ K n
  call : ∀ i start follow r, .call i start follow ∈ net.moves n → g.rules[i]? = some r →
    g.language least greatest r.body * K follow ≤ K n

/-- It is enough to know the languages of the states that the transitions stay among. -/
theorem TakesUp.congr {K K' : Nat → Language Int} {lo hi n : Nat}
    (takesUp : net.TakesUp g least greatest K n) (within : net.Within g lo hi n)
    (same : ∀ m, lo ≤ m → m < hi → K' m = K m) (here : K' n = K n) :
    net.TakesUp g least greatest K' n := by
  refine ⟨fun m move => ?_, fun t member symbol accepts => ?_, fun i start follow r move found => ?_⟩
  · have bounds := within.next move
    rw [here, same m bounds.1 bounds.2]
    exact takesUp.free m move
  · have bounds := within.next (List.mem_map.2 ⟨t, member, Transition.move_of_accepts accepts⟩)
    rw [here, same t.target bounds.1 bounds.2]
    exact takesUp.consume t member symbol accepts
  · have bounds := within.next move
    rw [here, same follow bounds.1 bounds.2]
    exact takesUp.call i start follow r move found

theorem takesUp_epsilons {K : Nat → Language Int} {n : Nat}
    (free : ∀ t ∈ net.out n, ∃ m, t = .epsilon m ∧ K m ≤ K n) : net.TakesUp g least greatest K n := by
  refine ⟨fun m move => ?_, fun t member symbol accepts => ?_, fun i start follow r move found => ?_⟩
  · obtain ⟨t, member, same⟩ := List.mem_map.1 move
    obtain ⟨m', rfl, le⟩ := free t member
    cases same
    exact le
  · obtain ⟨m, rfl, -⟩ := free t member
    cases accepts
  · obtain ⟨t, member, same⟩ := List.mem_map.1 move
    obtain ⟨m, rfl, -⟩ := free t member
    cases same

theorem takesUp_epsilon {K : Nat → Language Int} {n m : Nat} (out : net.out n = [.epsilon m])
    (le : K m ≤ K n) : net.TakesUp g least greatest K n := by
  refine takesUp_epsilons fun t member => ⟨m, ?_, le⟩
  rwa [out, List.mem_singleton] at member

theorem takesUp_leaf {K : Nat → Language Int} {n m : Nat} {e : Element} {label : Label}
    (labelled : LeafLabel g rule e label) (out : net.out n = [⟨m, label⟩])
    (le : g.language least greatest e * K m ≤ K n) : net.TakesUp g least greatest K n := by
  have onlyMove {move : Move} (member : move ∈ net.moves n) : move = (⟨m, label⟩ : Transition).move := by
    rwa [moves, out, List.map_singleton, List.mem_singleton] at member
  refine ⟨fun m' move => ?_, fun t member symbol accepts => ?_, fun i start follow r move found => ?_⟩
  · have same := onlyMove move
    unfold Transition.move at same
    split at same
    · cases same
    · split at same
      · rename_i free
        cases same
        have none : g.Denotes least greatest e [] := labelled.denotes_nothing free
        refine Grammar.within_iff.2 fun w member => Grammar.within_iff.1 le _ ?_
        exact Language.append_mem_mul none member
      · cases same
  · rw [out, List.mem_singleton] at member
    subst member
    intro w behind
    exact Grammar.within_iff.1 le _ (Language.append_mem_mul (labelled.denotes_one accepts) behind)
  · obtain ⟨p, isCall, -⟩ := Transition.of_move_call (onlyMove move).symm
    exact absurd isCall (labelled.plain _ _ _)

theorem takesUp_call {K : Nat → Language Int} {n i follow : Nat} {name : String} {precedence : Int}
    (known : g.ruleIndex name = .ok i) (out : net.out n = [⟨net.ruleStart i, .rule i precedence follow⟩])
    (le : g.language least greatest (.rule name precedence) * K follow ≤ K n) :
    net.TakesUp g least greatest K n := by
  have onlyMove {move : Move} (member : move ∈ net.moves n) :
      move = .call i (net.ruleStart i) follow := by
    rwa [moves, out, List.map_singleton, List.mem_singleton] at member
  refine ⟨fun m move => ?_, fun t member symbol accepts => ?_, fun i start follow r move found => ?_⟩
  · cases onlyMove move
  · rw [out, List.mem_singleton] at member
    subst member
    cases accepts
  · cases onlyMove move
    rwa [← Grammar.language_rule known found precedence]

/-! ## Languages of the states of an element -/

/-- Languages for the states of an element that is followed by a word of `C`. -/
structure Carries (net : Network) (g : Grammar) (least greatest : Int) (e : Element) (seg : Segment)
    (lo hi : Nat) (C : Language Int) (K : Nat → Language Int) : Prop where
  ends : C ≤ K seg.right
  takesUp : ∀ n, lo ≤ n → n < hi → n ≠ seg.right → net.TakesUp g least greatest K n
  enters : K seg.left ≤ g.language least greatest e * C

/-- Whatever follows the laid out element, its states have languages. -/
structure Carried (net : Network) (g : Grammar) (least greatest : Int) (rule : Nat) (e : Element)
    (seg : Segment) (lo hi : Nat) : Prop where
  laid : net.Laid g rule e seg lo hi
  languages : ∀ C, ∃ K, net.Carries g least greatest e seg lo hi C K

/-- The languages `K` before `mid` and `K'` from there on. -/
def splice (mid : Nat) (K K' : Nat → Language Int) (n : Nat) : Language Int := if n < mid then K n else K' n

theorem splice_early {mid n : Nat} (K K' : Nat → Language Int) (early : n < mid) :
    splice mid K K' n = K n := if_pos early

theorem splice_late {mid n : Nat} (K K' : Nat → Language Int) (late : mid ≤ n) :
    splice mid K K' n = K' n := if_neg (Nat.not_lt.2 late)

theorem TakesUp.early {K K' : Nat → Language Int} {lo mid n : Nat}
    (takesUp : net.TakesUp g least greatest K n) (within : net.Within g lo mid n) (early : n < mid) :
    net.TakesUp g least greatest (splice mid K K') n :=
  takesUp.congr within (fun _ _ below => splice_early K K' below) (splice_early K K' early)

theorem TakesUp.late {K K' : Nat → Language Int} {mid hi n : Nat}
    (takesUp : net.TakesUp g least greatest K' n) (within : net.Within g mid hi n) (late : mid ≤ n) :
    net.TakesUp g least greatest (splice mid K K') n :=
  takesUp.congr within (fun _ above _ => splice_late K K' above) (splice_late K K' late)

/-- An element on two states, of which the first takes up the element. -/
theorem carries_pair {e : Element} {lo : Nat} (C : Language Int)
    (takesUp : ∀ K : Nat → Language Int, g.language least greatest e * K (lo + 1) ≤ K lo →
      net.TakesUp g least greatest K lo) :
    ∃ K, net.Carries g least greatest e ⟨lo, lo + 1⟩ lo (lo + 2) C K := by
  let K := splice (lo + 1) (fun _ => g.language least greatest e * C) fun _ => C
  have here : K lo = g.language least greatest e * C := splice_early _ _ (Nat.lt_succ_self lo)
  have behind : K (lo + 1) = C := splice_late _ _ (Nat.le_refl _)
  refine ⟨K, behind.ge, fun n above below apart => ?_, here.le⟩
  obtain rfl : n = lo := by
    dsimp only at apart
    omega
  exact takesUp K (by rw [here, behind])

/-- A text on its states. -/
theorem Spelled.languages {cs : List Char} {left right : Nat} (spelled : net.Spelled cs left right)
    (C : Language Int) : ∃ K : Nat → Language Int, C ≤ K right ∧
      (∀ n, left ≤ n → n < right → net.TakesUp g least greatest K n) ∧
      K left ≤ {cs.map fun c => (c.toNat : Int)} * C := by
  induction spelled with
  | nil n => exact ⟨fun _ => C, le_rfl, fun m above below => by omega, (one_mul C).ge⟩
  | cons joined edge later ih =>
    rename_i c cs n right
    obtain ⟨K, ends, takesUp, enters⟩ := ih
    obtain ⟨le, within⟩ := later.inside (g := g)
    let whole : Language Int := {(c :: cs).map fun c => (c.toNat : Int)} * C
    let K' := splice (n + 2) (fun _ => whole) K
    have early {m : Nat} (below : m < n + 2) : K' m = whole := splice_early _ K below
    have late {m : Nat} (above : n + 2 ≤ m) : K' m = K m := splice_late _ K above
    refine ⟨K', by rwa [late le], fun m above below => ?_, (early (by omega)).le⟩
    obtain rfl | rfl | behind : m = n ∨ m = n + 1 ∨ n + 2 ≤ m := by omega
    · exact takesUp_epsilon joined (by rw [early (by omega), early (by omega)])
    · have labelled : LeafLabel g 0 (.symbol c.toNat) (Layout.atomLabel c.toNat) := .symbol _
      refine takesUp_leaf labelled edge ?_
      rw [early (Nat.lt_succ_self _), late (Nat.le_refl _)]
      refine Grammar.within_iff.2 fun w parts => ?_
      obtain ⟨u, first, v, rest, rfl⟩ := Language.mem_mul.1 parts
      cases first
      obtain ⟨u, rfl, v, follows, rfl⟩ := Language.mem_mul.1 (Grammar.within_iff.1 enters v rest)
      exact Language.mem_mul.2 ⟨_, rfl, v, follows, rfl⟩
    · exact (takesUp m behind below).late (within m behind below) behind

/-- A sequence: what follows a part are the later parts and then `C`. -/
theorem Chained.languages {es : List Element} {segs : List Segment} {seg : Segment} {lo hi : Nat}
    (chained : net.Chained segs seg) (parts : Consecutive (net.Carried g least greatest rule) es segs lo hi)
    (C : Language Int) : ∃ K, net.Carries g least greatest (.seq es) seg lo hi C K := by
  induction chained generalizing es lo with
  | single s =>
    cases parts with
    | cons first rest =>
      cases rest
      obtain ⟨K, carries⟩ := first.languages C
      refine ⟨K, carries.ends, carries.takesUp, ?_⟩
      rw [Grammar.language_seq_cons, Grammar.language_nothing, mul_one]
      exact carries.enters
  | cons joined later ih =>
    cases parts with
    | cons first rest =>
      rename_i a b ss right e es mid
      obtain ⟨K₂, carries₂⟩ := ih rest
      obtain ⟨K₁, carries₁⟩ := first.languages (g.language least greatest (.seq es) * C)
      have inside₁ := first.laid.inside
      have inside₂ := later.inside (rest.imp fun _ _ _ _ _ carried => carried.laid.inside)
      have bounds₂ : mid ≤ right := inside₂.right.1
      refine ⟨splice mid K₁ K₂, ?_, fun n above below apart => ?_, ?_⟩
      · rw [splice_late _ _ inside₂.right.1]
        exact carries₂.ends
      · rcases Nat.lt_or_ge n mid with early | late
        · by_cases isEnd : n = a.right
          · subst isEnd
            refine takesUp_epsilon joined ?_
            rw [splice_late _ _ inside₂.left.1, splice_early _ _ early]
            exact carries₂.enters.trans carries₁.ends
          · exact (carries₁.takesUp n above early isEnd).early (inside₁.within n above early isEnd) early
        · exact (carries₂.takesUp n late below apart).late (inside₂.within n late below apart) late
      · rw [splice_early _ _ inside₁.left.2, Grammar.language_seq_cons, mul_assoc]
        exact carries₁.enters

/-- Elements side by side, each followed by `D`. -/
theorem branches_languages {es : List Element} {segs : List Segment} {lo hi : Nat}
    (parts : Consecutive (net.Carried g least greatest rule) es segs lo hi) (D : Language Int) :
    ∃ K : Nat → Language Int, (∀ s ∈ segs, D ≤ K s.right) ∧
      (∀ n, lo ≤ n → n < hi → (∀ s ∈ segs, n ≠ s.right) → net.TakesUp g least greatest K n) ∧
      ∀ s ∈ segs, K s.left ≤ g.language least greatest (.alt es) * D := by
  induction parts with
  | nil lo => exact ⟨fun _ => D, by simp, fun n above below => by omega, by simp⟩
  | cons first rest ih =>
    rename_i e es s ss lo mid hi
    obtain ⟨K₂, ends₂, takesUp₂, enters₂⟩ := ih
    obtain ⟨K₁, carries₁⟩ := first.languages D
    have inside₁ := first.laid.inside
    obtain ⟨-, bounds, within₂⟩ := inside_all (rest.imp fun _ _ _ _ _ carried => carried.laid.inside)
    refine ⟨splice mid K₁ K₂, ?_, fun n above below apart => ?_, ?_⟩
    · intro s' member
      rcases List.mem_cons.1 member with rfl | later
      · rw [splice_early _ _ inside₁.right.2]
        exact carries₁.ends
      · rw [splice_late _ _ (bounds s' later).2.2.1]
        exact ends₂ s' later
    · rcases Nat.lt_or_ge n mid with early | late
      · have notEnd := apart s (by simp)
        exact (carries₁.takesUp n above early notEnd).early (inside₁.within n above early notEnd) early
      · have notEnd : ∀ s' ∈ ss, n ≠ s'.right := fun s' later => apart s' (by simp [later])
        exact (takesUp₂ n late below notEnd).late (within₂ n late below notEnd) late
    · intro s' member
      rcases List.mem_cons.1 member with rfl | later
      · rw [splice_early _ _ inside₁.left.2]
        exact carries₁.enters.trans (mul_le_mul_left (Grammar.language_le_alt (by simp)) D)
      · rw [splice_late _ _ (bounds s' later).1]
        refine (enters₂ s' later).trans (mul_le_mul_left (Grammar.within_iff.2 fun w chosen => ?_) D)
        obtain ⟨e', among, isWord⟩ := Grammar.mem_language_alt.1 chosen
        exact Grammar.mem_language_alt.2 ⟨e', by simp [among], isWord⟩

/-- Elements side by side that all end at a state which, as the states around it, has a language already. -/
theorem block_languages {es : List Element} {segs : List Segment} {lo mid stop : Nat}
    (parts : Consecutive (net.Carried g least greatest rule) es segs lo mid) (ends : net.EndAt segs stop)
    (late : mid ≤ stop) (own : Nat → Language Int) :
    ∃ K : Nat → Language Int, (∀ n, mid ≤ n → K n = own n) ∧
      (∀ n, lo ≤ n → n < mid → net.TakesUp g least greatest K n) ∧
      ∀ s ∈ segs, K s.left ≤ g.language least greatest (.alt es) * own stop := by
  obtain ⟨K, out, takesUp, enters⟩ := branches_languages parts (own stop)
  obtain ⟨-, bounds, within⟩ := inside_all (parts.imp fun _ _ _ _ _ carried => carried.laid.inside)
  refine ⟨splice mid K own, fun n late => splice_late _ _ late, fun n above below => ?_, fun s member => ?_⟩
  · by_cases isEnd : ∃ s ∈ segs, n = s.right
    · obtain ⟨s, member, rfl⟩ := isEnd
      refine takesUp_epsilon (ends s member) ?_
      rw [splice_late _ _ late, splice_early _ _ below]
      exact out s member
    · have notEnd : ∀ s ∈ segs, n ≠ s.right := fun s member same => isEnd ⟨s, member, same⟩
      exact (takesUp n above below notEnd).early (within n above below notEnd) below
  · rw [splice_early _ _ (bounds s member).2.1]
    exact enters s member

/-- The ways into segments lead to languages that are no more than that of the state. -/
theorem le_of_waysIn {K : Nat → Language Int} {n : Nat} {segs : List Segment} {t : Transition}
    (member : t ∈ waysIn segs) (enters : ∀ s ∈ segs, K s.left ≤ K n) : ∃ m, t = .epsilon m ∧ K m ≤ K n := by
  obtain ⟨s, among, rfl⟩ := List.mem_map.1 member
  exact ⟨s.left, rfl, enters s among⟩

theorem alt_languages {es : List Element} {segs : List Segment} {lo mid : Nat}
    (parts : Consecutive (net.Carried g least greatest rule) es segs lo mid)
    (enters : net.out mid = waysIn segs) (ends : net.EndAt segs (mid + 1)) (C : Language Int) :
    ∃ K, net.Carries g least greatest (.alt es) ⟨mid, mid + 1⟩ lo (mid + 2) C K := by
  obtain ⟨K, own, takesUp, branches⟩ := block_languages parts ends (Nat.le_succ mid)
    fun n => if n = mid then g.language least greatest (.alt es) * C else C
  have start : K mid = g.language least greatest (.alt es) * C := by simp [own]
  have stop : K (mid + 1) = C := by simp [own]
  refine ⟨K, stop.ge, fun n above below apart => ?_, start.le⟩
  rcases Nat.lt_or_ge n mid with early | late
  · exact takesUp n above early
  · obtain rfl : n = mid := by
      dsimp only at apart
      omega
    refine takesUp_epsilons fun t member => ?_
    rw [enters] at member
    exact le_of_waysIn member fun s among => (branches s among).trans (by simp [own])

theorem optional_languages {greedy : Bool} {body : Element} {segs : List Segment} {lo mid : Nat}
    (parts : Consecutive (net.Carried g least greatest rule) body.branches segs lo mid)
    (enters : net.out mid = inOrder greedy (waysIn segs) [.epsilon (mid + 1)])
    (ends : net.EndAt segs (mid + 1)) (C : Language Int) :
    ∃ K, net.Carries g least greatest (.repeated .optional greedy body) ⟨mid, mid + 1⟩ lo (mid + 2) C K := by
  let B := g.language least greatest body
  obtain ⟨K, own, takesUp, branches⟩ := block_languages parts ends (Nat.le_succ mid)
    fun n => if n = mid then (1 + B) * C else C
  rw [Grammar.language_branches, if_neg (Nat.succ_ne_self mid)] at branches
  have start : K mid = (1 + B) * C := by simp [own]
  have stop : K (mid + 1) = C := by simp [own]
  have leave : C ≤ (1 + B) * C := by
    rw [add_mul, one_mul, add_eq_sup]
    exact le_sup_left
  have enter : B * C ≤ (1 + B) * C := by
    rw [add_mul, add_eq_sup]
    exact le_sup_right
  refine ⟨K, stop.ge, fun n above below apart => ?_, ?_⟩
  · rcases Nat.lt_or_ge n mid with early | late
    · exact takesUp n above early
    · obtain rfl : n = mid := by
        dsimp only at apart
        omega
      refine takesUp_epsilons fun t member => ?_
      rw [enters, mem_inOrder] at member
      rcases member with way | exit
      · exact le_of_waysIn way fun s among => (branches s among).trans (enter.trans start.ge)
      · exact ⟨n + 1, List.mem_singleton.1 exit, stop.trans_le (leave.trans start.ge)⟩
  · rw [Grammar.language_optional]
    exact start.le

/-- A loop that begins at `mid` and is left for `exit`: at the state that decides, as at all between the
two, any number of rounds may follow. -/
theorem loop_languages {greedy : Bool} {body : Element} {segs : List Segment} {lo mid decision exit : Nat}
    (parts : Consecutive (net.Carried g least greatest rule) body.branches segs lo mid)
    (enters : net.out mid = waysIn segs) (ends : net.EndAt segs (mid + 1))
    (decides : net.out decision = inOrder greedy [.epsilon mid] [.epsilon exit])
    (behind : mid < decision) (before : decision < exit) (C : Language Int) :
    ∃ K : Nat → Language Int,
      K mid = g.language least greatest body * ((g.language least greatest body)∗ * C) ∧
      (∀ n, mid < n → n < exit → K n = (g.language least greatest body)∗ * C) ∧ K exit = C ∧
      (∀ n, lo ≤ n → n ≤ mid → net.TakesUp g least greatest K n) ∧
      net.TakesUp g least greatest K decision := by
  let B := g.language least greatest body
  obtain ⟨K, own, takesUp, branches⟩ := block_languages parts ends (Nat.le_succ mid)
    fun n => if n = mid then B * (B∗ * C) else if n = exit then C else B∗ * C
  rw [Grammar.language_branches, if_neg (Nat.succ_ne_self mid), if_neg (by omega)] at branches
  have start : K mid = B * (B∗ * C) := by simp [own]
  have between (n : Nat) (low : mid < n) (high : n < exit) : K n = B∗ * C := by
    rw [own n (Nat.le_of_lt low), if_neg (by omega), if_neg (by omega)]
  have stop : K exit = C := by rw [own exit (by omega), if_neg (by omega), if_pos rfl]
  have again : B * (B∗ * C) ≤ B∗ * C := by
    rw [← mul_assoc]
    exact mul_le_mul_left mul_kstar_le_kstar C
  have leave : C ≤ B∗ * C := by simpa using mul_le_mul_left (one_le_kstar (a := B)) C
  refine ⟨K, start, between, stop, fun n above upTo => ?_, takesUp_epsilons fun t member => ?_⟩
  · obtain early | rfl := Nat.lt_or_eq_of_le upTo
    · exact takesUp n above early
    · refine takesUp_epsilons fun t member => ?_
      rw [enters] at member
      exact le_of_waysIn member fun s among => (branches s among).trans start.ge
  · rw [decides, mem_inOrder, List.mem_singleton, List.mem_singleton] at member
    rw [between decision behind before]
    rcases member with rfl | rfl
    · exact ⟨mid, rfl, start.trans_le again⟩
    · exact ⟨exit, rfl, stop.trans_le leave⟩

theorem Repeated.languages {q : Quantifier} {greedy : Bool} {body : Element} {segs : List Segment}
    {seg : Segment} {lo mid hi : Nat} (around : net.Repeated greedy segs mid q seg hi)
    (parts : Consecutive (net.Carried g least greatest rule) body.branches segs lo mid) (C : Language Int) :
    ∃ K, net.Carries g least greatest (.repeated q greedy body) seg lo hi C K := by
  cases around with
  | optional enters ends => exact optional_languages parts enters ends C
  | star enters ends stops returns decides =>
    obtain ⟨K, start, between, stop, takesUp, choice⟩ :=
      loop_languages parts enters ends decides (by omega) (by omega) C
    refine ⟨K, stop.ge, fun n above below apart => ?_, ?_⟩
    · dsimp only at apart
      obtain upTo | rfl | rfl | rfl : n ≤ mid ∨ n = mid + 1 ∨ n = mid + 2 ∨ n = mid + 3 := by omega
      · exact takesUp n above upTo
      · refine takesUp_epsilon stops ?_
        rw [between (mid + 1) (by omega) (by omega), between (mid + 3) (by omega) (by omega)]
      · exact choice
      · refine takesUp_epsilon returns ?_
        rw [between (mid + 2) (by omega) (by omega), between (mid + 3) (by omega) (by omega)]
    · rw [Grammar.language_star]
      exact (between (mid + 2) (by omega) (by omega)).le
  | plus enters ends stops decides =>
    obtain ⟨K, start, between, stop, takesUp, choice⟩ :=
      loop_languages parts enters ends decides (by omega) (by omega) C
    refine ⟨K, stop.ge, fun n above below apart => ?_, ?_⟩
    · dsimp only at apart
      obtain upTo | rfl | rfl : n ≤ mid ∨ n = mid + 1 ∨ n = mid + 2 := by omega
      · exact takesUp n above upTo
      · refine takesUp_epsilon stops ?_
        rw [between (mid + 1) (by omega) (by omega), between (mid + 2) (by omega) (by omega)]
      · exact choice
    · rw [Grammar.language_plus, mul_assoc]
      exact start.le

/-- The states of a laid out element have languages, whatever follows the element. -/
theorem Laid.carried {e : Element} {seg : Segment} {lo hi : Nat} (laid : net.Laid g rule e seg lo hi) :
    net.Carried g least greatest rule e seg lo hi := by
  have lie {es : List Element} {segs : List Segment} {lo hi : Nat}
      (parts : Consecutive (net.Carried g least greatest rule) es segs lo hi) :
      Consecutive (net.Laid g rule) es segs lo hi := parts.imp fun _ _ _ _ _ carried => carried.laid
  refine laid.elim (P := net.Carried g least greatest rule) ?_ ?_ ?_ ?_ ?_ ?_ ?_ ?_
  · intro e label lo labelled edge
    exact ⟨.leaf labelled edge, fun C => carries_pair C fun K le => takesUp_leaf labelled edge le⟩
  · intro name precedence callee lo known edge
    exact ⟨.call known edge, fun C => carries_pair C fun K le => takesUp_call known edge le⟩
  · intro text lo right lexer spelled
    refine ⟨.literal lexer spelled, fun C => ?_⟩
    obtain ⟨K, ends, takesUp, enters⟩ := @Spelled.languages net g least greatest _ _ _ spelled C
    refine ⟨K, ends, fun n above below apart => takesUp n above ?_, ?_⟩
    · dsimp only at apart
      omega
    · refine enters.trans (mul_le_mul_left (Grammar.within_iff.2 fun w isText => ?_) C)
      obtain rfl := isText
      exact Grammar.Denotes.chars lexer
  · intro lo edge
    refine ⟨.nothing edge, fun C => carries_pair C fun K le => takesUp_epsilon edge ?_⟩
    rwa [Grammar.language_nothing, one_mul] at le
  · intro es segs seg lo hi parts chained
    exact ⟨.seq (lie parts) chained, chained.languages parts⟩
  · intro e seg lo hi part
    refine ⟨.only part.laid, fun C => ?_⟩
    obtain ⟨K, carries⟩ := part.languages C
    exact ⟨K, carries.ends, carries.takesUp, by rw [Grammar.language_only]; exact carries.enters⟩
  · intro es segs lo mid several parts enters ends
    exact ⟨.alt several (lie parts) enters ends, alt_languages parts enters ends⟩
  · intro q greedy body segs seg lo mid hi parts around
    exact ⟨.repeated (lie parts) around, around.languages parts⟩

/-! ## Paths through rules -/

theorem only_free {n m : Nat} {move : Move} (out : net.out n = [.epsilon m]) (member : move ∈ net.moves n) :
    move = .free m := by
  rwa [moves, out, List.map_singleton, List.mem_singleton] at member

theorem accepts_none {n m : Nat} {t : Transition} {symbol : Int} (out : net.out n = [.epsilon m])
    (member : t ∈ net.out n) : t.label.accepts symbol least greatest = false := by
  rw [out, List.mem_singleton] at member
  rw [member]
  rfl

/-- What is known of a word that is spelled from the state to the end of a rule. -/
structure Accounted (net : Network) (g : Grammar) (least greatest : Int) (n : Nat) (w : List Int) : Prop where
  /-- In the body of a rule the word is in the language of the state, when nothing follows the body. -/
  body : ∀ i e seg lo hi K, i < g.rules.length → net.BodyAt g i e seg lo hi →
    net.Carries g least greatest e seg lo hi 1 K → lo ≤ n → n < hi → w ∈ K n
  start : ∀ i r, g.rules[i]? = some r → n = 2 * i → w ∈ g.language least greatest (RuleDef.body r)
  stop : net.isStop n = true → w = []

theorem Path.accounted (laid : net.LaidOut g) {n k : Nat} {w : List Int}
    (path : net.Path least greatest n w k) (isStop : net.isStop k = true) :
    net.Accounted g least greatest n w := by
  have apart {n : Nat} (inner : net.isStop n = false) (isStop : net.isStop n = true) (P : Prop) : P := by
    rw [inner] at isStop
    cases isStop
  induction path with
  | stay n =>
    refine ⟨fun i e seg lo hi K inside body carries low high => ?_, fun i r found same => ?_, fun _ => rfl⟩
    · exact apart (body.inner_states n low high) isStop _
    · exact apart (laid.isStop_start (List.getElem?_eq_some_iff.1 found).1) (same ▸ isStop) _
  | @free n m k w inner move rest ih =>
    refine ⟨fun i e seg lo hi K inside body carries low high => ?_, fun i r found same => ?_, fun isStop => apart inner isStop _⟩
    · by_cases isEnd : n = seg.right
      · subst isEnd
        cases only_free body.stops move
        rw [(ih isStop).stop (laid.isStop_stop inside)]
        exact Grammar.within_iff.1 carries.ends [] Language.nil_mem_one
      · have bounds := (body.laid.inside.within _ low high isEnd).next move
        have later := (ih isStop).body i e seg lo hi K inside body carries bounds.1 bounds.2
        exact Grammar.within_iff.1 ((carries.takesUp _ low high isEnd).free _ move) _ later
    · subst same
      obtain ⟨seg, lo, hi, body⟩ := laid.body i r found
      obtain ⟨K, carries⟩ := body.laid.carried.languages 1
      cases only_free body.starts move
      have inside := (List.getElem?_eq_some_iff.1 found).1
      have within := (ih isStop).body i _ seg lo hi K inside body carries body.left.1 body.left.2
      simpa using Grammar.within_iff.1 carries.enters _ within
  | @consume n k t symbol w inner member accepts rest ih =>
    refine ⟨fun i e seg lo hi K inside body carries low high => ?_, fun i r found same => ?_, fun isStop => apart inner isStop _⟩
    · by_cases isEnd : n = seg.right
      · subst isEnd
        rw [accepts_none body.stops member] at accepts
        cases accepts
      · have bounds := (body.laid.inside.within _ low high isEnd).next
          (List.mem_map.2 ⟨_, member, Transition.move_of_accepts accepts⟩)
        have later := (ih isStop).body i e seg lo hi K inside body carries bounds.1 bounds.2
        exact (carries.takesUp _ low high isEnd).consume _ member _ accepts _ later
    · subst same
      obtain ⟨seg, lo, hi, body⟩ := laid.body i r found
      rw [accepts_none body.starts member] at accepts
      cases accepts
  | @call n callee start follow stop k u v inner move through ends rest ihThrough ih =>
    refine ⟨fun i e seg lo hi K inside body carries low high => ?_, fun i r found same => ?_, fun isStop => apart inner isStop _⟩
    · by_cases isEnd : n = seg.right
      · subst isEnd
        cases only_free body.stops move
      · obtain ⟨known, rfl⟩ := laid.call_move move
        have found := List.getElem?_eq_getElem known
        have called := (ihThrough ends.1).start _ _ found (laid.ruleStart_eq known)
        have bounds := (body.laid.inside.within _ low high isEnd).next move
        have later := (ih isStop).body i e seg lo hi K inside body carries bounds.1 bounds.2
        exact Grammar.within_iff.1 ((carries.takesUp _ low high isEnd).call _ _ _ _ move found) _
          (Language.append_mem_mul called later)
    · subst same
      obtain ⟨seg, lo, hi, body⟩ := laid.body i r found
      cases only_free body.starts move

/-- The paths through a rule spell what its body denotes. -/
theorem LaidOut.path_iff (laid : net.LaidOut g) {i : Nat} {r : RuleDef} (found : g.rules[i]? = some r)
    (w : List Int) :
    net.Path least greatest (2 * i) w (2 * i + 1) ↔ w ∈ g.language least greatest r.body := by
  have inside := (List.getElem?_eq_some_iff.1 found).1
  constructor
  · exact fun path => (path.accounted laid (laid.isStop_stop inside)).start i r found rfl
  · exact fun denotes => laid.path_rule found (laid.spells denotes)

/-! ## The network that is read -/

/-- The least symbol of the alphabet: characters are counted from 0, token types from 1. -/
def leastSymbol (net : Network) : Int := if net.isLexer then minChar else minTokenType

/-- The greatest symbol of the alphabet. -/
def greatestSymbol (net : Network) : Int := if net.isLexer then maxChar else net.maxTokenType

/-- A path leads through states that are no ends of rules, so it is one in every network that has the same
transitions there. -/
theorem Path.transport {net' : Network} (stop : ∀ n, net'.isStop n = net.isStop n)
    (owner : ∀ n, (net'.state n).rule = (net.state n).rule)
    (out : ∀ n, net.isStop n = false → net'.out n = net.out n) {n k : Nat} {w : List Int}
    (path : net.Path least greatest n w k) : net'.Path least greatest n w k := by
  have sameMoves {n : Nat} (inner : net.isStop n = false) : net'.moves n = net.moves n := by
    rw [moves, moves, out n inner]
  induction path with
  | stay n => exact .stay n
  | free inner move rest ih => exact .free (by rwa [stop]) (by rwa [sameMoves inner]) ih
  | consume inner member accepts rest ih =>
    exact .consume (by rwa [stop]) (by rwa [out _ inner]) accepts ih
  | @call n r start follow final k u v inner move through ends rest ihThrough ih =>
    have ends' : net'.EndsRule r final := ⟨(stop final).trans ends.1, (owner final).trans ends.2⟩
    exact .call (by rwa [stop]) (by rwa [sameMoves inner]) ihThrough ends' ih

theorem path_iff_of_same {net' : Network} (stop : ∀ n, net'.isStop n = net.isStop n)
    (owner : ∀ n, (net'.state n).rule = (net.state n).rule)
    (out : ∀ n, net.isStop n = false → net'.out n = net.out n) {n k : Nat} {w : List Int} :
    net'.Path least greatest n w k ↔ net.Path least greatest n w k :=
  ⟨Path.transport (fun n => (stop n).symm) (fun n => (owner n).symm)
    fun n inner => (out n ((stop n).symm.trans inner)).symm, Path.transport stop owner out⟩

theorem Restored.path_iff {laid : Network} {actions : Array LexerAction}
    (restored : ({ laid with actions } : Network).Restored net) {n k : Nat} {w : List Int} :
    net.Path least greatest n w k ↔ laid.Path least greatest n w k := by
  have stop (n : Nat) : net.isStop n = laid.isStop n := restored.isRuleStop n
  have owner (n : Nat) : (net.state n).rule = (laid.state n).rule := restored.rule n
  exact path_iff_of_same stop owner fun n inner => (restored.out n inner).1

end Network

namespace Grammar

/-- The least symbol of the alphabet: characters are counted from 0, token types from 1. -/
def leastSymbol (g : Grammar) : Int := if g.isLexer then minChar else minTokenType

/-- The greatest symbol of the alphabet: the greatest token type that a parser knows. -/
def greatestSymbol (g : Grammar) : Int := if g.isLexer then maxChar else g.maxTokenType

open Layout Network in
/-- Whoever accepts the words of a grammar derives the network that was laid out, and marks it. -/
theorem compile_derived {g : Grammar} {compiled : CompiledGrammar} {net : Network} {verify : Bool}
    (assembled : g.Assembled) (representable : g.Representable) (run : g.compile = .ok compiled)
    (decoded : decode compiled.words verify = .ok net) :
    ∃ (laid derived : Network) (actions : Array LexerAction), g.layOut = .ok laid ∧ laid.LaidOut g ∧
      Outfitted g laid ∧ laid.derive = .ok derived ∧ Derived laid derived ∧
      net = Decode.mark { derived with actions } ∧ ({ laid with actions } : Network).Restored net := by
  obtain ⟨known, base, -, -, layout, -, encoded⟩ := compile_steps run
  have laid := layOut_laidOut assembled.moded layout
  obtain ⟨few, smallRules⟩ := smallRules laid encoded
  have outfitted := layOut_outfitted assembled.moded representable smallRules layout
  have refreshed : base.Refreshed := by
    obtain ⟨_, _, filled, _, _, _, -, -, -, rfl⟩ := layOut_run layout
    exact refreshed_map filled
  obtain ⟨derived, derives, isDerived⟩ := derive_run laid outfitted
  obtain ⟨actions, rfl⟩ := of_decode_encode (restorable laid outfitted encoded few) encoded derives decoded
  exact ⟨base, derived, actions, layout, laid, outfitted, derives, isDerived, rfl,
    isDerived.restored refreshed actions⟩

open Network in
/-- Whoever accepts the words of a grammar reads the network that was laid out. -/
theorem compile_restored {g : Grammar} {compiled : CompiledGrammar} {net : Network} {verify : Bool}
    (assembled : g.Assembled) (representable : g.Representable) (run : g.compile = .ok compiled)
    (decoded : decode compiled.words verify = .ok net) :
    ∃ laid : Network, laid.LaidOut g ∧ ∃ actions, ({ laid with actions } : Network).Restored net := by
  obtain ⟨laid, -, actions, -, laidOut, -, -, -, -, restored⟩ :=
    compile_derived assembled representable run decoded
  exact ⟨laid, laidOut, actions, restored⟩

open Network in
/-- The network that is read from the words of a grammar keeps the languages of its rules: the words that
the paths from the start of a rule to its stop state spell are those that the body of the rule denotes. -/
theorem compile_language {g : Grammar} {compiled : CompiledGrammar} {net : Network} {verify : Bool}
    (assembled : g.Assembled) (representable : g.Representable) (run : g.compile = .ok compiled)
    (decoded : decode compiled.words verify = .ok net) {i : Nat} {r : RuleDef}
    (found : g.rules[i]? = some r) : ∃ stop, net.ruleStop? i = some stop ∧ ∀ w,
      net.Path net.leastSymbol net.greatestSymbol (net.ruleStart i) w stop ↔
        w ∈ g.language g.leastSymbol g.greatestSymbol r.body := by
  obtain ⟨base, laid, actions, restored⟩ := compile_restored assembled representable run decoded
  have inside := (List.getElem?_eq_some_iff.1 found).1
  have lexer : net.isLexer = g.isLexer := by
    rw [Network.isLexer, restored.kind, Grammar.isLexer]
    exact congrArg (· == GrammarKind.lexer) laid.kind
  have least : net.leastSymbol = g.leastSymbol := by
    rw [Network.leastSymbol, Grammar.leastSymbol, lexer]
  have greatest : net.greatestSymbol = g.greatestSymbol := by
    rw [Network.greatestSymbol, Grammar.greatestSymbol, lexer, restored.maxTokenType]
    exact congrArg (if g.isLexer then maxChar else ·) laid.maxTokenType
  have start : net.ruleStart i = 2 * i := by
    rw [ruleStart, restored.ruleStarts]
    exact laid.ruleStart_eq inside
  refine ⟨2 * i + 1, ?_, fun w => ?_⟩
  · rw [ruleStop?, restored.ruleStops]
    change (base.ruleStops[i]?).join = some (2 * i + 1)
    rw [laid.ruleStops]
    simp [inside]
  · rw [least, greatest, start, restored.path_iff, laid.path_iff found w]

end Grammar

/-- A group in brackets, with groups inside. -/
def bracketGroup : Element := .seq [.literal "(", .repeated .star true (.rule "group" 0), .literal ")"]

/-- A parser of nested brackets. -/
def bracketParser : Grammar :=
  (Grammar.parser "Brackets" { literalNames := [none, some "'('", some "')'"] }).rule "group" bracketGroup

theorem bracketParser_language : ∃ compiled net stop, bracketParser.compile = .ok compiled ∧
    Network.decode compiled.words true = .ok net ∧ net.ruleStop? 0 = some stop ∧
    (∀ w, net.Path net.leastSymbol net.greatestSymbol (net.ruleStart 0) w stop ↔
      w ∈ bracketParser.language bracketParser.leastSymbol bracketParser.greatestSymbol bracketGroup) ∧
    net.Path net.leastSymbol net.greatestSymbol (net.ruleStart 0) [1, 1, 2, 2] stop := by
  have representable : bracketParser.Representable := by
    intro r member e leaf
    obtain rfl := List.mem_singleton.1 member
    simp only [bracketGroup, Element.leaves, Element.leavesAll, List.append_nil, List.cons_append,
      List.nil_append, List.mem_cons, List.not_mem_nil, or_false] at leaf
    rcases leaf with rfl | rfl | rfl <;> trivial
  have nested (least greatest : Int) : [1, 1, 2, 2] ∈ bracketParser.language least greatest bracketGroup := by
    have known : bracketParser.ruleIndex "group" = .ok 0 := by decide
    have opened : bracketParser.Denotes least greatest (.literal "(") [1] := .literal rfl (by decide)
    have closed : bracketParser.Denotes least greatest (.seq [.literal ")"]) [2] :=
      .seq (.literal rfl (by decide)) .done
    have inner : bracketParser.Denotes least greatest (.rule "group" 0) [1, 2] :=
      .rule known rfl (.seq opened (.seq .finish closed))
    exact .seq opened (.seq (.again inner .finish) closed)
  have loads : (bracketParser.compile.toOption.bind fun c =>
      (Network.decode c.words true).toOption).isSome = true := by decide +kernel
  cases run : bracketParser.compile with
  | error cause =>
    rw [run] at loads
    cases loads
  | ok compiled =>
    cases read : Network.decode compiled.words true with
    | error cause =>
      rw [run] at loads
      simp [Except.toOption, read] at loads
    | ok net =>
      have assembled : bracketParser.Assembled := .rule "group" _ (.parser "Brackets" _)
      have found : bracketParser.rules[0]? = some { name := "group", body := bracketGroup } := rfl
      obtain ⟨stop, isStop, spelled⟩ := Grammar.compile_language assembled representable run read found
      exact ⟨compiled, net, stop, rfl, read, isStop, spelled, (spelled _).2 (nested _ _)⟩

end AdaptiveLL
