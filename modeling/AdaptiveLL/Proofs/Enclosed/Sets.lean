import AdaptiveLL.Proofs.Enclosed.Ends
import AdaptiveLL.Proofs.Enclosed.States
import AdaptiveLL.Proofs.Lexer.Ordered
import AdaptiveLL.Proofs.Text.Reading

/-!
# The sets of a rule that encloses

In a mode with one rule that encloses, a match stands in the opening text, between the two texts, behind the
closing text, or nowhere (`Place`). Each place has its set: between the texts it holds one configuration for
every beginning of the closing text with which what was read ends, the longest first, and last the one that
takes any symbol. A symbol leads from the set of a place to that of the next place (`reaches_next`). When
the longest beginning is complete, all the others are dropped.
-/

set_option autoImplicit false

namespace AdaptiveLL

open Network

/-- A configuration of a rule that was not called, without guards and actions. -/
def Config.lone (n : Nat) (late : Bool) : Config := { state := n, alt := 1, nonGreedy := late }

theorem Config.lone_valid (n : Nat) (late : Bool) : (Config.lone n late).alt ≠ invalidAlt := Nat.one_ne_zero

namespace Lexer

/-! ## Places -/

/-- Where a match stands in a rule that encloses. -/
inductive Place where
  /-- So many characters of the opening text are read, and there are more. -/
  | opening (count : Nat)
  /-- The opening text is read, and behind it this. -/
  | between (read : List Char)
  /-- The closing text is read. -/
  | closed
  /-- No way goes on. -/
  | lost
  deriving DecidableEq

namespace Place

/-- So many characters of the opening text are read. -/
def opened (opening : List Char) (count : Nat) : Place :=
  if count < opening.length then .opening count else .between []

/-- Where a character leads, or the end of the input. -/
def next (opening closing : List Char) : Place → Option Char → Place
  | .opening count, some c => if opening[count]? = some c then opened opening (count + 1) else .lost
  | .between read, some c => if closing <:+ read ++ [c] then .closed else .between (read ++ [c])
  | _, _ => .lost

/-- The configurations between the texts: those in the closing text, then the one that takes any symbol. -/
def betweenConfigs (closing : List Char) (n : Nat) (read : List Char) : List Config :=
  (partialEnds closing read).map (fun j => .lone (n + 8 + 2 * j + 1) true) ++ [.lone (n + 1) true]

/-- The configurations of a place, in a rule whose opening text lies from `lo` to `n`. -/
def Holds (r : Nat) (opening closing : List Char) (lo n : Nat) : Place → List Config → Prop
  | .opening count, cs => count < opening.length ∧ ∃ late, cs = [.lone (lo + 2 * count + 1) late]
  | .between read, cs => cs = betweenConfigs closing n read
  | .closed, cs => cs = [.lone (2 * r + 1) true]
  | .lost, cs => cs = []

end Place

open Place

variable {η : Type} {mode r lo n : Nat} {opening closing : List Char} {place : Place} {cs : List Config}

theorem apart_of_states (descending : (cs.map (·.state)).Pairwise (· > ·)) :
    cs.Pairwise fun a b => a.same b = false := by
  rw [List.pairwise_map] at descending
  refine descending.imp fun {a b} later => ?_
  apply beq_eq_false_iff_ne.2
  intro same
  have states : a.state = b.state := congrArg (·.state) same
  omega

theorem Place.Holds.lone (holds : place.Holds r opening closing lo n cs) :
    ∀ c ∈ cs, ∃ s late, c = .lone s late := by
  intro c member
  cases place with
  | opening count =>
    obtain ⟨-, late, rfl⟩ := holds
    exact ⟨_, _, List.mem_singleton.1 member⟩
  | between read =>
    obtain rfl := holds
    rcases List.mem_append.1 member with inClosing | last
    · obtain ⟨j, -, rfl⟩ := List.mem_map.1 inClosing
      exact ⟨_, _, rfl⟩
    · exact ⟨_, _, List.mem_singleton.1 last⟩
  | closed =>
    obtain rfl := holds
    exact ⟨_, _, List.mem_singleton.1 member⟩
  | lost =>
    obtain rfl := holds
    cases member

theorem Place.Holds.valid (holds : place.Holds r opening closing lo n cs) : ∀ c ∈ cs, c.alt ≠ invalidAlt := by
  intro c member
  obtain ⟨s, late, rfl⟩ := holds.lone c member
  exact Config.lone_valid s late

/-- No two configurations of a place are the same. -/
theorem Place.Holds.apart (holds : place.Holds r opening closing lo n cs) :
    cs.Pairwise fun a b => a.same b = false := by
  apply apart_of_states
  cases place with
  | opening count =>
    obtain ⟨-, late, rfl⟩ := holds
    exact List.pairwise_singleton _ _
  | between read =>
    obtain rfl := holds
    rw [betweenConfigs, List.map_append, List.map_map, List.pairwise_append]
    refine ⟨?_, List.pairwise_singleton _ _, ?_⟩
    · rw [List.pairwise_map]
      refine (partialEnds_sorted closing read).imp fun {i j} later => ?_
      simp only [Function.comp, Config.lone]
      omega
    · intro s member s' last
      obtain ⟨j, -, rfl⟩ := List.mem_map.1 member
      obtain rfl := List.mem_singleton.1 last
      simp only [Function.comp, Config.lone]
      omega
  | closed =>
    obtain rfl := holds
    exact List.pairwise_singleton _ _
  | lost =>
    obtain rfl := holds
    exact List.Pairwise.nil

/-! ## Closures -/

theorem crosses_atomLabel (v : Int) : crosses false (Layout.atomLabel v) = false := by
  unfold Layout.atomLabel
  split <;> rfl

section

variable {env : ClosureEnv η} (delimits : env.net.Delimits mode r opening closing lo n)
include delimits

theorem isNonGreedy_entry : isNonGreedy env.net (n + 5) = true := by
  rw [isNonGreedy, delimits.prefers.decides, delimits.prefers.marked]
  rfl

/-- A state of the rule with one way that asks for nothing passes its configuration on. -/
theorem gives_pass {s m : Nat} {late done reached : Bool} (low : lo ≤ s) (high : s ≤ n + 8 + 2 * closing.length)
    (out : env.net.out s = [.epsilon m])
    (gives : Gives env (.lone m (late || isNonGreedy env.net m)) done cs reached) :
    Gives env (.lone s late) done cs reached := by
  have passes : (env.net.state s).epsilonOnly = true := by
    rw [delimits.refreshed, out]
    rfl
  rw [← List.append_nil cs]
  exact gives_free (delimits.inner s low high) passes out (.cons gives (.nil reached))

/-- A state of the rule whose only way takes a symbol keeps its configuration. -/
theorem gives_wait {s m : Nat} {label : Label} {late : Bool} (low : lo ≤ s)
    (high : s ≤ n + 8 + 2 * closing.length) (out : env.net.out s = [⟨m, label⟩])
    (consumes : label.isEpsilon = false) (stays : crosses env.atEof label = false) :
    Gives env (.lone s late) false [.lone s late] false := by
  have waits : (env.net.state s).epsilonOnly = false := by
    rw [delimits.refreshed, out]
    simp [consumes]
  exact gives_waiting (delimits.inner s low high) waits out stays

/-- Behind the closing text the rule ends. -/
theorem gives_end : Gives env (.lone (n + 8 + 2 * closing.length) true) false [.lone (2 * r + 1) true] true := by
  have low := delimits.opens.right_eq
  apply gives_pass delimits (by omega) (Nat.le_refl _) delimits.stops
  exact gives_stop delimits.stop rfl

variable (looking : env.atEof = false)
include looking

theorem gives_closing {j : Nat} (inside : j < closing.length) :
    Gives env (.lone (n + 8 + 2 * j) true) false [.lone (n + 8 + 2 * j + 1) true] false := by
  obtain ⟨passes, waits⟩ := delimits.closes.at_index (List.getElem?_eq_getElem inside)
  have low := delimits.opens.right_eq
  apply gives_pass delimits (by omega) (by omega) passes
  apply gives_wait delimits (by omega) (by omega) waits (Layout.atomLabel_consumes _)
  rw [looking]
  exact crosses_atomLabel _

variable (proper : closing ≠ [])
include proper

/-- From the entry of the loop on the closing text comes first, then any symbol. -/
theorem gives_entry : Gives env (.lone (n + 5) true) false (betweenConfigs closing n []) false := by
  have low := delimits.opens.right_eq
  have positive := List.length_pos_iff.2 proper
  have closes : Gives env (.lone (n + 7) true) false [.lone (n + 9) true] false :=
    gives_pass delimits (by omega) (by omega) delimits.leaves (gives_closing delimits looking positive)
  have takes : Gives env (.lone (n + 3) true) false [.lone (n + 1) true] false := by
    apply gives_pass delimits (by omega) (by omega) delimits.takes
    exact gives_wait delimits (by omega) (by omega) delimits.any rfl rfl
  have passes : (env.net.state (n + 5)).epsilonOnly = true := by
    rw [delimits.refreshed, delimits.decides]
    rfl
  have each : GivesEach env (.lone (n + 5) true) false [.epsilon (n + 7), .epsilon (n + 3)] _ false :=
    .cons closes (.cons takes (.nil false))
  rw [betweenConfigs, partialEnds_nil proper]
  exact gives_free (delimits.inner (n + 5) (by omega) (by omega)) passes delimits.decides each

/-- Behind any symbol the loop is entered again. -/
theorem gives_again : Gives env (.lone (n + 2) true) false (betweenConfigs closing n []) false := by
  have low := delimits.opens.right_eq
  apply gives_pass delimits (by omega) (by omega) delimits.taken
  apply gives_pass delimits (by omega) (by omega) delimits.ends
  apply gives_pass delimits (by omega) (by omega) delimits.returns
  exact gives_entry delimits looking proper

theorem gives_opened {count : Nat} (le : count ≤ opening.length) (late : Bool) :
    ∃ cs, (opened opening count).Holds r opening closing lo n cs ∧
      Gives env (.lone (lo + 2 * count) late) false cs false := by
  have low := delimits.opens.right_eq
  unfold opened
  split
  · rename_i inside
    obtain ⟨passes, waits⟩ := delimits.opens.at_index (List.getElem?_eq_getElem inside)
    refine ⟨[.lone (lo + 2 * count + 1) (late || isNonGreedy env.net (lo + 2 * count + 1))],
      ⟨inside, _, rfl⟩, gives_pass delimits (by omega) (by omega) passes ?_⟩
    apply gives_wait delimits (by omega) (by omega) waits (Layout.atomLabel_consumes _)
    rw [looking]
    exact crosses_atomLabel _
  · obtain rfl : count = opening.length := by omega
    rw [← low]
    refine ⟨_, rfl, gives_pass delimits (by omega) (by omega) delimits.enters ?_⟩
    rw [isNonGreedy_entry delimits, Bool.or_true]
    exact gives_entry delimits looking proper

/-- A match begins at the beginning of the opening text. -/
theorem gives_start (late : Bool) : ∃ cs, (opened opening 0).Holds r opening closing lo n cs ∧
    Gives env (.lone (2 * r) late) false cs false := by
  have passes : (env.net.state (2 * r)).epsilonOnly = true := by
    rw [delimits.refreshed, delimits.starts]
    rfl
  obtain ⟨cs, holds, gives⟩ :=
    gives_opened delimits looking proper (Nat.zero_le _) (late || isNonGreedy env.net lo)
  have each : GivesEach env (.lone (2 * r) late) false [.epsilon lo] _ false := .cons gives (.nil false)
  rw [List.append_nil] at each
  exact ⟨cs, holds, gives_free delimits.begins passes delimits.starts each⟩

end

/-! ## Steps -/

/-- The symbol of the next character, or of the end of the input. -/
def symbolOf (next : Option Char) : Int := (next.map fun c => (c.toNat : Int)).getD endOfInput

theorem accepts_char {c d : Char} :
    (Layout.atomLabel d.toNat).accepts (symbolOf (some c)) minChar maxChar = true ↔ d = c := by
  rw [Layout.accepts_atomLabel]
  change (c.toNat : Int) = d.toNat ↔ _
  rw [Int.natCast_inj, Char.toNat_inj, eq_comm]

theorem refuses_char {c : Char} {d? : Option Char} (other : some c ≠ d?) :
    (Layout.atomLabel c.toNat).accepts (symbolOf d?) minChar maxChar = false := by
  apply Bool.eq_false_of_not_eq_true
  intro accepts
  cases d? with
  | some d => exact other (congrArg some (accepts_char.1 accepts))
  | none =>
    have same := Layout.accepts_atomLabel.1 accepts
    cases same

theorem accepts_any (c : Char) : Label.wildcard.accepts (symbolOf (some c)) minChar maxChar = true := by
  have high := Layout.char_lt c
  have inside : minChar ≤ (c.toNat : Int) ∧ (c.toNat : Int) ≤ maxChar := by
    unfold minChar maxChar
    omega
  exact decide_eq_true inside

section

variable {env : ClosureEnv η} {offset j : Nat} {c : Char} {d? : Option Char}
  (delimits : env.net.Delimits mode r opening closing lo n)
include delimits

theorem refuses_closing (inside : j < closing.length) (other : closing[j]? ≠ d?) :
    ∀ t ∈ env.net.out (n + 8 + 2 * j + 1), t.label.accepts (symbolOf d?) minChar maxChar = false := by
  rw [List.getElem?_eq_getElem inside] at other
  rw [(delimits.closes.at_index (List.getElem?_eq_getElem inside)).2]
  intro t member
  obtain rfl := List.mem_singleton.1 member
  exact refuses_char other

theorem refuses_opening (inside : j < opening.length) (other : opening[j]? ≠ d?) :
    ∀ t ∈ env.net.out (lo + 2 * j + 1), t.label.accepts (symbolOf d?) minChar maxChar = false := by
  rw [List.getElem?_eq_getElem inside] at other
  rw [(delimits.opens.at_index (List.getElem?_eq_getElem inside)).2]
  intro t member
  obtain rfl := List.mem_singleton.1 member
  exact refuses_char other

theorem refuses_closed (symbol : Int) :
    ∀ t ∈ env.net.out (2 * r + 1), t.label.accepts symbol minChar maxChar = false := by
  intro t member
  obtain ⟨k, free⟩ := delimits.returnsOnly t member
  exact refuses_of_free free

/-- At the end of the input no configuration goes on. -/
theorem feedsAll_end (holds : place.Holds r opening closing lo n cs) :
    FeedsAll env (symbolOf none) offset invalidAlt cs [] := by
  apply feedsAll_refused holds.valid
  intro c member
  cases place with
  | opening count =>
    obtain ⟨inside, late, rfl⟩ := holds
    obtain rfl := List.mem_singleton.1 member
    exact refuses_opening delimits inside (by simp [inside])
  | between read =>
    obtain rfl := holds
    rcases List.mem_append.1 member with inClosing | last
    · obtain ⟨j, among, rfl⟩ := List.mem_map.1 inClosing
      have inside := (mem_partialEnds.1 among).1
      exact refuses_closing delimits inside (by simp [inside])
    · obtain rfl := List.mem_singleton.1 last
      intro t out
      rw [Config.lone, delimits.any, List.mem_singleton] at out
      subst out
      rfl
  | closed =>
    obtain rfl := holds
    obtain rfl := List.mem_singleton.1 member
    exact refuses_closed delimits _
  | lost =>
    obtain rfl := holds
    cases member

theorem feeds_last (isLast : j + 1 = closing.length) (goes : closing[j]? = some c) :
    Feeds env (symbolOf (some c)) offset (.lone (n + 8 + 2 * j + 1) true) [.lone (2 * r + 1) true] true := by
  apply feeds_along (delimits.closes.at_index goes).2 (accepts_char.2 rfl)
  rw [isLast]
  exact gives_end delimits

/-- When the closing text is complete, the rule ends, and everything else is dropped. -/
theorem feedsAll_complete {read : List Char} (proper : closing ≠ []) (complete : closing <:+ read ++ [c]) :
    FeedsAll env (symbolOf (some c)) offset invalidAlt (betweenConfigs closing n read)
      [.lone (2 * r + 1) true] := by
  obtain ⟨shorter, ends, goes⟩ := partialEnds_of_complete proper complete
  have isLast : closing.length - 1 + 1 = closing.length := by
    have := List.length_pos_iff.2 proper
    omega
  rw [betweenConfigs, ends]
  apply feedsAll_cons (Config.lone_valid _ _) (feeds_last delimits isLast goes)
  apply feedsAll_dropped
  intro c member
  rcases List.mem_append.1 member with early | last
  · obtain ⟨j, -, rfl⟩ := List.mem_map.1 early
    exact ⟨rfl, rfl⟩
  · obtain rfl := List.mem_singleton.1 last
    exact ⟨rfl, rfl⟩

variable (looking : env.atEof = false)
include looking

theorem feeds_closing (inside : j + 1 < closing.length) (goes : closing[j]? = some c) :
    Feeds env (symbolOf (some c)) offset (.lone (n + 8 + 2 * j + 1) true)
      [.lone (n + 8 + 2 * (j + 1) + 1) true] false :=
  feeds_along (delimits.closes.at_index goes).2 (accepts_char.2 rfl) (gives_closing delimits looking inside)

/-- The configurations in the closing text that go on with the character do so, in their order. -/
theorem feedsAll_closing {ps : List Nat} {later : List Config} (inside : ∀ j ∈ ps, j < closing.length)
    (incomplete : ∀ j ∈ ps, closing[j]? = some c → j + 1 < closing.length)
    (rest : FeedsAll env (symbolOf (some c)) offset invalidAlt cs later) :
    FeedsAll env (symbolOf (some c)) offset invalidAlt (ps.map (fun j => .lone (n + 8 + 2 * j + 1) true) ++ cs)
      (((ps.filter fun j => closing[j]? = some c).map (· + 1)).map (fun j => .lone (n + 8 + 2 * j + 1) true) ++
        later) := by
  induction ps with
  | nil => exact rest
  | cons j ps ih =>
    have ih := ih (fun i member => inside i (by simp [member])) fun i member => incomplete i (by simp [member])
    have valid := Config.lone_valid (n + 8 + 2 * j + 1) true
    by_cases goes : closing[j]? = some c
    · have step := incomplete j (by simp) goes
      have all := feedsAll_goes valid (feeds_closing delimits looking step goes) ih
      rw [List.filter_cons_of_pos (by simpa using goes)]
      exact all
    · have refuses := refuses_closing delimits (inside j (by simp)) goes
      have all := feedsAll_goes valid (feeds_nothing refuses) ih
      rw [List.filter_cons_of_neg (by simpa using goes)]
      exact all

variable (proper : closing ≠ [])
include proper

theorem feeds_any : Feeds env (symbolOf (some c)) offset (.lone (n + 1) true) (betweenConfigs closing n []) false :=
  feeds_along delimits.any (accepts_any c) (gives_again delimits looking proper)

/-- As long as the closing text is not complete, all its beginnings are kept. -/
theorem feedsAll_between {read : List Char} (incomplete : ¬ closing <:+ read ++ [c]) :
    FeedsAll env (symbolOf (some c)) offset invalidAlt (betweenConfigs closing n read)
      (betweenConfigs closing n (read ++ [c])) := by
  have unfinished : ∀ j ∈ partialEnds closing read, closing[j]? = some c → j + 1 < closing.length := by
    intro j member goes
    obtain ⟨inside, ends⟩ := mem_partialEnds.1 member
    by_contra last
    apply incomplete
    have whole : closing.take (j + 1) = closing := List.take_of_length_le (by omega)
    rw [← whole, take_succ_suffix_snoc inside]
    exact ⟨ends, goes⟩
  have any : FeedsAll env (symbolOf (some c)) offset invalidAlt [.lone (n + 1) true] _ :=
    feedsAll_goes (Config.lone_valid _ _) (feeds_any delimits looking proper) feedsAll_nil
  have all := feedsAll_closing delimits looking (fun j member => (mem_partialEnds.1 member).1) unfinished any
  rw [betweenConfigs, betweenConfigs, partialEnds_snoc proper incomplete, List.map_append, List.append_assoc]
  rwa [List.append_nil, betweenConfigs, partialEnds_nil proper] at all

/-- A character leads from the configurations of a place to those of the next. -/
theorem feedsAll_char (holds : place.Holds r opening closing lo n cs) :
    ∃ cs', (place.next opening closing (some c)).Holds r opening closing lo n cs' ∧
      FeedsAll env (symbolOf (some c)) offset invalidAlt cs cs' := by
  have valid := holds.valid
  cases place with
  | opening count =>
    obtain ⟨inside, late, rfl⟩ := holds
    by_cases goes : opening[count]? = some c
    · obtain ⟨cs, holds, gives⟩ := gives_opened delimits looking proper inside
        (late || isNonGreedy env.net (lo + 2 * (count + 1)))
      have feeds : Feeds env (symbolOf (some c)) offset (.lone (lo + 2 * count + 1) late) cs false :=
        feeds_along (delimits.opens.at_index goes).2 (accepts_char.2 rfl) gives
      refine ⟨cs, by simpa only [Place.next, if_pos goes] using holds, ?_⟩
      rw [← List.append_nil cs]
      exact feedsAll_goes (Config.lone_valid _ _) feeds feedsAll_nil
    · refine ⟨[], by simp only [Place.next, if_neg goes, Place.Holds], feedsAll_refused valid fun d member => ?_⟩
      obtain rfl := List.mem_singleton.1 member
      exact refuses_opening delimits inside goes
  | between read =>
    obtain rfl := holds
    by_cases complete : closing <:+ read ++ [c]
    · refine ⟨[.lone (2 * r + 1) true], ?_, ?_⟩
      · simp only [Place.next, if_pos complete, Place.Holds]
      · exact feedsAll_complete delimits proper complete
    · refine ⟨betweenConfigs closing n (read ++ [c]), ?_, ?_⟩
      · simp only [Place.next, if_neg complete, Place.Holds]
      · exact feedsAll_between delimits looking proper complete
  | closed =>
    obtain rfl := holds
    refine ⟨[], rfl, feedsAll_refused valid fun d member => ?_⟩
    obtain rfl := List.mem_singleton.1 member
    exact refuses_closed delimits _
  | lost =>
    obtain rfl := holds
    exact ⟨[], rfl, feedsAll_nil⟩

end

/-! ## Sets -/

section

variable {env : MatchEnv η} {v : Sight η} {s configs : ConfigSet} {h : η}
  (delimits : env.net.Delimits env.mode r opening closing lo n) (proper : closing ≠ [])
include delimits proper

/-- A match begins before the opening text. -/
theorem starts_opened (v : Sight η) : ∃ s, Starts env v s v.hooks ∧
    (opened opening 0).Holds r opening closing lo n s.configs.toList := by
  have delimits' : (startEnv env v.input).net.Delimits env.mode r opening closing lo n := delimits
  obtain ⟨cs, holds, gives⟩ := gives_start delimits' rfl proper (isNonGreedy env.net (2 * r))
  exact ⟨_, gives.starts delimits.entry, by rwa [ConfigSet.ofLexer_insertAll holds.apart]⟩

/-- The next symbol leads from the set of a place to that of the next place. -/
theorem reaches_next (holds : place.Holds r opening closing lo n configs.configs.toList) :
    ∃ s, Reaches env v configs s v.hooks ∧
      (place.next opening closing v.input.data[v.input.pos]?).Holds r opening closing lo n s.configs.toList := by
  have symbol : v.input.la 1 = symbolOf v.input.data[v.input.pos]? := by
    rw [CharStream.la_one, CharStream.symbolAt_natCast]
    rfl
  have delimits' : (reachEnv env v.matcher (v.input.la 1)).net.Delimits env.mode r opening closing lo n := delimits
  obtain ⟨cs, holds', feeds⟩ : ∃ cs,
      (place.next opening closing v.input.data[v.input.pos]?).Holds r opening closing lo n cs ∧
        FeedsAll (reachEnv env v.matcher (v.input.la 1)) (symbolOf v.input.data[v.input.pos]?)
          (v.input.pos - v.startIndex) invalidAlt configs.configs.toList cs := by
    cases next : v.input.data[v.input.pos]? with
    | some c =>
      have looking : (reachEnv env v.matcher (v.input.la 1)).atEof = false := by
        rw [reachEnv, symbol, next]
        exact beq_eq_false_iff_ne.2 (by simp [symbolOf, endOfInput])
      exact feedsAll_char delimits' looking proper holds
    | none => exact ⟨[], by cases place <;> rfl, feedsAll_end delimits' holds⟩
  rw [← symbol] at feeds
  exact ⟨_, feeds.reaches, by rwa [ConfigSet.ofLexer_insertAll holds'.apart]⟩

end

end Lexer

end AdaptiveLL
