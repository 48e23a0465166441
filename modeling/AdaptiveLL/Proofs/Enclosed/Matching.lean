import AdaptiveLL.Proofs.Enclosed.Sets
import AdaptiveLL.Proofs.Lexer.Placement
import AdaptiveLL.Proofs.Lexer.Transparency

/-!
# Tokens that end at the first closing text

A rule of an opening text, any symbols but as few as possible and a closing text matches up to the first place
behind the opening text at which the closing text occurs, and gives an error if there is none
(`matchToken_encloses`). The text may overlap itself, and the cache may be one that other matches have left
behind.

A match walks from place to place along the characters (`Walks`), and its simulation walks along
(`Walks.scans`). So where it ends is a question about two lists of characters.
-/

set_option autoImplicit false

namespace AdaptiveLL

open Network

namespace Lexer

open Place

variable {η : Type} {r lo n : Nat} {opening closing : List Char} {place next : Place} {u w read : List Char}

/-! ## Walks along a text -/

/-- The match is within the rule. -/
def Place.isOpen : Place → Bool
  | .opening _ | .between _ => true
  | .closed | .lost => false

/-- The characters lead from place to place within the rule. -/
inductive Walks (opening closing : List Char) : Place → List Char → Place → Prop
  | stays (place : Place) : Walks opening closing place [] place
  | goes {place next : Place} {c : Char} {u : List Char}
      (stillOpen : (place.next opening closing (some c)).isOpen = true)
      (rest : Walks opening closing (place.next opening closing (some c)) u next) :
      Walks opening closing place (c :: u) next

theorem Walks.trans {between : Place} (first : Walks opening closing place u between)
    (second : Walks opening closing between w next) : Walks opening closing place (u ++ w) next := by
  induction first with
  | stays place => exact second
  | goes stillOpen rest ih => exact .goes stillOpen (ih second)

theorem opened_isOpen (opening : List Char) (count : Nat) : (opened opening count).isOpen = true := by
  unfold opened
  split <;> rfl

/-- The opening text leads between the texts. -/
theorem walks_opening {count : Nat} (le : count ≤ opening.length) :
    Walks opening closing (opened opening count) (opening.drop count) (.between []) := by
  obtain ⟨left, length⟩ : ∃ left, opening.length = count + left := ⟨opening.length - count, by omega⟩
  induction left generalizing count with
  | zero =>
    rw [List.drop_of_length_le (by omega), opened, if_neg (by omega)]
    exact .stays _
  | succ left ih =>
    have inside : count < opening.length := by omega
    have step : (opened opening count).next opening closing (some opening[count]) = opened opening (count + 1) := by
      rw [opened, if_pos inside, Place.next, if_pos (List.getElem?_eq_getElem inside)]
    rw [List.drop_eq_getElem_cons inside]
    apply Walks.goes
    · rw [step]
      exact opened_isOpen opening _
    · rw [step]
      exact ih (by omega) (by omega)

/-- As long as what was read does not end with the closing text, the match stays between the texts. -/
theorem walks_between (incomplete : ∀ i ≤ u.length, 0 < i → ¬ closing <:+ read ++ u.take i) :
    Walks opening closing (.between read) u (.between (read ++ u)) := by
  induction u generalizing read with
  | nil =>
    rw [List.append_nil]
    exact .stays _
  | cons c u ih =>
    have first : ¬ closing <:+ read ++ [c] := incomplete 1 (by simp) Nat.one_pos
    have step : (Place.between read).next opening closing (some c) = .between (read ++ [c]) := by
      rw [Place.next, if_neg first]
    have unread : ∀ i ≤ u.length, 0 < i → ¬ closing <:+ (read ++ [c]) ++ u.take i := by
      intro i le positive
      have none := incomplete (i + 1) (by simpa using le) (by omega)
      rwa [List.take_succ_cons, List.append_cons] at none
    have later := ih unread
    rw [List.append_assoc] at later
    apply Walks.goes
    · rw [step]
      rfl
    · rw [step]
      exact later

/-! ## Simulations -/

/-- The characters that are still to be read. -/
def Sight.ahead (v : Sight η) : List Char := v.input.data.toList.drop v.input.pos

section

variable {v : Sight η} {c : Char}

theorem Sight.length_ahead (v : Sight η) : v.ahead.length = v.input.size - v.input.pos := by
  rw [ahead, List.length_drop, Array.length_toList]
  rfl

theorem Sight.next_ahead (v : Sight η) : v.input.data[v.input.pos]? = v.ahead.head? := by
  rw [ahead, List.head?_drop, Array.getElem?_toList]

theorem Sight.la_ahead (v : Sight η) : v.input.la 1 = symbolOf v.ahead.head? := by
  rw [CharStream.la_one, CharStream.symbolAt_natCast, next_ahead]
  rfl

theorem Sight.la_ne_eof (ahead : v.ahead = c :: w) : v.input.la 1 ≠ endOfInput := by
  rw [la_ahead, ahead]
  simp [symbolOf, endOfInput]

theorem Sight.moved_ahead (ahead : v.ahead = c :: w) :
    v.moved.input = { v.input with pos := v.input.pos + 1 } ∧ v.moved.ahead = w := by
  have inside : v.input.pos < v.input.size :=
    Nat.lt_of_not_le fun atEnd => la_ne_eof ahead (CharStream.la_eq_eof_iff.2 atEnd)
  have moved : v.moved.input = { v.input with pos := v.input.pos + 1 } := by
    rw [input_moved, if_pos (la_ne_eof ahead), CharStream.consume, if_pos inside]
  refine ⟨moved, ?_⟩
  rw [Sight.ahead, moved, ← List.drop_drop, ← Sight.ahead, ahead]
  rfl

end

section

variable {env : MatchEnv η} {v : Sight η} {s configs : ConfigSet}
  (delimits : env.net.Delimits env.mode r opening closing lo n)
include delimits

/-- Within the rule nothing is accepted. -/
theorem stateOf_open (holds : place.Holds r opening closing lo n s.configs.toList)
    (isOpen : place.isOpen = true) : (stateOf env.net s).accepts = false ∧ s.isEmpty = false := by
  have low := delimits.opens.right_eq
  have inner : ∀ c ∈ s.configs.toList, (env.net.state c.state).kind.isRuleStop = false := by
    cases place with
    | opening count =>
      obtain ⟨inside, late, same⟩ := holds
      rw [same]
      intro c member
      obtain rfl := List.mem_singleton.1 member
      exact delimits.inner (lo + 2 * count + 1) (by omega) (by omega)
    | between read =>
      rw [show s.configs.toList = betweenConfigs closing n read from holds]
      intro c member
      rcases List.mem_append.1 member with inClosing | last
      · obtain ⟨j, among, rfl⟩ := List.mem_map.1 inClosing
        have inside := (mem_partialEnds.1 among).1
        exact delimits.inner (n + 8 + 2 * j + 1) (by omega) (by omega)
      · obtain rfl := List.mem_singleton.1 last
        exact delimits.inner (n + 1) (by omega) (by omega)
    | closed | lost => cases isOpen
  have some' : s.configs.toList ≠ [] := by
    cases place with
    | opening count =>
      obtain ⟨-, late, same⟩ := holds
      simp [same]
    | between read =>
      rw [show s.configs.toList = betweenConfigs closing n read from holds]
      simp [betweenConfigs]
    | closed | lost => cases isOpen
  constructor
  · have nothing : s.configs.find? (fun c => (env.net.state c.state).kind.isRuleStop) = none := by
      rw [← Array.find?_toList, List.find?_eq_none]
      intro c member
      rw [inner c member]
      exact Bool.false_ne_true
    rw [stateOf, nothing]
    rfl
  · rw [ConfigSet.isEmpty, ← Array.isEmpty_toList]
    exact List.isEmpty_eq_false_iff.2 some'

/-- Behind the closing text the rule is accepted. -/
theorem stateOf_closed (holds : Place.closed.Holds r opening closing lo n s.configs.toList) :
    (stateOf env.net s).accepts = true ∧ (stateOf env.net s).prediction = env.net.ruleTypes.getD r 0 ∧
      (stateOf env.net s).actions = [] ∧ s.isEmpty = false := by
  have same : s.configs.toList = [.lone (2 * r + 1) true] := holds
  have found : s.configs.find? (fun c => (env.net.state c.state).kind.isRuleStop) =
      some (.lone (2 * r + 1) true) := by
    rw [← Array.find?_toList, same]
    exact List.find?_cons_of_pos delimits.stop
  have owner : (env.net.state (Config.lone (2 * r + 1) true).state).rule = some r := delimits.owner
  have isState : stateOf env.net s = { DfaState.ofConfigs s DfaCache.lexerWidth with
      accepts := true, prediction := env.net.ruleTypes.getD r 0, actions := [] } := by
    rw [stateOf, found]
    simp only [owner, Option.getD_some]
    rfl
  refine ⟨by rw [isState], by rw [isState], by rw [isState], ?_⟩
  rw [ConfigSet.isEmpty, ← Array.isEmpty_toList, same]
  rfl

variable (proper : closing ≠ [])
include proper

/-- The simulation walks along: where it is after the characters, the rest decides where it ends. -/
theorem Walks.scans (walks : Walks opening closing place u next) (ahead : v.ahead = u ++ w)
    (holds : place.Holds r opening closing lo n configs.configs.toList) :
    ∃ (v' : Sight η) (s : ConfigSet), next.Holds r opening closing lo n s.configs.toList ∧ v'.ahead = w ∧
      v'.input = { v.input with pos := v.input.pos + u.length } ∧ v'.startIndex = v.startIndex ∧
      ∀ last v'' symbol last', Scans env v' s last v'' symbol last' → Scans env v configs last v'' symbol last' := by
  induction walks generalizing v configs with
  | stays place => exact ⟨v, configs, holds, ahead, rfl, rfl, fun _ _ _ _ => id⟩
  | @goes place next c u stillOpen rest ih =>
    have ahead' : v.ahead = c :: (u ++ w) := ahead
    obtain ⟨s, reaches, holds'⟩ := reaches_next delimits proper holds
    rw [Sight.next_ahead, ahead', List.head?_cons] at holds'
    obtain ⟨accepts, something⟩ := stateOf_open delimits holds' stillOpen
    obtain ⟨moved, behind⟩ := Sight.moved_ahead ahead'
    obtain ⟨v', s', holdsLater, aheadLater, input, start, scans⟩ := ih behind holds'
    refine ⟨v', s', holdsLater, aheadLater, ?_, start.trans (startIndex_moved v), ?_⟩
    · rw [input, moved, List.length_cons]
      simp only [Nat.add_assoc, Nat.add_comm 1]
    · intro last v'' symbol last' ends
      have noted : note (stateOf env.net s) (v.asked v.hooks).moved.matcher last = last := by
        rw [note, accepts]
        rfl
      apply Scans.goes reaches something (by simp [accepts])
      rw [noted]
      exact scans last v'' symbol last' ends

/-- Where no way goes on the simulation ends. -/
theorem scans_stuck (holds : place.Holds r opening closing lo n configs.configs.toList)
    (lost : place.next opening closing v.ahead.head? = .lost) (last : Option Accepted) :
    Scans env v configs last v (v.input.la 1) last := by
  obtain ⟨s, reaches, nothing⟩ := reaches_next delimits proper holds
  rw [Sight.next_ahead, lost] at nothing
  have isEmpty : s.isEmpty = true := by
    rw [ConfigSet.isEmpty, ← Array.isEmpty_toList, show s.configs.toList = [] from nothing]
    rfl
  exact .stuck reaches isEmpty

/-- The character that completes the closing text is the last one of the token. -/
theorem scans_complete {c : Char} (ahead : v.ahead = c :: w)
    (holds : (Place.between read).Holds r opening closing lo n configs.configs.toList)
    (complete : closing <:+ read ++ [c]) : ∃ (v' : Sight η) (symbol : Int) (a : Accepted),
      (∀ last, Scans env v configs last v' symbol (some a)) ∧ v'.input = { v.input with pos := v.input.pos + 1 } ∧
      a.index = v.input.pos + 1 ∧ a.type = env.net.ruleTypes.getD r 0 ∧ a.actions = [] := by
  obtain ⟨s, reaches, holds'⟩ := reaches_next delimits proper holds
  rw [Sight.next_ahead, ahead, List.head?_cons, Place.next, if_pos complete] at holds'
  obtain ⟨accepts, prediction, actions, something⟩ := stateOf_closed delimits holds'
  obtain ⟨moved, -⟩ := Sight.moved_ahead ahead
  have notEnd : ¬ ((stateOf env.net s).accepts = true ∧ v.input.la 1 = endOfInput) :=
    fun ends => Sight.la_ne_eof ahead ends.2
  let a : Accepted :=
    { index := v.moved.input.pos, line := v.moved.line, column := v.moved.column
      type := (stateOf env.net s).prediction, actions := (stateOf env.net s).actions }
  have lost : Place.closed.next opening closing v.moved.ahead.head? = .lost := by
    cases v.moved.ahead.head? <;> rfl
  refine ⟨v.moved, v.moved.input.la 1, a, ?_, moved, congrArg CharStream.pos moved, prediction, actions⟩
  intro last
  have noted : note (stateOf env.net s) (v.asked v.hooks).moved.matcher last = some a := by
    rw [note, accepts]
    rfl
  apply Scans.goes reaches something notEnd
  rw [noted]
  exact scans_stuck delimits proper holds' lost (some a)

end

/-! ## Matches -/

/-- Where no rule was complete the matcher stays, and the result is the end of the input or an error. -/
theorem conclude_none (symbol : Int) (m : Matcher η) : (conclude symbol none).run m =
    some (if symbol = endOfInput ∧ m.input.pos = m.startIndex then .ok ⟨endOfInput, []⟩
      else .error (.noViableToken m.startIndex m.input.pos), m) := by
  simp only [conclude, modifyGet, MonadStateOf.modifyGet, StateT.modifyGet, StateT.run]
  split <;> rfl

/-- The sets of the places, and only they, come up in matches of the mode, whatever the user code answers. -/
theorem steady_of_delimits {env : MatchEnv η} (delimits : env.net.Delimits env.mode r opening closing lo n)
    (proper : closing ≠ []) : Steady env fun configs =>
      ∃ place : Place, place.Holds r opening closing lo n configs.toList where
  starts := by
    intro v s h starts
    obtain ⟨s', starts', holds⟩ := starts_opened delimits proper v
    obtain ⟨rfl, -⟩ := starts.unique starts'
    exact ⟨_, holds⟩
  reaches := by
    rintro v configs s h ⟨place, holds⟩ reaches
    obtain ⟨s', reaches', holds'⟩ := reaches_next delimits proper holds
    obtain ⟨rfl, -⟩ := reaches.unique reaches'
    exact ⟨_, holds'⟩
  settled := by
    rintro configs symbol ⟨place, holds⟩ c member - ⟨a, among, -⟩
    obtain ⟨s, late, rfl⟩ := holds.lone c (Array.mem_toList_iff.2 member)
    cases among

section

variable {env : MatchEnv η} {v : Sight η} {y : List Char}
  (delimits : env.net.Delimits env.mode r opening closing lo n) (proper : closing ≠ [])
include delimits proper

/-- A match walks along like its simulation: where it is after the characters, the rest decides how it ends. -/
theorem Walks.matches (walks : Walks opening closing (opened opening 0) u next) (ahead : v.ahead = u ++ w) :
    ∃ (v' : Sight η) (s : ConfigSet), next.Holds r opening closing lo n s.configs.toList ∧ v'.ahead = w ∧
      v'.input = { v.input with pos := v.input.pos + u.length } ∧ v'.startIndex = v.input.pos ∧
      ∀ v'' symbol last result final, Scans env v' s none v'' symbol last →
        (conclude symbol last).run v''.matcher = some (result, final) → Matches env v result final.sight := by
  obtain ⟨s, starts, holds⟩ := starts_opened delimits proper v.begun
  obtain ⟨accepts, -⟩ := stateOf_open delimits holds (opened_isOpen opening 0)
  have nothing : note (stateOf env.net s) (v.begun.asked v.begun.hooks).matcher none = none := by
    rw [note, accepts]
    rfl
  have text : v.begun.ahead = u ++ w := ahead
  obtain ⟨v', s', holds', ahead', input, start, scans⟩ := walks.scans delimits proper text holds
  refine ⟨v', s', holds', ahead', input, start, ?_⟩
  intro v'' symbol last result final ends concludes
  have whole := scans none v'' symbol last ends
  rw [← nothing] at whole
  exact .intro starts whole concludes

/-- Where the closing text occurs, a match ends behind its first occurrence. -/
theorem matches_of_occurs {k : Nat} (ahead : v.ahead = opening ++ y) (occurs : OccursFirst closing y k) :
    ∃ v', Matches env v (.ok ⟨env.net.ruleTypes.getD r 0, []⟩) v' ∧
      v'.input = { v.input with pos := v.input.pos + opening.length + k + closing.length } := by
  have fits := occurs.length_le proper
  have positive := List.length_pos_iff.2 proper
  obtain ⟨e, sum⟩ : ∃ e, k + closing.length = e + 1 := ⟨k + closing.length - 1, by omega⟩
  have inside : e < y.length := by omega
  -- All characters but the last one of the token are read between the texts.
  have opens : Walks opening closing (opened opening 0) opening (.between []) := walks_opening (Nat.zero_le _)
  have walks : Walks opening closing (.between []) (y.take e) (.between (y.take e)) := by
    apply walks_between
    intro i le _
    rw [List.length_take] at le
    rw [List.nil_append, List.take_take, Nat.min_eq_left (by omega)]
    exact occurs.not_suffix_take proper (by omega)
  have text : v.ahead = (opening ++ y.take e) ++ y[e] :: y.drop (e + 1) := by
    rw [← List.drop_eq_getElem_cons inside, List.append_assoc, List.take_append_drop]
    exact ahead
  obtain ⟨v₁, s₁, holds₁, ahead₁, input₁, -, decides⟩ := (opens.trans walks).matches delimits proper text
  have complete : closing <:+ y.take e ++ [y[e]] := by
    rw [← List.take_succ_eq_append_getElem inside, ← sum]
    exact suffix_take_of_prefix_drop occurs.here
  obtain ⟨v₂, symbol, a, ends, input₂, index, type, actions⟩ :=
    scans_complete delimits proper ahead₁ holds₁ complete
  have concludes : (conclude symbol (some a)).run v₂.matcher = some (.ok ⟨a.type, a.actions⟩,
      { v₂.matcher with input := v₂.input.seek a.index, line := a.line, column := a.column }) := rfl
  have ended := decides v₂ symbol _ _ _ (ends none) concludes
  rw [type, actions] at ended
  have place : a.index = v.input.pos + opening.length + k + closing.length := by
    rw [index, input₁, List.length_append, List.length_take_of_le (by omega)]
    change v.input.pos + (opening.length + e) + 1 = _
    omega
  have within : v.input.pos + opening.length + k + closing.length ≤ v.input.size := by
    have length := v.length_ahead
    rw [ahead, List.length_append] at length
    omega
  refine ⟨_, ended, ?_⟩
  change v₂.input.seek a.index = _
  rw [input₂, input₁, CharStream.seek, place]
  change ({ v.input with pos := min _ v.input.size } : CharStream) = _
  rw [Nat.min_eq_left within]

/-- Where the closing text does not occur, a match reads all of the input and no rule is ever complete. -/
theorem matches_of_never (ahead : v.ahead = opening ++ y) (never : ¬ ∃ k, OccursFirst closing y k) :
    ∃ result v', Matches env v result v' ∧
      (opening ++ y ≠ [] → result = .error (.noViableToken v.input.pos v.input.size)) := by
  have opens : Walks opening closing (opened opening 0) opening (.between []) := walks_opening (Nat.zero_le _)
  have walks : Walks opening closing (.between []) y (.between y) := by
    apply walks_between
    intro i le _ ends
    exact never (exists_occursFirst (ends.isInfix.trans (List.take_prefix i y).isInfix))
  have text : v.ahead = (opening ++ y) ++ [] := by
    rw [List.append_nil]
    exact ahead
  obtain ⟨v₁, s₁, holds₁, ahead₁, input₁, start, decides⟩ := (opens.trans walks).matches delimits proper text
  have lost : (Place.between y).next opening closing v₁.ahead.head? = .lost := by
    rw [ahead₁]
    rfl
  have stuck := scans_stuck delimits proper holds₁ lost none
  have atEnd : v₁.input.la 1 = endOfInput := by
    rw [Sight.la_ahead, ahead₁]
    rfl
  rw [atEnd] at stuck
  refine ⟨_, _, decides v₁ endOfInput none _ _ stuck (conclude_none endOfInput v₁.matcher), ?_⟩
  intro something
  have positive := List.length_pos_iff.2 something
  have size : v.input.pos + (opening ++ y).length = v.input.size := by
    have length := v.length_ahead
    rw [ahead] at length
    omega
  have place : v₁.input.pos = v.input.pos + (opening ++ y).length := by rw [input₁]
  have apart : ¬ v₁.input.pos = v₁.startIndex := by omega
  rw [if_neg fun both => apart both.2]
  change Except.error (RecognitionError.noViableToken v₁.startIndex v₁.input.pos) = _
  rw [start, place, size]

end

/-- In a mode with one rule that encloses, a match ends behind the first closing text. It ends so on every
cache that other matches can have left behind, and with an error at the end of the input if the closing text
does not occur. -/
theorem matchToken_encloses {g : Grammar} {compiled : CompiledGrammar} {net : Network} {verify : Bool}
    {mode r : Nat} {d : RuleDef} {opening closing : String} (assembled : g.Assembled)
    (representable : g.Representable) (lexer : g.isLexer = true) (run : g.compile = .ok compiled)
    (decoded : decode compiled.words verify = .ok net) (known : mode < g.modes.length)
    (alone : g.tokenRules mode = [r]) (found : g.rules[r]? = some d) (shape : d.body = .enclosing opening closing)
    (proper : closing ≠ "") (hooks : LexerHooks η) (m : Matcher η) (reachable : Reachable net m.cache)
    {y : List Char} (text : m.input.data.toList.drop m.input.pos = opening.toList ++ y) :
    ∃ enough result m', (∀ fuel, enough ≤ fuel → (matchToken net hooks fuel mode).run m = some (result, m')) ∧
      (∀ k, OccursFirst closing.toList y k → result = .ok ⟨g.tokenTypes.getD r 0, []⟩ ∧
        m'.input = { m.input with pos := m.input.pos + opening.length + k + closing.length }) ∧
      (¬ closing.toList <:+: y → opening.toList ++ y ≠ [] →
        result = .error (.noViableToken m.input.pos m.input.size)) := by
  obtain ⟨built, -⟩ := Grammar.compile_built assembled run decoded
  obtain ⟨lo, n, delimits⟩ :=
    Grammar.compile_delimits assembled representable lexer run decoded known alone found shape
  have inRules : r < net.numRules := by
    rw [built.numRules]
    exact (List.getElem?_eq_some_iff.1 found).1
  have inModes : mode < net.modeStarts.size := by
    rw [built.numModes, if_pos lexer]
    exact known
  have isLexer : net.isLexer = true := by
    rw [Network.isLexer, built.kind]
    exact lexer
  have proper' : closing.toList ≠ [] := by simpa using proper
  let env : MatchEnv η := { net, hooks, mode, fuel := 0 }
  have delimits' : env.net.Delimits env.mode r opening.toList closing.toList lo n := delimits
  have steady : Steady env _ := steady_of_delimits delimits' proper'
  have kept := reachable.kept isLexer
  have ahead : m.sight.ahead = opening.toList ++ y := text
  by_cases occurs : ∃ k, OccursFirst closing.toList y k
  · obtain ⟨k, first⟩ := occurs
    obtain ⟨v', ends, input⟩ := matches_of_occurs delimits' proper' ahead first
    obtain ⟨enough, m', ran, sight⟩ := ends.matchToken steady inModes kept
    refine ⟨enough, _, m', ran, fun k' first' => ?_, fun never => ?_⟩
    · obtain rfl := first.unique first'
      refine ⟨by rw [built.ruleTypes lexer r inRules], ?_⟩
      exact (congrArg Sight.input sight).trans input
    · exact absurd (first.here.isInfix.trans (List.drop_suffix k y).isInfix) never
  · obtain ⟨result, v', ends, error⟩ := matches_of_never delimits' proper' ahead occurs
    obtain ⟨enough, m', ran, sight⟩ := ends.matchToken steady inModes kept
    exact ⟨enough, result, m', ran, fun k first => absurd ⟨k, first⟩ occurs, fun _ => error⟩

/-- A lexer of comments that end with two stars and a slash. -/
def commentLexer : Grammar := (Grammar.lexer "Comments").rule "COMMENT" (.enclosing "/*" "**/")

/-- The words of the comment lexer. -/
def commentCompiled : CompiledGrammar := (commentLexer.compile.toOption).getD default

/-- The network of the comment lexer. -/
def commentNetwork : Network := ((decode commentCompiled.words true).toOption).getD default

/-- Of three stars before a slash the last two close the comment. -/
theorem matchToken_encloses_overlapping : ∃ enough m', (∀ fuel, enough ≤ fuel →
      (matchToken commentNetwork LexerHooks.silent fuel 0).run
        { cache := .ofNetwork commentNetwork, input := .ofString "/* a ***/ **/", hooks := () } =
          some (.ok ⟨1, []⟩, m')) ∧ m'.input.pos = 9 := by
  have assembled : commentLexer.Assembled := .rule "COMMENT" _ (.lexer "Comments")
  have representable : commentLexer.Representable := by
    intro r member e leaf
    obtain rfl := List.mem_singleton.1 member
    simp only [Element.enclosing, Element.leaves, Element.leavesAll, List.append_nil, List.cons_append,
      List.nil_append, List.mem_cons, List.not_mem_nil, or_false] at leaf
    rcases leaf with rfl | rfl | rfl <;> trivial
  have compiles : commentLexer.compile = .ok commentCompiled := except_ok_getD (by decide +kernel)
  have decodes : decode commentCompiled.words true = .ok commentNetwork := except_ok_getD (by decide +kernel)
  have alone : commentLexer.tokenRules 0 = [0] := by decide
  have text : (CharStream.ofString "/* a ***/ **/").data.toList.drop 0 =
      "/*".toList ++ " a ***/ **/".toList := by decide +kernel
  have first : OccursFirst "**/".toList " a ***/ **/".toList 4 := ⟨by decide +kernel, by decide +kernel⟩
  have type : commentLexer.tokenTypes.getD 0 0 = 1 := by decide
  have ends (cache : DfaCache) (reachable : Reachable commentNetwork cache) :=
    matchToken_encloses assembled representable rfl compiles decodes (by decide) alone rfl rfl (by decide)
      LexerHooks.silent { cache, input := .ofString "/* a ***/ **/", hooks := () } reachable text
  obtain ⟨enough, result, m', ran, finds, -⟩ := ends _ .fresh
  obtain ⟨rfl, input⟩ := finds 4 first
  rw [type] at ran
  exact ⟨enough, m', ran, (congrArg CharStream.pos input).trans (by decide +kernel)⟩

end Lexer

end AdaptiveLL
