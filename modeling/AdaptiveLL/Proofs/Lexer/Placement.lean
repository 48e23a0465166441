import AdaptiveLL.Proofs.Lexer.Acting
import AdaptiveLL.Proofs.Lexer.Transparency
import AdaptiveLL.Proofs.Text.Reading

/-!
# Where custom actions run

A custom action is to run with the input where the rule has it, behind the code points that the path
through the rule has consumed before. In a match that follows recorded edges only where they lead where
the network leads, it does (`matchToken_actions_met`): the actions of the match do what they would do
if each of them ran at the place where a path that spells the match meets it.

An edge by which custom actions are pinned keeps the pins of the match that recorded it. A later match
that comes to the edge after more code points runs its actions at the place of the earlier one
(`matchToken_misplaces_action`). No edge does so in a lexer whose rules consume nothing behind their
custom actions, and none is followed by a match that finds nothing recorded.
-/

set_option autoImplicit false

namespace AdaptiveLL

open Network

namespace Lexer

variable {η : Type} {net : Network} {mode : Nat} {input : CharStream} {start : Nat}

/-! ## Paths that meet actions -/

/-- From a place of the input on, a thread of the mode has come to a later place and has met actions on
its way, each at its place. Predicates are taken to hold. -/
inductive Travels (net : Network) (mode : Nat) (input : CharStream) (start : Nat) :
    Nat → Thread → List (Nat × LexerAction) → Prop
  | starts {t : Transition} (member : t ∈ net.out (net.modeStarts.getD mode 0)) :
      Travels net mode input start start ⟨t.target, []⟩ []
  | returns {place n ret : Nat} {stack : List Nat} {met : List (Nat × LexerAction)}
      (before : Travels net mode input start place ⟨n, ret :: stack⟩ met)
      (isStop : net.isStop n = true) : Travels net mode input start place ⟨ret, stack⟩ met
  | moves {place n : Nat} {stack : List Nat} {met : List (Nat × LexerAction)} {t : Transition}
      (before : Travels net mode input start place ⟨n, stack⟩ met) (inner : net.isStop n = false)
      (member : t ∈ net.out n) (crossed : crosses (decide (input.size ≤ place)) t.label = true) :
      Travels net mode input start place ⟨t.target, stackBehind stack t.label⟩
        (met ++ (actionMet net stack t.label).map (place, ·))
  | ends {place n : Nat} {stack : List Nat} {met : List (Nat × LexerAction)} {t : Transition}
      (before : Travels net mode input start place ⟨n, stack⟩ met) (member : t ∈ net.out n)
      (atEnd : input.size ≤ place) (accepts : t.label.accepts endOfInput minChar maxChar = true) :
      Travels net mode input start place ⟨t.target, stack⟩ met
  | consumes {place n : Nat} {stack : List Nat} {met : List (Nat × LexerAction)} {t : Transition}
      (before : Travels net mode input start place ⟨n, stack⟩ met) (member : t ∈ net.out n)
      (inside : place < input.size)
      (accepts : t.label.accepts (input.symbolAt place) minChar maxChar = true) :
      Travels net mode input start (place + 1) ⟨t.target, stack⟩ met

theorem Travels.le {place : Nat} {θ : Thread} {met : List (Nat × LexerAction)}
    (travels : Travels net mode input start place θ met) : start ≤ place := by
  induction travels with
  | starts member => exact Nat.le_refl _
  | returns before isStop ih => exact ih
  | moves before inner member crossed ih => exact ih
  | ends before member atEnd accepts ih => exact ih
  | consumes before member inside accepts ih => exact Nat.le_succ_of_le ih

/-- What the configurations of a match know: a path to their thread, and its actions with the pins they
have got on the way. -/
def Met (net : Network) (mode : Nat) (input : CharStream) (start place : Nat) (θ : Thread)
    (actions : List LexerAction) : Prop :=
  ∃ met, Travels net mode input start place θ met ∧ List.Forall₂ (Pinned start place) met actions

/-- The network has no actions with a place of their own. -/
def Unpinned (net : Network) : Prop := ∀ a ∈ net.actions, a.isPositionDependent = a.isCustom

theorem crosses_mono {atEof atEof' : Bool} {label : Label} (imp : atEof = true → atEof' = true)
    (crossed : crosses atEof label = true) : crosses atEof' label = true := by
  unfold crosses at crossed ⊢
  split at crossed
  all_goals first | rfl | cases crossed | skip
  all_goals
    rw [Bool.and_eq_true_iff] at crossed ⊢
    exact ⟨imp crossed.1, crossed.2⟩

theorem carried_met (unpinned : Unpinned net) {place : Nat} {atEof : Bool}
    (atEnd : atEof = true → input.size ≤ place) :
    Carried net atEof (Met net mode input start place) where
  returns := by
    rintro n ret stack actions ⟨met, travels, pinned⟩ isStop
    exact ⟨met, .returns travels isStop, pinned⟩
  moves := by
    rintro n stack actions ⟨met, travels, pinned⟩ inner t member crossed
    have crossed' : crosses (decide (input.size ≤ place)) t.label = true :=
      crosses_mono (fun isEof => decide_eq_true (atEnd isEof)) crossed
    refine ⟨_, .moves travels inner member crossed', List.rel_append pinned ?_⟩
    rw [List.forall₂_map_left_iff, List.forall₂_same]
    exact fun a here => ⟨travels.le, unpinned a (mem_actions_of_met here), .inr ⟨rfl, rfl⟩⟩

/-- What waits is pinned when a symbol is consumed, and what is pinned stays so. -/
theorem pinned_pin {start place place' : Nat} {met : Nat × LexerAction} {a : LexerAction}
    (pinned : Pinned start place met a) : Pinned start place' met (a.pin (place - start)) := by
  refine ⟨pinned.after, pinned.plain, .inl ?_⟩
  rcases pinned.pinned with rfl | ⟨rfl, rfl⟩
  · rw [LexerAction.pin, LexerAction.isCustom_pin]
    rfl
  · rfl

theorem pinned_pinActions {start place place' : Nat} {met : List (Nat × LexerAction)}
    {actions : List LexerAction} (pinned : List.Forall₂ (Pinned start place) met actions) :
    List.Forall₂ (Pinned start place') met (pinActions (place - start) actions) := by
  rw [pinActions, List.forall₂_map_right_iff]
  exact pinned.imp fun met a here => pinned_pin here

/-! ## The sets of a match -/

/-- The configurations know their paths, and those at the end of a rule have nothing to return to. -/
def AllMet (net : Network) (mode : Nat) (input : CharStream) (start place : Nat) (configs : ConfigSet) :
    Prop :=
  ∀ c ∈ configs.configs, Added net (Carries (Met net mode input start place)) c

/-- A rule was complete at the place: a path through it that begins with the match meets the actions. -/
structure Completed (net : Network) (mode : Nat) (input : CharStream) (start place : Nat) (type : Int)
    (actions : List LexerAction) : Prop where
  inside : place ≤ input.size
  path : ∃ stop met, Travels net mode input start place ⟨stop, []⟩ met ∧ net.isStop stop = true ∧
    type = net.ruleTypes.getD ((net.state stop).rule.getD 0) 0 ∧
    List.Forall₂ (Pinned start place) met actions

/-- What an accepting state says is true of the path of some configuration. -/
theorem AllMet.completed {configs : ConfigSet} {place : Nat}
    (allMet : AllMet net mode input start place configs) (inside : place ≤ input.size)
    (accepts : (stateOf net configs).accepts = true) :
    Completed net mode input start place (stateOf net configs).prediction
      (stateOf net configs).actions := by
  unfold stateOf at accepts ⊢
  cases found : configs.configs.find? fun c => (net.state c.state).kind.isRuleStop with
  | none =>
    rw [found] at accepts
    cases accepts
  | some c =>
    simp only []
    obtain ⟨⟨⟨stack, context, met, travels, pinned⟩, -⟩, atBottom⟩ :=
      allMet c (Array.mem_of_find?_eq_some found)
    have isStop := Array.find?_some found
    have bottom := atBottom isStop
    rw [context] at bottom
    have bottom' : stack = [] := by
      cases stack with
      | nil => rfl
      | cons ret rest => cases bottom
    subst bottom'
    exact ⟨inside, c.state, met, travels, isStop, rfl, pinned⟩

variable {env : MatchEnv η} {v v' : Sight η} {configs s : ConfigSet} {h : η}

/-- The match began at `start` and looks at the text of `input`. -/
structure Begun (input : CharStream) (start : Nat) (v : Sight η) : Prop where
  reads : input.Reads v.input
  start : v.startIndex = start

theorem input_moved (v : Sight η) :
    v.moved.input = if v.input.la 1 ≠ endOfInput then v.input.consume else v.input := by
  unfold Sight.moved
  split
  · unfold Matcher.consume
    split <;> rfl
  · rfl

theorem startIndex_moved (v : Sight η) : v.moved.startIndex = v.startIndex := by
  unfold Sight.moved
  split
  · unfold Matcher.consume
    split <;> rfl
  · rfl

/-- A match that moves on stays in its text: it is one place further, or at the end. -/
theorem Begun.moved (begun : Begun input start v) : Begun input start v.moved ∧
    (v.input.pos < input.size ∧ v.moved.input.pos = v.input.pos + 1 ∨
      input.size ≤ v.input.pos ∧ v.moved.input.pos = v.input.pos) := by
  have size := begun.reads.size
  by_cases atEof : v.input.la 1 = endOfInput
  · have stays : v.moved.input = v.input := by rw [input_moved, if_neg (not_not.2 atEof)]
    have atEnd := CharStream.la_eq_eof_iff.1 atEof
    refine ⟨⟨by rw [stays]; exact begun.reads, (startIndex_moved v).trans begun.start⟩, .inr ?_⟩
    exact ⟨by rwa [← size], by rw [stays]⟩
  · have goes : v.moved.input = v.input.consume := by rw [input_moved, if_pos atEof]
    have inside : v.input.pos < input.size := by
      rw [← size]
      exact Nat.lt_of_not_le fun atEnd => atEof (CharStream.la_eq_eof_iff.2 atEnd)
    obtain ⟨reads, pos⟩ := begun.reads.consume inside
    refine ⟨⟨by rw [goes]; exact reads, (startIndex_moved v).trans begun.start⟩, .inl ?_⟩
    exact ⟨inside, by rw [goes, pos]⟩

theorem Starts.allMet (unpinned : Unpinned env.net) (starts : Starts env v s h) (place : Nat) :
    AllMet env.net env.mode input place place s := by
  obtain ⟨fuel, run⟩ := starts
  let bounded : MatchEnv η := { env with fuel }
  have run' : startSet bounded v.input (env.net.modeStarts.getD env.mode 0) v.hooks = some ⟨s, h⟩ := run
  have carried : Carried bounded.net false (Met env.net env.mode input place place) :=
    carried_met unpinned fun atEof => nomatch atEof
  refine (startSet_carries carried ?_ run').each
  exact fun t member => ⟨[], .starts member, .nil⟩

theorem Reaches.allMet (unpinned : Unpinned env.net) (begun : Begun input start v)
    (allMet : AllMet env.net env.mode input start v.input.pos configs)
    (reaches : Reaches env v configs s h) :
    AllMet env.net env.mode input start v.moved.input.pos s := by
  obtain ⟨fuel, run⟩ := reaches
  let bounded : MatchEnv η := { env with fuel }
  have run' : reachSet bounded v.matcher configs (v.input.la 1) = some ⟨s, h⟩ := run
  obtain ⟨-, place⟩ := begun.moved
  have carried : Carried bounded.net (v.input.la 1 == endOfInput)
      (Met env.net env.mode input start v.moved.input.pos) := by
    apply carried_met unpinned
    intro atEof
    have atEnd := CharStream.la_eq_eof_iff.1 (beq_iff_eq.1 atEof)
    rw [begun.reads.size] at atEnd
    omega
  refine (reachSet_carries carried ?_ (fun c member => (allMet c member).1) run').each
  rintro n stack actions ⟨met, travels, pinned⟩ t member accepts
  have offset : v.matcher.input.pos - v.matcher.startIndex = v.input.pos - start := by
    rw [← begun.start]
    rfl
  rw [offset]
  refine ⟨met, ?_, pinned_pinActions pinned⟩
  rcases place with ⟨inside, next⟩ | ⟨atEnd, stays⟩
  · rw [begun.reads.la] at accepts
    rw [next]
    exact .consumes travels member inside accepts
  · have atEof : v.input.la 1 = endOfInput :=
      CharStream.la_eq_eof_iff.2 (by rw [begun.reads.size]; exact atEnd)
    rw [atEof] at accepts
    rw [stays]
    exact .ends travels member atEnd accepts

/-- The place that a match has noted is one at which a rule was complete. -/
def NotedAt (net : Network) (mode : Nat) (input : CharStream) (start : Nat) (last : Option Accepted) :
    Prop :=
  ∀ a, last = some a → Completed net mode input start a.index a.type a.actions

theorem AllMet.noted {m : Matcher η} {last : Option Accepted}
    (allMet : AllMet net mode input start m.input.pos configs) (inside : m.input.pos ≤ input.size)
    (noted : NotedAt net mode input start last) :
    NotedAt net mode input start (note (stateOf net configs) m last) := by
  intro a isNoted
  unfold note at isNoted
  split at isNoted
  · rename_i accepts
    cases isNoted
    exact allMet.completed inside accepts
  · exact noted a isNoted

/-- From sets that know their paths on, a match notes only places at which a rule was complete. -/
theorem Scans.noted (unpinned : Unpinned env.net) {last last' : Option Accepted} {symbol : Int}
    (scans : Scans env v configs last v' symbol last') (begun : Begun input start v)
    (allMet : AllMet env.net env.mode input start v.input.pos configs)
    (noted : NotedAt env.net env.mode input start last) :
    Begun input start v' ∧ NotedAt env.net env.mode input start last' := by
  induction scans with
  | stuck reaches nothing => exact ⟨⟨begun.reads, begun.start⟩, noted⟩
  | @ended v configs s h last reaches something accepts atEof =>
    have allMet' := reaches.allMet unpinned begun allMet
    have stays : v.moved.input = v.input := by rw [input_moved, if_neg (not_not.2 atEof)]
    rw [stays] at allMet'
    have here : AllMet env.net env.mode input start (v.asked h).matcher.input.pos s := allMet'
    exact ⟨⟨begun.reads, begun.start⟩, here.noted begun.reads.inside noted⟩
  | @goes v v' configs s h last last' symbol reaches something goesOn rest ih =>
    have allMet' := reaches.allMet unpinned begun allMet
    have begun' : Begun input start (v.asked h) := ⟨begun.reads, begun.start⟩
    obtain ⟨moved, -⟩ := begun'.moved
    have same : (v.asked h).moved.input = v.moved.input := by rw [input_moved, input_moved]; rfl
    rw [← same] at allMet'
    have here : AllMet env.net env.mode input start (v.asked h).moved.matcher.input.pos s := allMet'
    exact ih moved allMet' (here.noted moved.reads.inside noted)

/-- A match gives the end of the input, or it ends where a rule is complete. -/
theorem Matches.completed (unpinned : Unpinned env.net) {token : TokenMatch}
    (ends : Matches env v (.ok token) v') (inside : v.input.pos ≤ v.input.size) :
    token = ⟨endOfInput, []⟩ ∨ v'.startIndex = v.input.pos ∧ v.input.Reads v'.input ∧
      Completed env.net env.mode v.input v.input.pos v'.input.pos token.type token.actions := by
  obtain ⟨starts, scans, concludes⟩ := ends
  rename_i s h v' symbol last final
  let input := v.input
  have begun : Begun input input.pos (v.begun.asked h) := ⟨.refl inside, rfl⟩
  have allMet : AllMet env.net env.mode input input.pos (v.begun.asked h).matcher.input.pos s :=
    starts.allMet unpinned input.pos
  have nothing : NotedAt env.net env.mode input input.pos none := fun a isNoted => nomatch isNoted
  obtain ⟨begun', noted⟩ := scans.noted unpinned begun allMet (allMet.noted inside nothing)
  cases last with
  | some a =>
    cases concludes
    have completed := noted a rfl
    have place : v'.matcher.input.seek a.index = { input with pos := a.index } :=
      begun'.reads.seek completed.inside
    refine .inr ⟨begun'.start, ?_, ?_⟩
    · show input.Reads (v'.matcher.input.seek a.index)
      rw [place]
      exact ⟨rfl, completed.inside⟩
    · show Completed _ _ _ _ (v'.matcher.input.seek a.index).pos _ _
      rw [place]
      exact completed
  | none =>
    simp only [conclude, modifyGet, MonadStateOf.modifyGet, StateT.modifyGet, StateT.run] at concludes
    split at concludes
    · cases concludes
      exact .inl rfl
    · cases concludes

/-- The actions of a match that can be trusted run where a path that spells the match meets them, and
every cache on which the match can be trusted gives the same actions at the same place. -/
theorem matchToken_actions_met (lexer : net.isLexer = true) (unpinned : Unpinned net)
    (known : mode < net.modeStarts.size) (hooks : LexerHooks η) {fuel : Nat} {m m' : Matcher η}
    {token : TokenMatch} (reachable : Reachable net m.cache) (inside : m.input.pos ≤ m.input.size)
    (guided : GuidedMatch { net, hooks, mode, fuel } m)
    (ends : (matchToken net hooks fuel mode).run m = some (.ok token, m')) :
    (token = ⟨endOfInput, []⟩ ∨ m'.startIndex = m.input.pos ∧ ∃ stop met,
      Travels net mode m.input m.input.pos m'.input.pos ⟨stop, []⟩ met ∧ net.isStop stop = true ∧
      token.type = net.ruleTypes.getD ((net.state stop).rule.getD 0) 0 ∧
      ∀ state h,
        let r : ActionRun η := { state, input := m'.input, hooks := h }
        runActions hooks m'.startIndex token.actions r =
          ((runMet hooks met r).1.seek m'.input.pos, (runMet hooks met r).2)) ∧
    ∀ (other : Matcher η) (result : Except RecognitionError TokenMatch) (other' : Matcher η),
      other.sight = m.sight → Reachable net other.cache →
      GuidedMatch { net, hooks, mode, fuel } other →
      (matchToken net hooks fuel mode).run other = some (result, other') →
        result = .ok token ∧ other'.sight = m'.sight := by
  let env : MatchEnv η := { net, hooks, mode, fuel }
  have unremembered : Matches env m.sight (.ok token) m'.sight :=
    (matchToken_leaves known (reachable.kept lexer) _ m' ends).2 guided
  constructor
  · have unpinned' : Unpinned env.net := unpinned
    refine (unremembered.completed unpinned' inside).imp_right ?_
    rintro ⟨start, reads, completed⟩
    have start' : m'.startIndex = m.input.pos := start
    have reads' : m.input.Reads m'.input := reads
    obtain ⟨stop, met, travels, isStop, type, pinned⟩ := completed.path
    refine ⟨start', stop, met, travels, isStop, type, ?_⟩
    intro state h
    rw [start']
    exact runActions_met pinned (by rw [reads'.size]; exact reads'.inside)
  · intro other result other' same reachable' guided' ends'
    have unremembered' : Matches env other.sight result other'.sight :=
      (matchToken_leaves known (reachable'.kept lexer) _ other' ends').2 guided'
    rw [same] at unremembered'
    obtain ⟨token, place⟩ := unremembered.unique unremembered'
    exact ⟨token.symm, place.symm⟩

/-- A lexer of one rule, which repeats a symbol and has an action before another one ends it. -/
def markedLexer : Grammar :=
  (Grammar.lexer "Marked").rule "MARKED" (.seq [.plus (.symbol 97), .action 0, .symbol 98])

/-- The words of the marked lexer. -/
def markedCompiled : CompiledGrammar := (markedLexer.compile.toOption).getD default

/-- The network of the marked lexer. -/
def markedNetwork : Network := ((decode markedCompiled.words true).toOption).getD default

/-- User code that notes the places at which its actions run. -/
def notingHooks : LexerHooks (List Nat) where
  predicate _ _ _ noted := (true, noted)
  action s input _ _ noted := (s, noted ++ [input.pos])

/-- A match of the marked lexer on a text. -/
def markedMatch (cache : DfaCache) (text : String) :
    Option (Except RecognitionError TokenMatch × Matcher (List Nat)) :=
  (matchToken markedNetwork notingHooks 20 0).run { cache, input := .ofString text, hooks := [] }

/-- The places at which the actions of a match of the marked lexer run. -/
def markedPlaces (cache : DfaCache) (text : String) : Option (List Nat) := do
  let (result, m) ← markedMatch cache text
  let token ← result.toOption
  return (runActions notingHooks m.startIndex token.actions
    { state := {}, input := m.input, hooks := m.hooks }).1.hooks

theorem markedPlaces_eq {cache : DfaCache} {text : String} {token : TokenMatch} {m' : Matcher (List Nat)}
    (ran : markedMatch cache text = some (.ok token, m')) :
    markedPlaces cache text = some (runActions notingHooks m'.startIndex token.actions
      { state := {}, input := m'.input, hooks := m'.hooks }).1.hooks := by
  unfold markedPlaces
  rw [ran]
  rfl

theorem markedNetwork_lexer : markedNetwork.isLexer = true ∧ 0 < markedNetwork.modeStarts.size ∧
    ∀ a ∈ markedNetwork.actions, a.isPositionDependent = a.isCustom := by
  decide +kernel

/-- A match with a fresh cache puts the action behind the second `a`, one behind a shorter match behind the first. -/
theorem markedMatch_places : (markedMatch (.ofNetwork markedNetwork) "aab").map (fun found =>
      (found.1.toOption.map (·.type), found.2.input.pos, found.2.stats.dfaHits, found.2.hooks)) =
        some (some 1, 3, 0, []) ∧
    markedPlaces (.ofNetwork markedNetwork) "aab" = some [2] ∧
    (markedMatch (.ofNetwork markedNetwork) "ab").map (fun found => markedPlaces found.2.cache "aab") =
      some (some [1]) := by
  decide +kernel

theorem matchToken_actions_met_marked : ∃ token m',
    markedMatch (.ofNetwork markedNetwork) "aab" = some (.ok token, m') ∧ ∃ stop met,
      Travels markedNetwork 0 (.ofString "aab") 0 3 ⟨stop, []⟩ met ∧
      (runMet notingHooks met { state := {}, input := m'.input, hooks := [] }).1.hooks = [2] := by
  obtain ⟨isLexer, known, unpinned⟩ := markedNetwork_lexer
  obtain ⟨answer, places, -⟩ := markedMatch_places
  have matched (cache : DfaCache) (reachable : Reachable markedNetwork cache) (m' : Matcher (List Nat))
      (token : TokenMatch) (ends : markedMatch cache "aab" = some (.ok token, m'))
      (unrecalled : m'.stats.dfaHits = 0) :=
    let m : Matcher (List Nat) := { cache, input := .ofString "aab", hooks := [] }
    have ran : (matchToken markedNetwork notingHooks 20 0).run m = some (.ok token, m') := ends
    matchToken_actions_met isLexer unpinned known notingHooks (m := m) reachable (Nat.zero_le _)
      (guidedMatch_of_unrecalled ran unrecalled) ran
  obtain ⟨⟨result, m'⟩, ends, facts⟩ := Option.map_eq_some_iff.1 answer
  simp only [Prod.mk.injEq] at facts
  obtain ⟨isToken, place, unrecalled, unasked⟩ := facts
  cases result with
  | error e => cases isToken
  | ok token =>
    obtain ⟨eof | ⟨-, stop, met, travels, -, -, runs⟩, -⟩ := matched _ .fresh m' token ends unrecalled
    · rw [eof] at isToken
      cases isToken
    · rw [place] at travels
      refine ⟨token, m', ends, stop, met, travels, ?_⟩
      rw [markedPlaces_eq ends, unasked, runs {} []] at places
      exact Option.some.inj places

theorem markedMatch_reachable {cache : DfaCache} (before : Reachable markedNetwork cache) {text : String}
    {result : Except RecognitionError TokenMatch} {m' : Matcher (List Nat)}
    (ran : markedMatch cache text = some (result, m')) : Reachable markedNetwork m'.cache :=
  .matched before markedNetwork_lexer.2.1 ran

/-- A shorter match misplaces the action of a longer one, which a fresh cache has at its place. -/
theorem matchToken_misplaces_action : ∃ cache, Reachable markedNetwork cache ∧
    markedPlaces (.ofNetwork markedNetwork) "aab" = some [2] ∧ markedPlaces cache "aab" = some [1] := by
  obtain ⟨-, placed, places⟩ := markedMatch_places
  obtain ⟨⟨result, m'⟩, ran, misplaced⟩ := Option.map_eq_some_iff.1 places
  have reachable := markedMatch_reachable .fresh ran
  exact ⟨m'.cache, reachable, placed, misplaced⟩

end Lexer

end AdaptiveLL
