import AdaptiveLL.Proofs.Lexer.Fuel
import AdaptiveLL.Proofs.Lexer.Learning

/-!
# The longest match

A lexer takes the longest piece of its input that some token rule of its mode recognizes, and of the
rules that recognize this piece the one that was declared first. This holds of every lexer without
predicates, without the end of the input among its symbols, without loops and optional parts that prefer
to stop early and without rules that come back to their start without consuming, and it holds whatever the
lexer has learned before (`matchToken_longest`). An optional part that prefers to stop early is enough to
cut a match short (`matchToken_reluctant`).
-/

set_option autoImplicit false

namespace AdaptiveLL

open Network

/-- The symbols of the text from `i` up to `j`. -/
def CharStream.symbols (s : CharStream) (i j : Nat) : List Int :=
  ((s.data.toList.take j).drop i).map fun c => (c.toNat : Int)

namespace Lexer

variable {η : Type} {net : Network} {g : Grammar} {mode : Nat}

/-! ## What a state accepts -/

/-- Of the token rules of the mode that recognize the word, the first gives the type. -/
structure FirstRule (net : Network) (g : Grammar) (mode : Nat) (w : List Int) (r : Nat) : Prop where
  member : r ∈ g.tokenRules mode
  recognizes : net.Recognizes minChar maxChar r w
  first : ∀ r' ∈ g.tokenRules mode, net.Recognizes minChar maxChar r' w → r ≤ r'

/-- No token rule of the mode recognizes the word. -/
def NoRule (net : Network) (g : Grammar) (mode : Nat) (w : List Int) : Prop :=
  ∀ r ∈ g.tokenRules mode, ¬ net.Recognizes minChar maxChar r w

theorem tokenRules_sorted (g : Grammar) (mode : Nat) : (g.tokenRules mode).Pairwise (· < ·) := by
  have sub : (g.tokenRules mode).Sublist (List.range g.rules.length) := by
    have numbers : g.rules.zipIdx.map (·.2) = List.range g.rules.length := by
      simp [List.zipIdx_map_snd, List.range_eq_range']
    rw [← numbers]
    exact List.Sublist.map _ List.filter_sublist
  exact List.pairwise_lt_range.sublist sub

theorem tokenRules_le {i i' r r' : Nat} (found : (g.tokenRules mode)[i]? = some r)
    (found' : (g.tokenRules mode)[i']? = some r') (le : i ≤ i') : r ≤ r' := by
  obtain ⟨bound, rfl⟩ := List.getElem?_eq_some_iff.1 found
  obtain ⟨bound', rfl⟩ := List.getElem?_eq_some_iff.1 found'
  rcases Nat.lt_or_eq_of_le le with lt | rfl
  · exact Nat.le_of_lt (List.pairwise_iff_getElem.1 (tokenRules_sorted g mode) i i' bound bound' lt)
  · exact Nat.le_refl _

/-- A rule recognizes the word when its alternative has a live thread at its end. -/
theorem recognizes_iff_live (built : net.Built g) {w : List Int} {i r : Nat}
    (found : (g.tokenRules mode)[i]? = some r) : net.Recognizes minChar maxChar r w ↔
      ∃ stop, net.isStop stop = true ∧ Live net g mode w (i + 1) ⟨stop, []⟩ := by
  have known : r < net.numRules := by
    rw [built.numRules]
    exact Grammar.lt_of_mem_tokenRules (List.mem_of_getElem? found)
  rw [recognizes_iff_runs built known]
  constructor
  · rintro ⟨stop, isStop, run⟩
    exact ⟨stop, isStop, i, r, found, rfl, .inl ⟨isStop, rfl⟩, run⟩
  · rintro ⟨stop, isStop, i', r', found', same, -, run⟩
    obtain rfl : i = i' := by omega
    rw [found] at found'
    cases found'
    exact ⟨stop, isStop, run⟩

/-- The configurations of a state that is reached by the word accept the word, with the type of the
first rule that recognizes it. -/
theorem stateOf_accepts (built : net.Built g) (lexer : g.isLexer = true) {configs : ConfigSet}
    {w : List Int} (threads : ∀ c ∈ configs.configs, ∃ θ, c.Follows θ)
    (sorted : configs.configs.toList.Pairwise (·.alt ≤ ·.alt))
    (holds : ∀ alt θ, configs.Holds alt θ ↔ Live net g mode w alt θ) :
    if (stateOf net configs).accepts then
      ∃ r, FirstRule net g mode w r ∧ (stateOf net configs).prediction = g.tokenTypes.getD r 0
    else NoRule net g mode w := by
  unfold stateOf
  cases found : configs.configs.find? fun c => (net.state c.state).kind.isRuleStop with
  | none =>
    intro r member recognizes
    obtain ⟨i, found'⟩ := List.mem_iff_getElem?.1 member
    obtain ⟨stop, isStop, live⟩ := (recognizes_iff_live built found').1 recognizes
    obtain ⟨c, among, -, follows⟩ := (holds _ _).2 live
    refine Array.find?_eq_none.1 found c among ?_
    rw [follows.state]
    exact isStop
  | some c =>
    rw [← Array.find?_toList] at found
    obtain ⟨atStop, before, after, split, earlier⟩ := List.find?_eq_some_iff_append.1 found
    have among : c ∈ configs.configs := by
      rw [← Array.mem_toList_iff, split]
      simp
    obtain ⟨⟨stop, stack⟩, follows⟩ := threads c among
    obtain ⟨i, r, ruleAt, isAlt, settled, run⟩ := (holds c.alt _).1 ⟨c, among, rfl, follows⟩
    have isStop : net.isStop stop = true := by
      rw [← show c.state = stop from follows.state]
      exact atStop
    obtain rfl : stack = [] := by
      rcases settled with ⟨-, noStack⟩ | ⟨inner, -⟩
      · exact noStack
      · rw [isStop] at inner
        cases inner
    have member := List.mem_of_getElem? ruleAt
    have known : r < net.numRules := by
      rw [built.numRules]
      exact Grammar.lt_of_mem_tokenRules member
    have owner : (net.state c.state).rule = some r := by
      rw [follows.state]
      have path : net.Path minChar maxChar (net.ruleStart r) w stop := run.finishes built
      exact path.rule_eq built (built.startRule r known)
    refine ⟨r, ⟨member, (recognizes_iff_live built ruleAt).2
      ⟨stop, isStop, i, r, ruleAt, rfl, settled, run⟩, fun r' member' recognizes => ?_⟩, ?_⟩
    · obtain ⟨i', ruleAt'⟩ := List.mem_iff_getElem?.1 member'
      obtain ⟨stop', isStop', live⟩ := (recognizes_iff_live built ruleAt').1 recognizes
      obtain ⟨d, among', isAlt', follows'⟩ := (holds _ _).2 live
      refine tokenRules_le ruleAt ruleAt' ?_
      -- The configuration of the other rule does not come before the first one at a stop.
      have later : c.alt ≤ d.alt := by
        rw [← Array.mem_toList_iff, split, List.mem_append, List.mem_cons] at among'
        rw [split] at sorted
        rcases among' with inBefore | rfl | inAfter
        · have := earlier d inBefore
          rw [show (net.state d.state).kind.isRuleStop = true by rw [follows'.state]; exact isStop'] at this
          cases this
        · exact Nat.le_refl _
        · exact (List.pairwise_cons.1 (List.pairwise_append.1 sorted).2.1).1 d inAfter
      omega
    · simp only [owner, Option.getD_some]
      exact built.ruleTypes lexer r known

/-- When a longer word is recognized, some thread is live on the way. -/
theorem exists_settled (refreshed : Refreshed net) {θ final : Thread} {w : List Int}
    (run : net.Runs minChar maxChar θ w final) (settled : net.Settled final) :
    ∃ θ', net.Runs minChar maxChar θ [] θ' ∧ net.Settled θ' := by
  induction run with
  | stay θ => exact ⟨θ, .stay θ, settled⟩
  | silent step rest ih =>
    obtain ⟨θ', run, settled'⟩ := ih settled
    exact ⟨θ', .silent step run, settled'⟩
  | consume step rest ih => exact ⟨_, .stay _, settled_of_consumes refreshed step⟩

theorem noRule_of_dead (built : net.Built g) (refreshed : Refreshed net) {u v : List Int}
    (dead : ∀ alt θ, ¬ Live net g mode u alt θ) : NoRule net g mode (u ++ v) := by
  intro r member recognizes
  obtain ⟨i, found⟩ := List.mem_iff_getElem?.1 member
  obtain ⟨stop, -, i', r', found', isAlt, settled, run⟩ :=
    (recognizes_iff_live built found).1 recognizes
  obtain ⟨mid, before, after⟩ := run.split
  obtain ⟨θ, silent, settled'⟩ := exists_settled refreshed after settled
  refine dead (i' + 1) θ ⟨i', r', found', rfl, settled', ?_⟩
  simpa using before.append silent

/-! ## The last place at which a rule was complete -/

/-- The place is the last one before the `k`-th at which a rule recognizes what was read. -/
def Best (net : Network) (g : Grammar) (mode : Nat) (text : List Int) (start k : Nat) :
    Option Accepted → Prop
  | none => ∀ j < k, NoRule net g mode (text.take j)
  | some a => ∃ j < k, a.index = start + j ∧
      (∃ r, FirstRule net g mode (text.take j) r ∧ a.type = g.tokenTypes.getD r 0) ∧
      ∀ j', j < j' → j' < k → NoRule net g mode (text.take j')

theorem Best.extend {text : List Int} {start k k' : Nat} {last : Option Accepted}
    (best : Best net g mode text start k last)
    (none' : ∀ j, k ≤ j → j < k' → NoRule net g mode (text.take j)) (le : k ≤ k') :
    Best net g mode text start k' last := by
  cases last with
  | none =>
    intro j below
    rcases Nat.lt_or_ge j k with early | late
    · exact best j early
    · exact none' j late below
  | some a =>
    obtain ⟨j, below, index, first, longest⟩ := best
    refine ⟨j, Nat.lt_of_lt_of_le below le, index, first, fun j' above below' => ?_⟩
    rcases Nat.lt_or_ge j' k with early | late
    · exact longest j' above early
    · exact none' j' late below'

theorem Best.note (built : net.Built g) (lexer : g.isLexer = true) {text : List Int} {start k : Nat}
    {last : Option Accepted} {s : DfaState} {m : Matcher η}
    (best : Best net g mode text start k last) (sound : StateSound net s)
    (holds : ∀ alt θ, s.configs.Holds alt θ ↔ Live net g mode (text.take k) alt θ)
    (place : m.input.pos = start + k) :
    Best net g mode text start (k + 1) (note s m last) := by
  have accepts := stateOf_accepts built lexer sound.threads sound.sorted holds
  rw [← sound.accepts] at accepts
  unfold Lexer.note
  cases isAccepting : s.accepts with
  | true =>
    rw [isAccepting] at accepts
    obtain ⟨r, first, type⟩ := accepts
    exact ⟨k, Nat.lt_succ_self k, place, ⟨r, first, sound.prediction.trans type⟩,
      fun j' above below => by omega⟩
  | false =>
    rw [isAccepting] at accepts
    refine best.extend (fun j above below => ?_) (Nat.le_succ k)
    obtain rfl : j = k := by omega
    exact accepts

/-! ## The loop -/

/-- The symbols from the place of the stream on. -/
def rest (input : CharStream) : List Int :=
  (input.data.toList.drop input.pos).map fun c => (c.toNat : Int)

theorem la_rest (input : CharStream) (k : Nat) :
    ({ input with pos := input.pos + k } : CharStream).la 1 = ((rest input)[k]?).getD endOfInput := by
  have place : ((input.pos + k : Nat) : Int) + 1 - 1 = ((input.pos + k : Nat) : Int) := by omega
  simp only [CharStream.la, CharStream.symbolAt, rest, place]
  rw [if_pos (by decide), if_neg (by omega), Int.toNat_natCast, List.getElem?_map, List.getElem?_drop,
    Array.getElem?_toList]
  cases input.data[input.pos + k]? with
  | none => rfl
  | some c => rfl

theorem rest_ne_eof {input : CharStream} {k : Nat} {symbol : Int} (here : (rest input)[k]? = some symbol) :
    symbol ≠ endOfInput := by
  rw [rest, List.getElem?_map] at here
  obtain ⟨c, -, rfl⟩ := Option.map_eq_some_iff.1 here
  simp only [endOfInput]
  omega

theorem length_rest (input : CharStream) : (rest input).length = input.size - input.pos := by
  simp [rest, CharStream.size]

theorem consume_input (m : Matcher η) : m.consume.input = m.input.consume := by
  unfold Matcher.consume
  split <;> rfl

/-- Where the loop ends: the place, the last symbol looked at and the last place at which a rule was
complete. -/
structure Ended (net : Network) (g : Grammar) (mode : Nat) (input : CharStream) (m m' : Matcher η)
    (symbol : Int) (last : Option Accepted) : Prop where
  place : ∃ k ≤ (rest input).length, m'.input = { input with pos := input.pos + k } ∧
    (symbol = endOfInput ↔ k = (rest input).length)
  best : Best net g mode (rest input) input.pos ((rest input).length + 1) last
  startIndex : m'.startIndex = m.startIndex
  sound : CacheSound net g m'.cache

theorem run_yields {env : MatchEnv η} (plain : env.net.Plain) (built : env.net.Built g)
    (lexer : g.isLexer = true) (refreshed : Refreshed env.net)
    (inside : env.mode < env.net.modeStarts.size) {input : CharStream}
    (handles : ∀ k symbol, (rest input)[k]? = some symbol → ∀ alt θ,
      Live env.net g env.mode ((rest input).take k) alt θ →
      ∀ next ∈ env.net.consumeNext minChar maxChar symbol θ, Handles η env.net env.fuel next)
    {fuel k n : Nat} {last : Option Accepted} {m : Matcher η} (within : k ≤ (rest input).length)
    (enough : (rest input).length < k + fuel)
    (place : m.input = { input with pos := input.pos + k })
    (sound : CacheSound env.net g m.cache) (registered : n < (m.cache.dfa env.mode).states.size)
    (holds : ∀ alt θ, ((m.cache.dfa env.mode).state n).configs.Holds alt θ ↔
      Live env.net g env.mode ((rest input).take k) alt θ)
    (best : Best env.net g env.mode (rest input) input.pos (k + 1) last) :
    Yields (run env fuel n last) m fun result m' =>
      Ended env.net g env.mode input m m' result.1 result.2 := by
  induction fuel generalizing k n last m with
  | zero => omega
  | succ fuel ih =>
    have symbolIs : m.input.la 1 = ((rest input)[k]?).getD endOfInput := by
      rw [place]
      exact la_rest input k
    have enoughHere : ∀ alt θ, ((m.cache.dfa env.mode).state n).configs.Holds alt θ →
        ∀ next ∈ env.net.consumeNext minChar maxChar (m.input.la 1) θ,
          Handles η env.net env.fuel next := by
      intro alt θ held next step
      cases here : (rest input)[k]? with
      | some symbol =>
        rw [symbolIs, here, Option.getD_some] at step
        exact handles k symbol here alt θ ((holds alt θ).1 held) next step
      | none =>
        rw [symbolIs, here, Option.getD_none] at step
        obtain ⟨s, stack⟩ := θ
        obtain ⟨-, t, member, accepts, -⟩ := mem_consumeNext.1 step
        rw [plain.not_accepts_eof member] at accepts
        cases accepts
    have atEof : m.input.la 1 = endOfInput ↔ k = (rest input).length := by
      rw [symbolIs]
      cases here : (rest input)[k]? with
      | some symbol =>
        have bound := (List.getElem?_eq_some_iff.1 here).1
        simp only [Option.getD_some, rest_ne_eof here, false_iff]
        omega
      | none =>
        have bound := List.getElem?_eq_none_iff.1 here
        simp only [Option.getD_none, true_iff]
        omega
    rw [run]
    refine Yields.get_bind ?_
    refine (target_yields plain built inside sound registered enoughHere).bind
      fun e m' found => ?_
    obtain ⟨learned, leads⟩ := found
    have longer {symbol : Int} (here : (rest input)[k]? = some symbol) (alt : Nat) (θ : Thread) :
        Live env.net g env.mode ((rest input).take (k + 1)) alt θ ↔
          Steps env.net ((m.cache.dfa env.mode).state n).configs (m.input.la 1) alt θ := by
      rw [symbolIs, List.take_add_one, here]
      exact live_snoc refreshed holds alt θ
    cases e with
    | dead =>
      refine Yields.pure ⟨⟨k, within, learned.input.trans place, atEof⟩, ?_, learned.startIndex,
        learned.sound⟩
      refine best.extend (fun j above below => ?_) (by omega)
      obtain ⟨symbol, here⟩ : ∃ symbol, (rest input)[k]? = some symbol :=
        ⟨_, List.getElem?_eq_getElem (by omega)⟩
      have dead : ∀ alt θ, ¬ Live env.net g env.mode ((rest input).take (k + 1)) alt θ :=
        fun alt θ live => leads.leadsTo alt θ ((longer here alt θ).1 live)
      rw [← List.take_append_drop (k + 1) ((rest input).take j), List.take_take, Nat.min_eq_left above]
      exact noRule_of_dead built refreshed dead
    | target next =>
      have notEof : m.input.la 1 ≠ endOfInput := by
        intro isEof
        cases leads.eof isEof
      have below : k < (rest input).length := by
        have := mt atEof.2 notEof
        omega
      obtain ⟨symbol, here⟩ : ∃ symbol, (rest input)[k]? = some symbol :=
        ⟨_, List.getElem?_eq_getElem below⟩
      obtain ⟨registered', holds'⟩ := leads.leadsTo
      simp only [ne_eq, notEof, not_false_eq_true, if_true]
      refine Yields.modify_bind (?_ : Yields _ m'.consume _)
      have cache : m'.consume.cache = m'.cache := by
        unfold Matcher.consume
        split <;> rfl
      have startIndex : m'.consume.startIndex = m'.startIndex := by
        unfold Matcher.consume
        split <;> rfl
      have place' : m'.consume.input = { input with pos := input.pos + (k + 1) } := by
        have room : input.pos + k < input.size := by
          rw [length_rest] at below
          omega
        rw [consume_input, learned.input, place, CharStream.consume]
        exact if_pos room
      refine yields_dfa_bind ?_
      rw [cache]
      refine Yields.get_bind ?_
      have live : ∀ alt θ, ((m'.cache.dfa env.mode).state next).configs.Holds alt θ ↔
          Live env.net g env.mode ((rest input).take (k + 1)) alt θ :=
        fun alt θ => (holds' alt θ).trans (longer here alt θ).symm
      have best' := best.note (m := m'.consume) built lexer
        ((learned.sound.sound env.mode inside).states next registered') live (by rw [place'])
      simp only [decide_false, Bool.and_false, Bool.false_eq_true, if_false]
      refine (ih (k := k + 1) (n := next) below (by omega) place' ?_ ?_ ?_ best').imp
        fun result m'' ended => ⟨ended.place, ended.best, ?_, ended.sound⟩
      · rw [cache]
        exact learned.sound
      · rw [cache]
        exact registered'
      · rw [cache]
        exact live
      · rw [ended.startIndex, startIndex, learned.startIndex]

/-! ## The match -/

/-- The match of a token in a mode ends at `j`, with the rule `r`. -/
structure LongestMatch (net : Network) (g : Grammar) (mode : Nat) (input : CharStream) (j r : Nat) :
    Prop where
  start : input.pos ≤ j
  stop : j ≤ input.size
  first : FirstRule net g mode (input.symbols input.pos j) r
  longest : ∀ j', j < j' → j' ≤ input.size → NoRule net g mode (input.symbols input.pos j')

/-- What a match gives: the longest one with the type of its first rule, the end of the input if it is
there and nothing is matched, or an error. -/
inductive Outcome (net : Network) (g : Grammar) (mode : Nat) (input after : CharStream) :
    Except RecognitionError TokenMatch → Prop
  | token {j r : Nat} (actions : List LexerAction) (longest : LongestMatch net g mode input j r)
      (moved : after = { input with pos := j }) :
      Outcome net g mode input after (.ok ⟨g.tokenTypes.getD r 0, actions⟩)
  | eof (nothing : ∀ j, input.pos ≤ j → j ≤ input.size →
        NoRule net g mode (input.symbols input.pos j)) (atEnd : input.pos = input.size) :
      Outcome net g mode input after (.ok ⟨endOfInput, []⟩)
  | error {stop : Nat} (nothing : ∀ j, input.pos ≤ j → j ≤ input.size →
        NoRule net g mode (input.symbols input.pos j)) (before : input.pos < input.size) :
      Outcome net g mode input after (.error (.noViableToken input.pos stop))

theorem symbols_add (input : CharStream) (k : Nat) :
    input.symbols input.pos (input.pos + k) = (rest input).take k := by
  rw [CharStream.symbols, rest, List.drop_take, Nat.add_sub_cancel_left, List.map_take]

theorem Ended.outcome {input : CharStream} {m m' : Matcher η} {symbol : Int} {last : Option Accepted}
    (ended : Ended net g mode input m m' symbol last) (startIndex : m.startIndex = input.pos) :
    Yields (conclude symbol last) m' fun result m'' => m''.cache = m'.cache ∧
      (input.pos ≤ input.size → Outcome net g mode input m''.input result) := by
  obtain ⟨k, within, place, atEof⟩ := ended.place
  have length := length_rest input
  have best := ended.best
  have started : m'.startIndex = input.pos := ended.startIndex.trans startIndex
  cases last with
  | some a =>
    obtain ⟨j, below, index, ⟨r, first, type⟩, longest⟩ := best
    refine ⟨_, _, rfl, rfl, fun inside => ?_⟩
    rw [type]
    refine .token a.actions (j := input.pos + j) ⟨by omega, by omega, ?_, fun j' above below' => ?_⟩ ?_
    · rw [symbols_add]
      exact first
    · obtain ⟨d, rfl⟩ : ∃ d, j' = input.pos + d := ⟨j' - input.pos, by omega⟩
      rw [symbols_add]
      exact longest d (by omega) (by omega)
    · have bound : min (input.pos + j) input.size = input.pos + j := by omega
      rw [place, index, CharStream.seek]
      simp only [CharStream.mk.injEq, and_true, true_and]
      exact bound
  | none =>
    have nothing : ∀ j, input.pos ≤ j → j ≤ input.size →
        NoRule net g mode (input.symbols input.pos j) := by
      intro j above below
      obtain ⟨d, rfl⟩ : ∃ d, j = input.pos + d := ⟨j - input.pos, by omega⟩
      rw [symbols_add]
      exact best d (by omega)
    have pos : m'.input.pos = input.pos + k := by rw [place]
    by_cases isEnd : symbol = endOfInput ∧ m'.input.pos = m'.startIndex
    · have run : (conclude symbol none : MatchM η _).run m' = some (.ok ⟨endOfInput, []⟩, m') := by
        simp only [conclude, modifyGet, MonadStateOf.modifyGet, StateT.modifyGet, StateT.run]
        rw [if_pos isEnd]
        rfl
      refine ⟨_, _, run, rfl, fun inside => .eof nothing ?_⟩
      have := atEof.1 isEnd.1
      omega
    · have run : (conclude symbol none : MatchM η _).run m' =
          some (.error (.noViableToken m'.startIndex m'.input.pos), m') := by
        simp only [conclude, modifyGet, MonadStateOf.modifyGet, StateT.modifyGet, StateT.run]
        rw [if_neg isEnd]
        rfl
      refine ⟨_, _, run, rfl, fun inside => ?_⟩
      rw [started]
      refine .error nothing ?_
      by_contra atEnd
      refine isEnd ⟨atEof.2 (by omega), ?_⟩
      omega

theorem exists_bound_below {P : Nat → Nat → Prop} (mono : ∀ k b b', b ≤ b' → P k b → P k b')
    (each : ∀ k, ∃ b, P k b) (n : Nat) : ∃ b, ∀ k < n, P k b := by
  induction n with
  | zero => exact ⟨0, fun k below => absurd below (Nat.not_lt_zero k)⟩
  | succ n ih =>
    obtain ⟨b, earlier⟩ := ih
    obtain ⟨b', here⟩ := each n
    refine ⟨max b b', fun k below => ?_⟩
    rcases Nat.lt_or_eq_of_le (Nat.le_of_lt_succ below) with early | rfl
    · exact mono k b _ (Nat.le_max_left b b') (earlier k early)
    · exact mono k b' _ (Nat.le_max_right b b') here

/-- Fuel is enough for all closures of a match that begins where the input stands. -/
structure Enough (η : Type) (net : Network) (g : Grammar) (mode : Nat) (input : CharStream)
    (fuel : Nat) : Prop where
  starts : ∀ r ∈ g.tokenRules mode, Handles η net fuel ⟨net.ruleStart r, []⟩
  steps : ∀ k symbol, (rest input)[k]? = some symbol → ∀ alt θ,
    Live net g mode ((rest input).take k) alt θ →
    ∀ next ∈ net.consumeNext minChar maxChar symbol θ, Handles η net fuel next
  rounds : (rest input).length < fuel

variable (η g) in
theorem exists_enough (plain : net.Plain) (wf : WellFounded fun θ' θ => θ' ∈ net.silentNext θ)
    (mode : Nat) (input : CharStream) :
    ∃ bound, ∀ fuel, bound ≤ fuel → Enough η net g mode input fuel := by
  obtain ⟨starts, handlesStarts⟩ := exists_handles_of_finite η plain wf
    ((g.tokenRules mode).finite_toSet.image fun r => (⟨net.ruleStart r, []⟩ : Thread))
  obtain ⟨steps, handlesSteps⟩ := exists_bound_below
    (P := fun k bound => ∀ symbol, (rest input)[k]? = some symbol → ∀ alt θ,
      Live net g mode ((rest input).take k) alt θ →
      ∀ next ∈ net.consumeNext minChar maxChar symbol θ, Handles η net bound next)
    (fun k b b' le handles symbol here alt θ live next step =>
      (handles symbol here alt θ live next step).mono le)
    (fun k => by
      cases here : (rest input)[k]? with
      | none => exact ⟨0, fun symbol same => nomatch same⟩
      | some symbol =>
        obtain ⟨bound, handles⟩ := exists_handles_live η g plain wf mode
          ((rest input).take k) symbol
        refine ⟨bound, fun symbol' same => ?_⟩
        cases same
        exact handles)
    (rest input).length
  refine ⟨max (max starts steps) ((rest input).length + 1), fun fuel le => ⟨?_, ?_, by omega⟩⟩
  · intro r member
    exact (handlesStarts _ (Set.mem_image_of_mem _ member)).mono (by omega)
  · intro k symbol here alt θ live next step
    have below := (List.getElem?_eq_some_iff.1 here).1
    exact (handlesSteps k below symbol here alt θ live next step).mono (by omega)

/-- With enough fuel a match on a sound cache ends, leaves the cache sound and has the right outcome. -/
theorem matchToken_yields (plain : net.Plain) (built : net.Built g) (lexer : g.isLexer = true)
    (refreshed : Refreshed net) (known : mode < net.modeStarts.size) (hooks : LexerHooks η) {fuel : Nat}
    {m : Matcher η} (enough : Enough η net g mode m.input fuel) (sound : CacheSound net g m.cache) :
    Yields (matchToken net hooks fuel mode) m fun result m' => CacheSound net g m'.cache ∧
      (m.input.pos ≤ m.input.size → Outcome net g mode m.input m'.input result) := by
  let env : MatchEnv η := { net, hooks, mode, fuel }
  unfold matchToken
  let begun : Matcher η := { m with startIndex := m.input.pos }
  refine Yields.modify_bind (?_ : Yields _ begun _)
  let counted : Matcher η := { begun with stats := { begun.stats with tokens := begun.stats.tokens + 1 } }
  refine Yields.modify_bind (?_ : Yields _ counted _)
  have plain' : env.net.Plain := plain
  have starts : ∀ r ∈ g.tokenRules env.mode, Handles η env.net env.fuel ⟨env.net.ruleStart r, []⟩ :=
    enough.starts
  refine (startState_yields (m := counted) plain' built known starts sound).bind
    fun n m' ⟨learned, registered, holds⟩ => ?_
  refine yields_dfa_bind ?_
  refine Yields.get_bind ?_
  have start : Best net g mode (rest m.input) m.input.pos 0 none :=
    fun j below => absurd below (Nat.not_lt_zero j)
  have best := start.note (m := m') built lexer
    ((learned.sound.sound mode known).states n registered) holds (by rw [learned.input]; rfl)
  refine (run_yields (k := 0) plain' built lexer refreshed known enough.steps
    (Nat.zero_le _) (by have := enough.rounds; omega) learned.input learned.sound registered holds
    best).bind fun found m'' ended => ?_
  refine (ended.outcome learned.startIndex).imp fun result final ⟨cache, outcome⟩ => ⟨?_, outcome⟩
  rw [cache]
  exact ended.sound

/-- The caches that matches leave behind, in any order, on any inputs and with any user code. -/
inductive Reachable (net : Network) : DfaCache → Prop
  | fresh : Reachable net (.ofNetwork net)
  | matched {η : Type} {hooks : LexerHooks η} {fuel mode : Nat} {m m' : Matcher η}
      {result : Except RecognitionError TokenMatch} (before : Reachable net m.cache)
      (known : mode < net.modeStarts.size)
      (run : (matchToken net hooks fuel mode).run m = some (result, m')) : Reachable net m'.cache

theorem Reachable.sound (plain : net.Plain) (built : net.Built g) (lexer : g.isLexer = true)
    (refreshed : Refreshed net) (progressive : net.Progressive) {cache : DfaCache}
    (reachable : Reachable net cache) : CacheSound net g cache := by
  induction reachable with
  | fresh =>
    refine cacheSound_fresh ?_
    rwa [isLexer, built.kind]
  | @matched η hooks fuel mode m m' result before known run ih =>
    obtain ⟨bound, enough⟩ :=
      exists_enough η g plain (built.wellFounded_silentNext progressive) mode m.input
    have more := enough (max fuel bound) (Nat.le_max_right _ _)
    obtain ⟨result', m'', run', sound, -⟩ :=
      matchToken_yields plain built lexer refreshed known hooks more ih
    rw [matchToken_below (Nat.le_max_left fuel bound) m _ run] at run'
    cases run'
    exact sound

/-- The longest match, and of the rules that match as much the first one. -/
theorem matchToken_longest {compiled : CompiledGrammar} {verify : Bool} (assembled : g.Assembled)
    (lexer : g.isLexer = true) (run : g.compile = .ok compiled)
    (decoded : decode compiled.words verify = .ok net) (plain : net.Plain)
    (progressive : net.Progressive) (known : mode < g.modes.length) (hooks : LexerHooks η)
    (m : Matcher η) (reachable : Reachable net m.cache) (inside : m.input.pos ≤ m.input.size) :
    ∃ enough result m', (∀ fuel, enough ≤ fuel →
        (matchToken net hooks fuel mode).run m = some (result, m')) ∧
      Outcome net g mode m.input m'.input result := by
  obtain ⟨built, refreshed⟩ := Grammar.compile_built assembled run decoded
  have inModes : mode < net.modeStarts.size := by
    rw [built.numModes, if_pos lexer]
    exact known
  obtain ⟨bound, enough⟩ :=
    exists_enough η g plain (built.wellFounded_silentNext progressive) mode m.input
  obtain ⟨result, m', ends, -, outcome⟩ :=
    matchToken_yields plain built lexer refreshed inModes hooks (enough bound (Nat.le_refl _))
      (reachable.sound plain built lexer refreshed progressive)
  exact ⟨bound, result, m', fun fuel le => matchToken_below le m _ ends, outcome inside⟩

/-- A lexer of a keyword and of words, which are spelled with a fragment. -/
def keywordLexer : Grammar :=
  (((Grammar.lexer "Keywords").rule "IF" (.literal "if")).rule "WORD"
    (.repeated .plus true (.rule "LETTER" 0))).fragment "LETTER" (.range 97 122)

/-- The words of the keyword lexer. -/
def keywordCompiled : CompiledGrammar := (keywordLexer.compile.toOption).getD default

/-- The network of the keyword lexer. -/
def keywordNetwork : Network := ((decode keywordCompiled.words true).toOption).getD default

theorem keyword_read : (keywordLexer.compile = .ok keywordCompiled ∧
      decode keywordCompiled.words true = .ok keywordNetwork) ∧
    keywordNetwork.Progressive ∧ keywordNetwork.Plain := by
  refine ⟨⟨?compiles, ?decodes⟩, progressive_of_rank
    (fun n => [2, 0, 4, 0, 1, 0, 5, 1, 0, 1, 0, 1, 2, 6, 3, 5, 4, 1, 0, 1].getD n 0)
    (fun n => [1, 3, 5, 11, 13, 15, 16, 17, 19].contains n) ?stops ?falls, ?unguarded, ?noEof, ?greedy⟩
  case compiles =>
    rw [keywordCompiled]
    exact except_ok_getD (by decide +kernel)
  case decodes =>
    rw [keywordNetwork]
    exact except_ok_getD (by decide +kernel)
  all_goals decide +kernel

theorem matchToken_longest_keyword : ∃ enough result m', (∀ fuel, enough ≤ fuel →
      (matchToken keywordNetwork LexerHooks.silent fuel 0).run
        { cache := .ofNetwork keywordNetwork, input := .ofString "iffy 1", hooks := () } =
          some (result, m')) ∧
    Outcome keywordNetwork keywordLexer 0 (.ofString "iffy 1") m'.input result := by
  have assembled : keywordLexer.Assembled :=
    .fragment "LETTER" _ (.rule "WORD" _ (.rule "IF" _ (.lexer "Keywords")))
  obtain ⟨⟨compiles, decodes⟩, progressive, plain⟩ := keyword_read
  have modes : 0 < keywordLexer.modes.length := by decide
  have reached (cache : DfaCache) (reachable : Reachable keywordNetwork cache) :=
    matchToken_longest assembled rfl compiles decodes plain progressive modes LexerHooks.silent
      { cache, input := .ofString "iffy 1", hooks := () } reachable (Nat.zero_le _)
  exact reached _ .fresh

/-- A lexer with one rule, which ends with a part that is only taken if need be. -/
def reluctantLexer : Grammar :=
  (Grammar.lexer "Reluctant").rule "A" (.seq [.literal "a", .repeated .optional false (.literal "b")])

/-- The words of the reluctant lexer. -/
def reluctantCompiled : CompiledGrammar := (reluctantLexer.compile.toOption).getD default

/-- The network of the reluctant lexer. -/
def reluctantNetwork : Network := ((decode reluctantCompiled.words true).toOption).getD default

/-- A match of the reluctant lexer, which has not learned anything. -/
def reluctantMatch (fuel : Nat) : Option (Except RecognitionError TokenMatch × Matcher Unit) :=
  (matchToken reluctantNetwork LexerHooks.silent fuel 0).run
    { cache := .ofNetwork reluctantNetwork, input := .ofString "ab", hooks := () }

theorem reluctant_read : (reluctantLexer.compile = .ok reluctantCompiled ∧
      decode reluctantCompiled.words true = .ok reluctantNetwork) ∧
    reluctantNetwork.Progressive ∧ reluctantNetwork.actions = #[] ∧
    (∀ s ∈ reluctantNetwork.states.toList,
      (∀ t ∈ s.transitions, t.label.isGuard = false ∧ t.label.accepts endOfInput minChar maxChar = false) ∧
      (s.nonGreedy = true → s.kind = .blockStart .basic (some 10))) ∧
    reluctantNetwork.Recognizes minChar maxChar 0 [97, 98] ∧
    (reluctantMatch 4).map (fun found => (found.1.toOption.map (·.type), found.2.input.pos)) =
      some (some 1, 1) := by
  refine ⟨⟨?compiles, ?decodes⟩, progressive_of_rank (fun n => [2, 0, 3, 1, 0, 3, 1, 0, 2, 2, 1].getD n 0)
    (fun n => [1, 5, 8, 9, 10].contains n) ?stops ?falls, ?actions, ?plain, ?recognizes, ?ends⟩
  case compiles =>
    rw [reluctantCompiled]
    exact except_ok_getD (by decide +kernel)
  case decodes =>
    rw [reluctantNetwork]
    exact except_ok_getD (by decide +kernel)
  case recognizes =>
    have start : reluctantNetwork.ruleStart 0 = 0 := by decide +kernel
    have free : ∀ step ∈ [(0, 3), (3, 4), (5, 9), (9, 6), (6, 7), (8, 10), (10, 1)],
        reluctantNetwork.isStop step.1 = false ∧ .free step.2 ∈ reluctantNetwork.moves step.1 := by decide +kernel
    have consume : ∀ step ∈ [(4, 97, 5), (7, 98, 8)], reluctantNetwork.isStop step.1 = false ∧
        (⟨step.2.2, .atom step.2.1⟩ : Transition) ∈ reluctantNetwork.out step.1 := by decide +kernel
    have glide (n m : Nat) {w : List Int} (rest : reluctantNetwork.Path minChar maxChar m w 1)
        (listed : (n, m) ∈ [(0, 3), (3, 4), (5, 9), (9, 6), (6, 7), (8, 10), (10, 1)]) :
        reluctantNetwork.Path minChar maxChar n w 1 :=
      .free (free (n, m) listed).1 (free (n, m) listed).2 rest
    have eat (n m : Nat) (symbol : Int) {w : List Int} (rest : reluctantNetwork.Path minChar maxChar m w 1)
        (listed : (n, symbol, m) ∈ [(4, 97, 5), (7, 98, 8)])
        (accepts : (Label.atom symbol).accepts symbol minChar maxChar = true) :
        reluctantNetwork.Path minChar maxChar n (symbol :: w) 1 :=
      .consume (consume (n, symbol, m) listed).1 (consume (n, symbol, m) listed).2 accepts rest
    have behind : reluctantNetwork.Path minChar maxChar 8 [] 1 :=
      glide 8 10 (glide 10 1 (.stay 1) (by decide)) (by decide)
    have optional : reluctantNetwork.Path minChar maxChar 9 [98] 1 :=
      glide 9 6 (glide 6 7 (eat 7 8 98 behind (by decide) (by decide)) (by decide)) (by decide)
    have whole : reluctantNetwork.Path minChar maxChar 4 [97, 98] 1 :=
      eat 4 5 97 (glide 5 9 optional (by decide)) (by decide) (by decide)
    refine ⟨1, by unfold EndsRule; decide +kernel, ?_⟩
    rw [start]
    exact glide 0 3 (glide 3 4 whole (by decide)) (by decide)
  all_goals decide +kernel

/-- An optional part that is only taken if need be cuts the match short: the rule recognizes the whole text,
and the match ends before the part. No loop of the lexer prefers to stop early. -/
theorem matchToken_reluctant :
    (reluctantLexer.Assembled ∧ reluctantLexer.isLexer = true ∧ reluctantLexer.compile = .ok reluctantCompiled ∧
      decode reluctantCompiled.words true = .ok reluctantNetwork) ∧
    (reluctantNetwork.Progressive ∧ reluctantNetwork.actions = #[] ∧
      ∀ s ∈ reluctantNetwork.states.toList,
        (∀ t ∈ s.transitions, t.label.isGuard = false ∧ t.label.accepts endOfInput minChar maxChar = false) ∧
        (s.nonGreedy = true → s.kind = .blockStart .basic (some 10))) ∧
    reluctantNetwork.Recognizes minChar maxChar 0 ((CharStream.ofString "ab").symbols 0 2) ∧
    ∀ fuel ≥ 4, ∃ result m', reluctantMatch fuel = some (result, m') ∧ m'.input.pos = 1 ∧
      ¬ Outcome reluctantNetwork reluctantLexer 0 (.ofString "ab") m'.input result := by
  obtain ⟨⟨compiles, decodes⟩, progressive, inactive, plain, recognizes, ends⟩ := reluctant_read
  have whole : (CharStream.ofString "ab").symbols 0 2 = [97, 98] := by decide
  have tokenRule : 0 ∈ reluctantLexer.tokenRules 0 := by decide
  rw [whole]
  refine ⟨⟨.rule "A" _ (.lexer "Reluctant"), rfl, compiles, decodes⟩, ⟨progressive, inactive, plain⟩, recognizes,
    fun fuel enough => ?_⟩
  obtain ⟨⟨result, m'⟩, ran, facts⟩ := Option.map_eq_some_iff.1 ends
  simp only [Prod.mk.injEq] at facts
  refine ⟨result, m', matchToken_below enough _ _ ran, facts.2, fun outcome => ?_⟩
  have missed : ¬ NoRule reluctantNetwork reluctantLexer 0 ((CharStream.ofString "ab").symbols 0 2) := by
    rw [whole]
    exact fun none' => none' 0 tokenRule recognizes
  cases outcome with
  | @token j r actions longest moved =>
    obtain rfl : j = 1 := by rw [← facts.2, moved]
    exact missed (longest.longest 2 (by decide) (by decide))
  | eof nothing atEnd => exact missed (nothing 2 (by decide) (by decide))
  | error nothing before => exact missed (nothing 2 (by decide) (by decide))

end Lexer

end AdaptiveLL
