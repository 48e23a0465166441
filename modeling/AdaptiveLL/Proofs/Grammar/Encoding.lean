import AdaptiveLL.Proofs.Grammar.Labels
import AdaptiveLL.Proofs.Grammar.Loading

/-!
# Encoding the symbols of a lexer

A lexer whose symbols are code points is written without regard to the 16-bit limit: a symbol above it becomes a set,
and a set with such a symbol takes two words for each end of an interval. The limit itself is the exception. Single
symbols, ranges and sets up to 0xFFFF are kept in one word for each symbol, and this word stands for "none", so a lexer
is refused where 0xFFFF is the greatest symbol of a leaf, and for no other symbol (`Grammar.compile_symbols`).

The counts and indices are assumed to be below 0xFFFF. That makes the network bounded (`LaidOut.bounded`), and whatever
fails before the network is written fails for another reason (`Grammar.encode_of_compile`).
-/

set_option autoImplicit false

namespace AdaptiveLL

namespace Element

/-- The symbols of a leaf are code points. -/
def CodePoints : Element → Prop
  | .symbol v => 0 ≤ v ∧ v ≤ 0x10FFFF
  | .range lo hi => 0 ≤ lo ∧ hi ≤ 0x10FFFF
  | .set s | .notSet s => s.Canonical ∧ ∀ v, s.contains v = true → 0 ≤ v ∧ v ≤ 0x10FFFF
  | _ => True

/-- The indices of predicates and custom actions are below the reserved word. -/
def Indexed : Element → Prop
  | .predicate pred _ => pred < 0xFFFF
  | .action i => i < 0xFFFF
  | .command a => ∀ rule index, a = .custom rule index → rule < 0xFFFF ∧ index < 0xFFFF
  | _ => True

theorem CodePoints.representable {e : Element} (codePoints : e.CodePoints) (indexed : e.Indexed) :
    e.Representable := by
  cases e with
  | symbol v | range lo hi =>
    obtain ⟨low, high⟩ := codePoints
    exact ⟨by omega, by omega⟩
  | set s | notSet s =>
    obtain ⟨canonical, bounds⟩ := codePoints
    refine ⟨canonical, fun v member => ?_, fun v member => ?_⟩
    all_goals
      have := bounds v member
      omega
  | predicate pred ctx => exact Nat.lt_trans indexed (by decide)
  | action i => exact Nat.lt_trans indexed (by decide)
  | _ => trivial

theorem Indexed.smallActions {e : Element} (indexed : e.Indexed) (lexer : Bool) : e.SmallActions lexer := by
  cases e with
  | action i => exact fun _ => Nat.lt_trans indexed (by decide)
  | command a =>
    intro rule index isCustom
    obtain ⟨rule_lt, index_lt⟩ := indexed rule index isCustom
    exact ⟨Nat.lt_trans rule_lt (by decide), Nat.lt_trans index_lt (by decide)⟩
  | _ => trivial

end Element

/-- The counts of states, edges, sets, intervals and actions are below the reserved word. The rules and the modes have
states of their own, so there are no more of them than states. -/
structure Network.Few (net : Network) : Prop where
  states : net.states.size < 0xFFFF
  edges : (Encode.writtenTransitions net).length < 0xFFFF
  sets : net.referredSets.length < 0xFFFF
  intervals : ∀ s ∈ net.referredSets, s.intervals.length < 0xFFFF
  actions : net.actions.size < 0xFFFF

instance (net : Network) : Decidable net.Few :=
  decidable_of_iff (net.states.size < 0xFFFF ∧ (Encode.writtenTransitions net).length < 0xFFFF ∧
      net.referredSets.length < 0xFFFF ∧ (∀ s ∈ net.referredSets, s.intervals.length < 0xFFFF) ∧
      net.actions.size < 0xFFFF)
    ⟨fun ⟨states, edges, sets, intervals, actions⟩ => ⟨states, edges, sets, intervals, actions⟩,
      fun ⟨states, edges, sets, intervals, actions⟩ => ⟨states, edges, sets, intervals, actions⟩⟩

namespace Grammar

/-- The symbols of a grammar are code points. -/
def CodePoints (g : Grammar) : Prop := ∀ r ∈ g.rules, ∀ e ∈ r.body.leaves, e.CodePoints

/-- Some leaf of the grammar names the reserved symbol as its greatest. -/
def NamesReserved (g : Grammar) : Prop := ∃ r ∈ g.rules, ∃ e ∈ r.body.leaves, 0xFFFF ∈ e.greatest

/-- The indices of the predicates and custom actions of a grammar are below the reserved word. -/
def Indexed (g : Grammar) : Prop := ∀ r ∈ g.rules, ∀ e ∈ r.body.leaves, e.Indexed

/-- A lexer names no tokens of another grammar. -/
theorem Assembled.vocabulary {g : Grammar} (assembled : g.Assembled) (lexer : g.isLexer = true) :
    g.vocabulary = {} := by
  induction assembled with
  | lexer name => rfl
  | parser name vocabulary => simp [Grammar.parser, isLexer] at lexer
  | rule name body before ih => exact ih lexer
  | fragment name body before ih => exact ih lexer
  | leftRecursive name primaries ops before ih => exact ih lexer
  | mode name before ih => exact ih lexer
  | @setVersion g name version before ih =>
    have same : (g.setVersion name version).isLexer = g.isLexer ∧
        (g.setVersion name version).vocabulary = g.vocabulary := by
      unfold Grammar.setVersion
      split <;> exact ⟨rfl, rfl⟩
    rw [same.2]
    exact ih (same.1.symm.trans lexer)

end Grammar

/-! ## Labels of a lexer -/

/-- A single symbol is a label of its own up to the limit, and a set above it. -/
theorem Layout.atomLabel_bounded {v : Int} (low : 0 ≤ v) : (atomLabel v).Bounded := by
  unfold atomLabel
  split
  · trivial
  · rename_i small
    exact .inr ⟨low, by omega⟩

namespace Asks

variable {g : Grammar} {rule : Nat} {e : Element} {label : Label}

/-- But for the end of the input, a label of a lexer names the greatest symbol of its leaf. -/
theorem greatest (vocabulary : g.vocabulary = {}) (lexer : g.isLexer = true) (asks : Asks g rule e label) {v : Int}
    (named : label.greatest? = some v) (symbol : v ≠ endOfInput) : v ∈ e.greatest := by
  have noToken (name : String) : g.vocabulary.tokenType name = none := by rw [vocabulary]; rfl
  cases asks with
  | call precedence follow known => cases named
  | char _ among =>
    rw [Layout.greatest_atomLabel] at named
    cases named
    exact List.mem_map_of_mem among
  | edge labelled =>
    cases labelled with
    | symbol w =>
      rw [Layout.greatest_atomLabel] at named
      cases named
      exact List.mem_singleton_self _
    | token known =>
      rw [noToken] at known
      cases known
    | literal parser known =>
      rw [lexer] at parser
      cases parser
    | range inhabited =>
      rw [Layout.greatest_rangeLabel inhabited] at named
      cases named
      exact List.mem_singleton_self _
    | set s | notSet s => exact Option.mem_toList.2 named
    | eof =>
      cases named
      exact absurd rfl symbol
    | _ => cases named

/-- The numbers of a label of a lexer are bounded as those of its leaf are. -/
theorem bounded {count : Nat} (lexer : g.isLexer = true) (codePoints : e.CodePoints) (indexed : e.Indexed)
    (few : g.rules.length < 0xFFFF) (fewActions : count < 0xFFFF) (known : rule < g.rules.length)
    (fits : g.LabelFits count label) (call : ∀ r p follow, label = .rule r p follow → follow < 0xFFFF)
    (asks : Asks g rule e label) : label.Bounded := by
  cases asks with
  | @call _ callee precedence follow index => exact ⟨Nat.lt_trans (g.ruleIndex_lt index) few, call _ _ _ rfl⟩
  | char _ among => exact Layout.atomLabel_bounded (by omega)
  | edge labelled =>
    cases labelled with
    | symbol v => exact Layout.atomLabel_bounded codePoints.1
    | token | literal => exact Layout.atomLabel_bounded (by omega)
    | @range lo hi inhabited =>
      unfold Layout.rangeLabel
      split
      · exact Layout.atomLabel_bounded codePoints.1
      · split
        · trivial
        · rename_i small
          exact ⟨codePoints.1, inhabited, by omega⟩
    | eof => exact .inl rfl
    | predicate pred ctx => exact ⟨Nat.lt_trans known few, indexed⟩
    | precedence p =>
      cases lexer.symm.trans fits.1
    | action i place | command a place =>
      obtain ⟨-, place', same, below⟩ := fits
      rw [if_pos lexer] at below
      exact ⟨Nat.lt_trans known few, place', same, Nat.lt_trans below fewActions⟩
    | _ => trivial

/-- The set of a label is canonical, and its members are code points. -/
theorem set_bounded (codePoints : e.CodePoints) (asks : Asks g rule e label) {s : SymbolSet}
    (refers : Encode.SetTable.referred? label = some s) :
    s.Canonical ∧ ∀ v, s.contains v = true → 0 ≤ v := by
  have interval {lo hi : Int} (low : 0 ≤ lo) :
      (SymbolSet.ofRange lo hi).Canonical ∧ ∀ v, (SymbolSet.ofRange lo hi).contains v = true → 0 ≤ v := by
    refine ⟨SymbolSet.canonical_ofRange lo hi, fun v member => ?_⟩
    have := (SymbolSet.contains_ofRange lo hi v).1 member
    omega
  have atom {v : Int} (low : 0 ≤ v) (refers : Encode.SetTable.referred? (Layout.atomLabel v) = some s) :
      s.Canonical ∧ ∀ v, s.contains v = true → 0 ≤ v := by
    unfold Layout.atomLabel at refers
    split at refers
    · cases refers
      exact interval low
    · cases refers
  cases asks with
  | call precedence follow index => cases refers
  | char _ among => exact atom (by omega) refers
  | edge labelled =>
    cases labelled with
    | symbol v => exact atom codePoints.1 refers
    | token | literal => exact atom (by omega) refers
    | @range lo hi inhabited =>
      unfold Layout.rangeLabel at refers
      split at refers
      · exact atom codePoints.1 refers
      · split at refers
        · cases refers
          exact interval codePoints.1
        · cases refers
    | set s' | notSet s' =>
      cases refers
      exact ⟨codePoints.1, fun v member => (codePoints.2 v member).1⟩
    | _ => cases refers

end Asks

/-! ## The network of a lexer -/

namespace Grammar

theorem mem_typesFrom {next : Int} {rules : List RuleDef} {t : Int} (member : t ∈ typesFrom next rules) :
    t = 0 ∨ next ≤ t ∧ t < next + rules.length := by
  induction rules generalizing next with
  | nil => cases member
  | cons r rules ih =>
    rw [typesFrom] at member
    rw [List.length_cons]
    split at member
    · rcases List.mem_cons.1 member with rfl | rest
      · exact .inl rfl
      · exact (ih rest).imp_right fun bounds => by omega
    · rcases List.mem_cons.1 member with rfl | rest
      · exact .inr (by omega)
      · exact (ih rest).imp_right fun bounds => by omega

/-- Every token type of a lexer is that of a rule. -/
theorem maxTokenType_le {g : Grammar} (lexer : g.isLexer = true) : g.maxTokenType ≤ g.rules.length := by
  have few (name : RuleDef → Option String) : (g.tokenNames name).length ≤ g.rules.length + 1 := by
    rw [tokenNames, List.length_cons, List.length_map]
    exact Nat.succ_le_succ (List.length_filter_le _ _)
  have literals := few (literal? ·.body)
  have symbols := few (some ·.name)
  simp only [maxTokenType, GrammarInfo.maxTokenType, lexer, if_true, info]
  omega

end Grammar

namespace Network

variable {net : Network} {g : Grammar}

/-- No state owns two decisions. -/
theorem Equipped.decisions_le (equipped : net.Equipped g) : net.decisions.size ≤ net.states.size := by
  have nodup : net.decisions.toList.Nodup := by
    apply List.nodup_iff_injective_getElem.2
    intro d d' same
    have owner (d : Fin net.decisions.toList.length) : (net.state net.decisions.toList[d]).decision = some d.1 := by
      apply (equipped.decides d.1 _ _).1
      rw [← Array.getElem?_toList, List.getElem?_eq_getElem d.2]
      rfl
    have sameOwner := congrArg (fun n => (net.state n).decision) same
    exact Fin.ext (Option.some.inj ((owner d).symm.trans (sameOwner.trans (owner d'))))
  have inside : net.decisions.toList ⊆ List.range net.states.size :=
    fun n member => List.mem_range.2 (Layout.decision_known equipped member).1
  have le := (nodup.subperm inside).length_le
  rwa [List.length_range, Array.length_toList] at le

namespace LaidOut

theorem two_mul_rules (laid : net.LaidOut g) : 2 * g.rules.length ≤ net.states.size := by
  rcases Nat.eq_zero_or_pos g.rules.length with none' | some'
  · omega
  · have := Layout.ends_inside laid (r := g.rules.length - 1) (by omega)
    omega

theorem modes_le (laid : net.LaidOut g) : net.modeStarts.size ≤ net.states.size := by
  rcases Nat.eq_zero_or_pos net.modeStarts.size with none' | some'
  · omega
  · have kind := (laid.modeState (net.modeStarts.size - 1) (by omega)).1
    by_contra outside
    rw [state_of_le (by omega)] at kind
    cases kind

theorem owner_lt (laid : net.LaidOut g) {n r : Nat} (owner : (net.state n).rule = some r) : r < g.rules.length := by
  have inside : n < net.states.size := by
    by_contra outside
    rw [state_of_le (Nat.not_lt.1 outside)] at owner
    cases owner
  rcases laid.states_cases inside with ⟨i, known, rfl | rfl⟩ | ⟨mode, known, rfl⟩ |
    ⟨i, r', seg, lo, hi, found, body, low, high⟩
  · rw [(laid.startState i known).2] at owner
    cases owner
    exact known
  · rw [(laid.stopState i known).2.1] at owner
    cases owner
    exact known
  · rw [(laid.modeState mode known).2.1] at owner
    cases owner
  · rw [body.owner n low high] at owner
    cases owner
    exact (List.getElem?_eq_some_iff.1 found).1

/-- The network of a lexer of code points is bounded if it has few states and edges. -/
theorem bounded (laid : net.LaidOut g) (outfitted : Layout.Outfitted g net) (lexer : g.isLexer = true)
    (codePoints : g.CodePoints) (indexed : g.Indexed) (few : net.Few) : net.Bounded := by
  have equipped := outfitted.equipped
  have states := few.states
  have rules := laid.two_mul_rules
  have asked {n : Nat} {t : Transition} (leaves : t ∈ net.out n) := laid.asked leaves
  have linked {n : Nat} {kind : StateKind} (isKind : (net.state n).kind = kind) (valid : kind ≠ .invalid) :
      net.Fits n := outfitted.fits_of_valid (by rwa [isKind])
  constructor
  case toGrounded => exact Layout.grounded laid outfitted
  case fewStates => exact states
  case fewRules => rw [laid.numRules]; omega
  case fewModes => exact Nat.lt_of_le_of_lt laid.modes_le states
  case fewSets => exact few.sets
  case fewEdges => exact few.edges
  case fewDecisions => exact Nat.lt_of_le_of_lt equipped.decisions_le states
  case maxTokenType =>
    have greatest := Grammar.maxTokenType_le lexer
    rw [laid.maxTokenType]
    exact ⟨Int.le_max_right _ _, by omega⟩
  case tokenType =>
    intro t member
    rw [laid.ruleTypes, if_pos lexer] at member
    have := Grammar.mem_typesFrom member
    have least : minTokenType = 1 := rfl
    omega
  case owner =>
    intro n r owner
    have := laid.owner_lt owner
    omega
  case linked =>
    refine fun n => ⟨fun kind => ?_, fun block kind => ?_⟩
    · cases linked kind (by simp) <;> simp_all
    · cases linked kind (by simp) <;> simp_all
  case decision => exact fun n member => (Layout.decision_known equipped member).1
  case target => exact fun n t leaves => (Layout.target_inside laid leaves).1
  case label =>
    intro n t leaves
    rcases asked leaves with silent | ⟨i, r, found, e, leaf, asks⟩
    · rw [silent]
      trivial
    · have known := List.mem_of_getElem? found
      apply asks.bounded lexer (codePoints r known e leaf) (indexed r known e leaf) (by omega) few.actions
        (List.getElem?_eq_some_iff.1 found).1 (equipped.labels n t leaves)
      intro r p follow label
      exact Nat.lt_trans ((Layout.target_inside laid leaves).2 r p follow label) states
  case set =>
    intro s member
    obtain ⟨n, t, leaves, refers⟩ := mem_referredSets.1 member
    rcases asked leaves with silent | ⟨i, r, found, e, leaf, asks⟩
    · rw [silent] at refers
      cases refers
    · obtain ⟨canonical, low⟩ := asks.set_bounded (codePoints r (List.mem_of_getElem? found) e leaf) refers
      exact ⟨canonical, low, few.intervals s member⟩
  case stop =>
    intro n isStop
    obtain ⟨r, known, rfl, -⟩ := Layout.stop_owner laid isStop
    exact (laid.stopState r known).2.2

/-- Some label names the reserved symbol as its greatest exactly when some leaf does. -/
theorem namesReserved_iff (laid : net.LaidOut g) (assembled : g.Assembled) (lexer : g.isLexer = true) :
    (∃ n, ∃ t ∈ net.out n, t.label.greatest? = some 0xFFFF) ↔ g.NamesReserved := by
  constructor
  · rintro ⟨n, t, leaves, greatest⟩
    rcases laid.asked leaves with silent | ⟨i, r, found, e, leaf, asks⟩
    · rw [silent] at greatest
      cases greatest
    · have among := asks.greatest (assembled.vocabulary lexer) lexer greatest (by decide)
      exact ⟨r, List.mem_of_getElem? found, e, leaf, among⟩
  · rintro ⟨r, member, e, leaf, among⟩
    exact laid.names lexer member e leaf _ among

end LaidOut

end Network

/-! ## Compiling -/

namespace Grammar

variable {α β : Type} {g : Grammar} {known : Array Bool} {name : String}

/-- The step does not fail in writing. -/
def Wordless (x : Except BuildError α) : Prop := ∀ e, x ≠ .error (.encode e)

theorem wordless_ok (a : α) : Wordless (.ok a) := nofun

theorem Wordless.bind {x : Except BuildError α} {f : α → Except BuildError β} (first : Wordless x)
    (next : ∀ a, Wordless (f a)) : Wordless (x >>= f) := by
  cases x with
  | error e =>
    intro e' same
    cases same
    exact first e' rfl
  | ok a => exact next a

/-- What fails in writing gets past the step. -/
theorem Wordless.passed {x : Except BuildError α} {f : α → Except BuildError β} (first : Wordless x) {e : EncodeError}
    (refused : x >>= f = .error (.encode e)) : ∃ a, x = .ok a ∧ f a = .error (.encode e) := by
  cases x with
  | error e' =>
    cases refused
    exact absurd rfl (first e)
  | ok a => exact ⟨a, rfl, refused⟩

theorem Wordless.foldlM {γ : Type} {f : β → γ → Except BuildError β} (each : ∀ b c, Wordless (f b c)) (cs : List γ)
    (b : β) : Wordless (cs.foldlM f b) := by
  induction cs generalizing b with
  | nil => exact wordless_ok b
  | cons c cs ih => exact (each b c).bind ih

theorem Wordless.forM {γ : Type} {f : γ → Except BuildError Unit} (each : ∀ c, Wordless (f c)) (cs : List γ) :
    Wordless (cs.forM f) := by
  induction cs with
  | nil => exact wordless_ok ()
  | cons c cs ih => exact (each c).bind fun _ => ih

theorem wordless_ruleIndex (name : String) : Wordless (g.ruleIndex name) := by
  intro e
  unfold ruleIndex
  split <;> simp

mutual

theorem wordless_nullable (e : Element) : Wordless (g.nullable known e) := by
  match e with
  | .rule name _ => exact (wordless_ruleIndex name).bind fun _ => wordless_ok _
  | .seq es => exact wordless_nullableAll es
  | .alt es => exact wordless_nullableAny es
  | .repeated .plus _ body => exact wordless_nullable body
  | .repeated .star _ _ | .repeated .optional _ _ | .symbol _ | .token _ | .literal _ | .range _ _ | .set _ | .notSet _
  | .wildcard | .eof | .predicate _ _ | .precedence _ | .action _ | .command _ => exact wordless_ok _

theorem wordless_nullableAll (es : List Element) : Wordless (g.nullableAll known es) := by
  match es with
  | [] => exact wordless_ok true
  | e :: rest =>
    apply (wordless_nullable e).bind
    intro b
    split
    · exact wordless_nullableAll rest
    · exact wordless_ok _

theorem wordless_nullableAny (es : List Element) : Wordless (g.nullableAny known es) := by
  match es with
  | [] => exact wordless_ok false
  | e :: rest =>
    apply (wordless_nullable e).bind
    intro b
    split
    · exact wordless_ok _
    · exact wordless_nullableAny rest

end

theorem wordless_nullableRules : Wordless g.nullableRules := by
  have mark (known : Array Bool) (r : RuleDef × Nat) : Wordless (g.markNullable known r) := by
    unfold markNullable
    split
    · exact wordless_ok _
    · apply (wordless_nullable _).bind
      intro b
      split <;> exact wordless_ok _
  have passes (n : Nat) (known : Array Bool) : Wordless (g.nullablePasses n known) := by
    induction n generalizing known with
    | zero => exact wordless_ok known
    | succ n ih =>
      apply (Wordless.foldlM mark _ known).bind
      intro next
      split
      · exact wordless_ok _
      · exact ih next
  exact passes _ _

mutual

theorem wordless_checkLoops (e : Element) : Wordless (g.checkLoops known name e) := by
  have loop (body : Element) (inner : Wordless (g.checkLoops known name body)) : Wordless (do
      if ← g.nullable known body then throw (.emptyLoop name)
      g.checkLoops known name body) := by
    apply (wordless_nullable body).bind
    intro b
    split
    · exact nofun
    · exact inner
  match e with
  | .repeated .optional _ body => exact wordless_checkLoops body
  | .repeated .star _ body => exact loop body (wordless_checkLoops body)
  | .repeated .plus _ body => exact loop body (wordless_checkLoops body)
  | .seq es => exact wordless_checkLoopsAll es
  | .alt es => exact wordless_checkLoopsAll es
  | .symbol _ | .token _ | .literal _ | .range _ _ | .set _ | .notSet _ | .wildcard | .eof | .rule _ _ | .predicate _ _
  | .precedence _ | .action _ | .command _ => exact wordless_ok ()

theorem wordless_checkLoopsAll (es : List Element) : Wordless (g.checkLoopsAll known name es) := by
  match es with
  | [] => exact wordless_ok ()
  | e :: rest => exact (wordless_checkLoops e).bind fun _ => wordless_checkLoopsAll rest

end

theorem wordless_checkMode (a : LexerAction) : Wordless (g.checkMode a) := by
  intro e
  unfold checkMode
  split <;> simp

/-- The words that are refused are those of the network. -/
theorem encode_of_compile {net : Network} {e : EncodeError} (layout : g.layOut = .ok net)
    (refused : g.compile = .error (.encode e)) : net.encode = .error e := by
  unfold compile at refused
  split at refused
  · cases refused
  · obtain ⟨known, -, refused⟩ := wordless_nullableRules.passed refused
    obtain ⟨_, -, refused⟩ := (Wordless.forM (fun r => wordless_checkLoops _) g.rules).passed refused
    rw [layout] at refused
    obtain ⟨_, -, refused⟩ := (Wordless.forM wordless_checkMode net.actions.toList).passed refused
    split at refused
    · cases refused
    · cases refused
      assumption

/-- 0xFFFF is the one code point that may not fit. Where a lexer of code points is refused in writing, this is for a
leaf with this greatest symbol or for something else than a symbol, and with such a leaf it is always refused. What is
read from the words has the sets that were written, and transitions with the labels that were written. -/
theorem compile_symbols {g : Grammar} {net : Network} (assembled : g.Assembled) (lexer : g.isLexer = true)
    (codePoints : g.CodePoints) (indexed : g.Indexed) (layout : g.layOut = .ok net) (few : net.Few) :
    (∀ e, g.compile = .error (.encode e) → net.Otherwise e ∨ g.NamesReserved ∧ e = .wordRange 0xFFFF) ∧
      (g.NamesReserved → ∃ e, g.compile = .error e) ∧
      ∀ compiled, g.compile = .ok compiled → ∃ read, (∀ verify, Network.decode compiled.words verify = .ok read) ∧
        read.sets.toList = net.referredSets ∧
        ∀ n, (net.state n).kind.isRuleStop = false → read.out n = net.out n := by
  have laid := layOut_laidOut assembled.moded layout
  have representable : g.Representable := fun r member e leaf =>
    (codePoints r member e leaf).representable (indexed r member e leaf)
  have smallActions : g.SmallActions := fun r member e leaf => (indexed r member e leaf).smallActions _
  have rules := laid.two_mul_rules
  have states := few.states
  have smallRules : ∀ rule < g.rules.length, Layout.SmallRule g rule := fun rule inside =>
    ⟨inside, by omega, fun parser => by simp [lexer] at parser⟩
  have outfitted := layOut_outfitted assembled.moded representable smallRules layout
  have fails := (laid.bounded outfitted lexer codePoints indexed few).fails_encode.congr
    (laid.namesReserved_iff assembled lexer)
  refine ⟨fun e refused => fails.cause e (encode_of_compile layout refused), fun reserved => ?_, fun compiled run => ?_⟩
  · cases run : g.compile with
    | error e => exact ⟨e, rfl⟩
    | ok compiled =>
      obtain ⟨_, net', -, -, layout', -, encoded⟩ := compile_steps run
      cases layout.symm.trans layout'
      obtain ⟨e, refused⟩ := fails.fails reserved
      cases encoded.symm.trans refused
  · -- The restored network has the transitions that were written, and its table of sets is the one that the reader
    -- derives, whatever actions it finds.
    obtain ⟨laid', read, layout', decoded, restored, -⟩ := compile_loads assembled representable smallActions run
    cases layout.symm.trans layout'
    obtain ⟨_, net', -, -, layout', -, encoded⟩ := compile_steps run
    cases layout.symm.trans layout'
    obtain ⟨derived, derives, isDerived⟩ := Layout.derive_run laid outfitted
    have restorable := Layout.restorable laid outfitted encoded (by omega)
    obtain ⟨actions, rfl⟩ := Network.of_decode_encode restorable encoded derives (decoded false)
    have sets : derived.sets = net.referredSets.toArray := isDerived.tables.sets
    refine ⟨_, decoded, ?_, fun n inner => (restored.out n inner).1⟩
    change derived.sets.toList = net.referredSets
    rw [sets, List.toList_toArray]

/-- A lexer of symbols on both sides of the 16-bit limit. -/
def planesLexer : Grammar :=
  (((Grammar.lexer "Planes").rule "LOW" (.seq [.symbol 0xFFFE, .range 0xE000 0xFFFE, .notSet (.ofRange 0 0xFFFE)])).rule
    "ACROSS" (.seq [.range 0xFFFF 0x10000, .set (.ofRanges [(0x41, 0x5A), (0xFFFF, 0x10FFFF)])])).rule
      "HIGH" (.seq [.symbol 0x10000, .literal "a😀", .notSet (.singleton 0x10FFFF)])

theorem compile_symbols_planes : planesLexer.CodePoints ∧ planesLexer.Indexed ∧ ¬ planesLexer.NamesReserved ∧
    ∃ net compiled read, planesLexer.layOut = .ok net ∧ net.Few ∧ planesLexer.compile = .ok compiled ∧
      (∀ verify, Network.decode compiled.words verify = .ok read) ∧ read.sets.toList = net.referredSets ∧
      ∀ n, (net.state n).kind.isRuleStop = false → read.out n = net.out n := by
  have assembled : planesLexer.Assembled := .rule "HIGH" _ (.rule "ACROSS" _ (.rule "LOW" _ (.lexer "Planes")))
  have leaves : ∀ r ∈ planesLexer.rules, ∀ e ∈ r.body.leaves, e.CodePoints ∧ e.Indexed ∧ 0xFFFF ∉ e.greatest := by
    intro r member e leaf
    simp only [planesLexer, Grammar.rule, Grammar.addRule, Grammar.lexer, List.nil_append, List.cons_append,
      List.mem_cons, List.not_mem_nil, or_false] at member
    rcases member with rfl | rfl | rfl
    all_goals
      simp only [Element.leaves, Element.leavesAll, List.append_nil, List.cons_append, List.nil_append,
        List.mem_cons, List.not_mem_nil, or_false] at leaf
    · rcases leaf with rfl | rfl | rfl
      · exact ⟨by simp [Element.CodePoints], trivial, by simp [Element.greatest]⟩
      · exact ⟨by simp [Element.CodePoints], trivial, by simp [Element.greatest]⟩
      · refine ⟨⟨SymbolSet.canonical_ofRange _ _, fun v member => ?_⟩, trivial, by decide⟩
        have := (SymbolSet.contains_ofRange _ _ v).1 member
        omega
    · rcases leaf with rfl | rfl
      · exact ⟨by simp [Element.CodePoints], trivial, by simp [Element.greatest]⟩
      · refine ⟨⟨(SymbolSet.canonical_ofRange 0x41 0x5A).addRange 0xFFFF 0x10FFFF, fun v member => ?_⟩, trivial,
          by decide⟩
        have := (SymbolSet.contains_addRange (SymbolSet.ofRange 0x41 0x5A) 0xFFFF 0x10FFFF v).1 member
        rw [SymbolSet.contains_ofRange] at this
        omega
    · rcases leaf with rfl | rfl | rfl
      · exact ⟨by simp [Element.CodePoints], trivial, by simp [Element.greatest]⟩
      · exact ⟨trivial, trivial, by decide⟩
      · refine ⟨⟨SymbolSet.canonical_ofRange _ _, fun v member => ?_⟩, trivial, by decide⟩
        have := (SymbolSet.contains_ofRange _ _ v).1 member
        omega
  have codePoints : planesLexer.CodePoints := fun r member e leaf => (leaves r member e leaf).1
  have indexed : planesLexer.Indexed := fun r member e leaf => (leaves r member e leaf).2.1
  have unreserved : ¬ planesLexer.NamesReserved := by
    rintro ⟨r, member, e, leaf, among⟩
    exact (leaves r member e leaf).2.2 among
  have compiles : planesLexer.compile.toOption.isSome = true := by decide +kernel
  have fewOf : planesLexer.layOut.toOption.all (fun net => decide net.Few) = true := by decide +kernel
  cases run : planesLexer.compile with
  | error e =>
    rw [run] at compiles
    cases compiles
  | ok compiled =>
    obtain ⟨_, net, -, -, layout, -, -⟩ := compile_steps run
    have few : net.Few := by
      rw [layout] at fewOf
      exact of_decide_eq_true fewOf
    obtain ⟨-, -, reads⟩ := compile_symbols assembled rfl codePoints indexed layout few
    obtain ⟨read, decoded, facts⟩ := reads compiled run
    exact ⟨codePoints, indexed, unreserved, net, compiled, read, layout, few, rfl, decoded, facts⟩

/-- A lexer of the reserved symbol alone. -/
def reservedLexer : Grammar := (Grammar.lexer "Reserved").rule "LAST" (.symbol 0xFFFF)

/-- It is a code point, but it is refused, since it does not fit in a word. -/
theorem compile_reservedLexer : reservedLexer.Assembled ∧ reservedLexer.isLexer = true ∧ reservedLexer.CodePoints ∧
    reservedLexer.Indexed ∧ (∃ net, reservedLexer.layOut = .ok net ∧ net.Few) ∧
    reservedLexer.compile = .error (.encode (.wordRange 0xFFFF)) := by
  have leaves : ∀ r ∈ reservedLexer.rules, ∀ e ∈ r.body.leaves, e.CodePoints ∧ e.Indexed := by
    intro r member e leaf
    obtain rfl := List.mem_singleton.1 member
    obtain rfl := List.mem_singleton.1 leaf
    exact ⟨by simp [Element.CodePoints], trivial⟩
  have refused : (match reservedLexer.compile with
      | .ok _ => false
      | .error e => decide (e = .encode (.wordRange 0xFFFF))) = true := by decide +kernel
  have laidOut : reservedLexer.layOut.toOption.any (fun net => decide net.Few) = true := by decide +kernel
  refine ⟨.rule "LAST" _ (.lexer "Reserved"), rfl, fun r member e leaf => (leaves r member e leaf).1,
    fun r member e leaf => (leaves r member e leaf).2, ?_, ?_⟩
  · cases layout : reservedLexer.layOut with
    | error e =>
      rw [layout] at laidOut
      cases laidOut
    | ok net =>
      rw [layout] at laidOut
      exact ⟨net, rfl, of_decide_eq_true laidOut⟩
  · cases run : reservedLexer.compile with
    | ok compiled =>
      rw [run] at refused
      cases refused
    | error e =>
      rw [run] at refused
      rw [of_decide_eq_true refused]

end Grammar

end AdaptiveLL
