import AdaptiveLL.Proofs.Network.Operands
import AdaptiveLL.Proofs.Network.RoundTrip
import AdaptiveLL.Proofs.Network.Skeleton

/-!
# Reading that must succeed

`Decode.Reads` says what a reader can give on some words, if it gives anything. Here a step `Gives` a
value on some words: it does succeed, with this value, and stops behind them. The words of a network
that refers to nothing it does not have (`Network.Restorable`) are read without a fault up to the
actions, and what is read is the skeleton of the network with all that the reader derives from it
(`Decode.network_run`).
-/

set_option autoImplicit false

namespace AdaptiveLL

namespace Decode

variable {α β : Type}

/-- Set before the words, the step gives the value and stops behind them. -/
def Gives (step : Decode α) (ws : List Word) (a : α) : Prop :=
  ∀ tail read, step.run ⟨ws ++ tail, read⟩ = .ok (a, ⟨tail, read + ws.length⟩)

/-! ## Steps -/

/-- Behind the words of the first step the second goes on with its value. -/
theorem Gives.bind_run {x : Decode α} {w : List Word} {a : α} (first : x.Gives w a)
    (f : α → Decode β) (tail : List Word) (read : Nat) :
    (x >>= f).run ⟨w ++ tail, read⟩ = (f a).run ⟨tail, read + w.length⟩ := by
  rw [StateT.run_bind, first tail read]
  rfl

theorem Gives.bind {x : Decode α} {f : α → Decode β} {w v : List Word} {a : α} {b : β}
    (first : x.Gives w a) (second : (f a).Gives v b) : (x >>= f).Gives (w ++ v) b := by
  intro tail read
  rw [List.append_assoc, first.bind_run, second, List.length_append, Nat.add_assoc]

/-- Behind the last words the reader only computes. -/
theorem Gives.last {x : Decode α} {f : α → Decode β} {w : List Word} {a : α} {b : β}
    (first : x.Gives w a) (second : (f a).Gives [] b) : (x >>= f).Gives w b := by
  have whole := first.bind second
  rwa [List.append_nil] at whole

theorem gives_pure (a : α) : (pure a : Decode α).Gives [] a := fun _ _ => rfl

theorem Gives.map {x : Decode α} {w : List Word} {a : α} (first : x.Gives w a) (f : α → β) :
    (do return f (← x) : Decode β).Gives w (f a) :=
  first.last (gives_pure (f a))

theorem gives_check {holds : Bool} (true' : holds = true) (cause : Malformation) :
    (check holds cause).Gives [] () := by
  subst true'
  exact gives_pure ()

theorem gives_lift {x : Except LoadError α} {a : α} (succeeds : x = .ok a) :
    (liftM x : Decode α).Gives [] a := by
  subst succeeds
  exact fun _ _ => rfl

theorem gives_word (w : Word) : word.Gives [w] w := fun _ _ => rfl

theorem gives_toNat (w : Word) : index.Gives [w] w.toNat := (gives_word w).map UInt16.toNat

theorem gives_index {n : Nat} {w : Word} (written : Encode.index n = .ok w) : index.Gives [w] n := by
  rw [← (Encode.index_ok written).1]
  exact gives_toNat w

theorem gives_optional {n : Option Nat} {w : Word} (written : Encode.optional n = .ok w) :
    optional.Gives [w] n := by
  have whole := (gives_word w).map fun w => if w = noneWord then none else some w.toNat
  rwa [Encode.optional_ok written] at whole

theorem gives_signedWord {v : Int} {w : Word} (written : Encode.signedWord v = .ok w) :
    signedWord.Gives [w] v := by
  have whole := (gives_word w).map wordValue
  rwa [Encode.signedWord_ok written] at whole

/-! ## Lists -/

theorem gives_times {γ : Type} {x : Decode α} {f : γ → Except EncodeError (List Word)} {g : γ → α}
    {l : List γ} {ws : List Word} (written : Encode.concat f l = .ok ws)
    (each : ∀ y ∈ l, ∀ part, f y = .ok part → x.Gives part (g y)) :
    (times l.length x).Gives ws (l.map g) := by
  induction l generalizing ws with
  | nil =>
    cases written
    exact gives_pure []
  | cons y l ih =>
    obtain ⟨parts, all, flat⟩ := except_bind_ok.1 written
    rw [List.mapM_cons, except_bind_ok] at all
    obtain ⟨part, here, rest⟩ := all
    obtain ⟨later, restParts, returned⟩ := except_bind_ok.1 rest
    cases returned
    cases flat
    have restWritten : Encode.concat f l = .ok later.flatten :=
      except_bind_ok.2 ⟨later, restParts, rfl⟩
    rw [List.flatten_cons]
    refine (each y (by simp) part here).bind ?_
    exact (ih restWritten fun y' member => each y' (by simp [member])).map (g y :: ·)

/-- A list is read by its length and its items. -/
theorem gives_list {γ : Type} {x : Decode α} {f : γ → Except EncodeError (List Word)} {g : γ → α}
    {l : List γ} {n : Word} {ws : List Word} (length : Encode.index l.length = .ok n)
    (written : Encode.concat f l = .ok ws)
    (each : ∀ y ∈ l, ∀ part, f y = .ok part → x.Gives part (g y)) :
    (list x).Gives (n :: ws) (l.map g) :=
  (gives_index length).bind (v := ws) (gives_times written each)

theorem gives_checks {γ : Type} {xs : List γ} {holds : γ → Bool} (cause : γ → Malformation)
    (all : ∀ x ∈ xs, holds x = true) :
    (xs.forM fun x => check (holds x) (cause x)).Gives [] () := by
  induction xs with
  | nil => exact gives_pure ()
  | cons x xs ih =>
    exact (gives_check (all x (by simp)) _).last (ih fun y member => all y (by simp [member]))

/-- Steps that only compute. -/
theorem gives_foldlM {γ : Type} {f : β → γ → Except LoadError β} {b b' : β} {xs : List γ}
    (succeeds : xs.foldlM f b = .ok b') :
    (xs.foldlM (fun b x => (liftM (f b x) : Decode β)) b).Gives [] b' := by
  induction xs generalizing b with
  | nil =>
    cases succeeds
    exact gives_pure _
  | cons x xs ih =>
    rw [List.foldlM_cons, except_bind_ok] at succeeds
    obtain ⟨mid, first, rest⟩ := succeeds
    rw [List.foldlM_cons]
    exact (gives_lift first).last (ih rest)

/-- Indices that pass their check are read as they were written. -/
theorem gives_indices {ns : List Nat} {ws : List Word} {holds : Nat → Bool}
    {cause : Nat → Malformation} (written : Encode.indices ns = .ok ws)
    (all : ∀ n ∈ ns, holds n = true) :
    (list do
      let n ← index
      check (holds n) (cause n)
      return n).Gives ws ns := by
  obtain ⟨n, length, rest⟩ := except_bind_ok.1 written
  obtain ⟨ws', items, returned⟩ := except_bind_ok.1 rest
  cases returned
  have whole := gives_list (g := id) (x := do
      let n ← index
      check (holds n) (cause n)
      return n) length (Encode.concat_index items) fun k member part here => by
    obtain ⟨w, word, returned⟩ := except_bind_ok.1 here
    cases returned
    exact (gives_index word).last ((gives_check (all k member) _).last (gives_pure k))
  rwa [List.map_id] at whole

/-! ## The head -/

theorem gives_times_words (ws : List Word) : (times ws.length word).Gives ws ws := by
  induction ws with
  | nil => exact gives_pure []
  | cons w ws ih => exact (gives_word w).bind (v := ws) (ih.map (w :: ·))

theorem gives_format :
    format.Gives (formatVersion :: identifierWords Format.current.identifier) .current := by
  refine (gives_word formatVersion).bind ?_
  simp only [ne_eq, not_true_eq_false, if_false]
  have eight : (identifierWords Format.current.identifier).length = 8 := by
    simp [identifierWords]
  have words := gives_times_words (identifierWords Format.current.identifier)
  rw [eight] at words
  have found : Format.ofIdentifier? (identifierOfWords (identifierWords Format.current.identifier)) =
      some .current := by decide +kernel
  refine words.last ?_
  rw [found]
  exact gives_pure _

theorem gives_grammar {kind : GrammarKind} {maxTokenType : Int} {w : Word}
    (written : Encode.word maxTokenType = .ok w) :
    grammar.Gives [kind.code, w] { kind, maxTokenType } := by
  refine (gives_word kind.code).bind (v := [w]) ?_
  have known : GrammarKind.ofCode? kind.code = some kind := by cases kind <;> rfl
  rw [known, ← (Encode.word_ok written).1]
  exact (gives_word w).map fun w => ({ kind, maxTokenType := w.toNat } : Network)

/-! ## States -/

/-- The state as it is read, before the lists of marked states. -/
def unmarked (s : State) : State :=
  { number := 0, rule := s.rule
    kind := match s.kind with
      | .ruleStart _ _ => .ruleStart none false
      | kind => kind.bare }

theorem link_ok {link : Option Nat} {w : Word} (written : Encode.word (linkValue link) = .ok w)
    (small : ∀ m, link = some m → m < 9223372036854775808) : link = some w.toNat := by
  cases link with
  | none => simp [linkValue, Encode.word] at written
  | some m =>
    rw [linkValue, Encode.signed64_of_lt (small m rfl)] at written
    have same := (Encode.word_ok written).1
    exact congrArg some (by omega)

theorem gives_state {s : State} {ws : List Word} (written : Encode.state s = .ok ws)
    (invalid : s.kind = .invalid → s.rule = none)
    (blockLink : ∀ stop, blockLink? s.kind = some stop → stop < 9223372036854775808)
    (loopLink : ∀ back, loopLink? s.kind = some back → back < 9223372036854775808) :
    state.Gives ws (unmarked s) := by
  obtain ⟨number, owner, kind, ts, eps, d, ng⟩ := s
  cases kind with
  | invalid =>
    cases written
    have none' : owner = none := invalid rfl
    subst none'
    exact fun tail read => rfl
  | loopEnd link =>
    obtain ⟨rule, ruleWord, written⟩ := except_bind_ok.1 written
    obtain ⟨w, linkWord, written⟩ := except_bind_ok.1 written
    cases written
    obtain rfl := link_ok linkWord loopLink
    have kindRead : (stateKind 12).Gives [w] (.loopEnd (some w.toNat)) :=
      (gives_toNat w).map fun n => StateKind.loopEnd (some n)
    refine (gives_word 12).bind (v := [rule, w]) ?_
    exact (gives_optional ruleWord).bind (v := [w]) (kindRead.last (gives_pure _))
  | blockStart block link =>
    obtain ⟨rule, ruleWord, written⟩ := except_bind_ok.1 written
    obtain ⟨w, linkWord, written⟩ := except_bind_ok.1 written
    cases written
    obtain rfl := link_ok linkWord blockLink
    have kindRead : (stateKind (StateKind.blockStart block (some w.toNat)).code).Gives [w]
        (.blockStart block (some w.toNat)) := by
      cases block
      all_goals exact (gives_toNat w).map fun n => StateKind.blockStart _ (some n)
    have nonzero : (StateKind.blockStart block (some w.toNat)).code ≠ 0 := by
      cases block <;> simp [StateKind.code]
    refine (gives_word _).bind (v := [rule, w]) ?_
    rw [if_neg nonzero]
    exact (gives_optional ruleWord).bind (v := [w]) (kindRead.last (gives_pure _))
  | _ =>
    obtain ⟨rule, ruleWord, written⟩ := except_bind_ok.1 written
    cases written
    refine (gives_word _).bind (v := [rule]) ?_
    exact (gives_optional ruleWord).last (gives_pure _)

theorem getElem?_foldl_modify {f : State → State} (idempotent : ∀ s, f (f s) = f s) (ns : List Nat)
    (states : Array State) (i : Nat) :
    (ns.foldl (fun states n => states.modify n f) states)[i]? =
      states[i]?.map fun s => if i ∈ ns then f s else s := by
  induction ns generalizing states with
  | nil => simp
  | cons n ns ih =>
    rw [List.foldl_cons, ih, Array.getElem?_modify]
    by_cases here : n = i
    · subst here
      cases states[n]? with
      | none => simp
      | some s => simp [idempotent]
    · cases states[i]? with
      | none => simp [here]
      | some s => simp [here, Ne.symm here]

variable {net : Network}

theorem mem_numbersOf (restorable : net.Restorable) {p : State → Bool} {n : Nat} :
    n ∈ Encode.numbersOf net p ↔ n < net.states.size ∧ p (net.state n) = true := by
  simp only [Encode.numbersOf, List.mem_map, List.mem_filter]
  constructor
  · rintro ⟨s, ⟨member, holds⟩, rfl⟩
    obtain ⟨i, bound, rfl⟩ := List.mem_iff_getElem.1 member
    rw [Array.length_toList] at bound
    have stateIs := Network.state_of_lt bound
    rw [Array.getElem_toList, ← stateIs] at holds ⊢
    rw [restorable.number i bound]
    exact ⟨bound, holds⟩
  · rintro ⟨inside, holds⟩
    refine ⟨net.state n, ⟨?_, holds⟩, restorable.number n inside⟩
    rw [Network.state_of_lt inside]
    exact Array.mem_toList_iff.2 (Array.getElem_mem inside)

/-- The states as they are read, with the marks from the lists. -/
theorem marked_states (restorable : net.Restorable) :
    (Encode.numbersOf net (·.kind.isLeftRecursiveStart)).foldl
      (fun states n => states.modify n markLeftRecursive)
      ((Encode.numbersOf net (·.nonGreedy)).foldl
        (fun states n => states.modify n ({ · with nonGreedy := true }))
        (((net.states.toList.map unmarked).zipIdx.map fun (s, i) => { s with number := i }).toArray)) =
      net.states.map State.bare := by
  refine Array.ext_getElem? fun i => ?_
  rw [getElem?_foldl_modify (by
      intro s
      unfold markLeftRecursive
      cases s with | mk number owner kind ts eps d ng => cases kind <;> rfl),
    getElem?_foldl_modify (f := fun s => { s with nonGreedy := true }) (fun _ => rfl)]
  simp only [mem_numbersOf restorable]
  rcases Nat.lt_or_ge i net.states.size with inside | outside
  · have stateIs := Network.state_of_lt inside
    have number := restorable.number i inside
    simp only [List.getElem?_toArray, List.getElem?_map, List.getElem?_zipIdx, Array.getElem?_toList,
      Array.getElem?_map, Array.getElem?_eq_getElem inside, Option.map_some, inside, true_and,
      ← stateIs]
    congr 1
    generalize net.state i = s at number
    obtain ⟨n, owner, kind, ts, eps, d, ng⟩ := s
    dsimp only at number
    subst number
    cases kind with
    | ruleStart stop leftRecursive =>
      cases ng <;> cases leftRecursive <;>
        simp [unmarked, State.bare, StateKind.bare, markLeftRecursive, StateKind.isLeftRecursiveStart]
    | _ =>
      cases ng <;> simp [unmarked, State.bare, StateKind.bare, StateKind.isLeftRecursiveStart]
  · simp [Nat.not_lt.2 outside]

theorem gives_states {stateWords nonGreedyWords leftRecursiveWords : List Word}
    (restorable : net.Restorable) (stateItems : Encode.states net = .ok stateWords)
    (nonGreedyItems : Encode.indices (Encode.numbersOf net (·.nonGreedy)) = .ok nonGreedyWords)
    (leftRecursiveItems :
      Encode.indices (Encode.numbersOf net (·.kind.isLeftRecursiveStart)) = .ok leftRecursiveWords)
    (base : Network) :
    (states .current base).Gives (stateWords ++ (nonGreedyWords ++ leftRecursiveWords))
      { base with states := net.states.map State.bare } := by
  obtain ⟨n, count, rest⟩ := except_bind_ok.1 stateItems
  obtain ⟨ws, items, returned⟩ := except_bind_ok.1 rest
  cases returned
  have few := (Encode.index_ok count).2
  have stateOf {s : State} (member : s ∈ net.states.toList) : ∃ i, s = net.state i := by
    obtain ⟨i, bound, rfl⟩ := List.mem_iff_getElem.1 member
    rw [Array.length_toList] at bound
    exact ⟨i, by rw [Network.state_of_lt bound]; rfl⟩
  have readStates := gives_list (x := state) (g := unmarked) (l := net.states.toList)
    (by rwa [Array.length_toList]) items fun s member part here => by
      obtain ⟨i, rfl⟩ := stateOf member
      refine gives_state here (restorable.invalid i) (fun stop link => ?_) fun back link => ?_
      · have := restorable.blockLink i stop link
        omega
      · have := restorable.loopLink i back link
        omega
  have size : (((net.states.toList.map unmarked).zipIdx.map fun (s, i) =>
      ({ s with number := i } : State)).toArray).size = net.states.size := by simp
  refine readStates.bind ?_
  refine (gives_checks _ ?_).bind (w := []) ?_
  · intro stop member
    obtain ⟨s, among, link⟩ := List.mem_filterMap.1 member
    obtain ⟨s, member, rfl⟩ := List.mem_map.1 among
    obtain ⟨i, rfl⟩ := stateOf member
    rw [size, decide_eq_true_iff]
    refine restorable.blockLink i stop ?_
    rw [← link]
    simp only [unmarked]
    cases (net.state i).kind <;> rfl
  refine (gives_checks _ ?_).bind (w := []) ?_
  · intro back member
    obtain ⟨s, among, link⟩ := List.mem_filterMap.1 member
    obtain ⟨s, member, rfl⟩ := List.mem_map.1 among
    obtain ⟨i, rfl⟩ := stateOf member
    rw [size, decide_eq_true_iff]
    refine restorable.loopLink i back ?_
    rw [← link]
    simp only [unmarked]
    cases (net.state i).kind <;> rfl
  refine (gives_indices nonGreedyItems fun n member => ?_).bind ?_
  · rw [size, decide_eq_true_iff]
    exact ((mem_numbersOf restorable).1 member).1
  refine (gives_indices leftRecursiveItems fun n member => ?_).last ?_
  · obtain ⟨inside, isStart⟩ := (mem_numbersOf restorable).1 member
    rw [Network.state_of_lt inside] at isStart
    simp only [List.getElem?_toArray, List.getElem?_map, List.getElem?_zipIdx, Array.getElem?_toList,
      Array.getElem?_eq_getElem inside, Option.map_some, Option.any_some, unmarked]
    revert isStart
    cases (net.states[n]).kind <;> simp [StateKind.isLeftRecursiveStart, StateKind.isRuleStart]
  rw [← marked_states restorable]
  exact gives_pure _

/-! ## Rules and modes -/

theorem gives_rule {base : Network} {r : Nat} {ws : List Word} (sameKind : base.kind = net.kind)
    (isStart : (base.state (net.ruleStart r)).kind.isRuleStart = true)
    (written : Encode.rule net r = .ok ws) :
    (rule .current base).Gives ws
      (net.ruleStart r, if net.isLexer then net.ruleTypes.getD r 0 else 0) := by
  obtain ⟨start, startWord, rest⟩ := except_bind_ok.1 written
  have sameLexer : base.isLexer = net.isLexer := by rw [Network.isLexer, Network.isLexer, sameKind]
  cases lexer : net.isLexer with
  | true =>
    simp only [lexer, if_true] at rest
    obtain ⟨type, typeWord, returned⟩ := except_bind_ok.1 rest
    cases returned
    refine (gives_index startWord).bind (v := [type]) ((gives_check isStart _).bind (v := [type]) ?_)
    simp only [sameLexer, lexer, if_true]
    exact (gives_signedWord typeWord).last (gives_pure _)
  | false =>
    simp only [lexer, Bool.false_eq_true, if_false] at rest
    cases rest
    refine (gives_index startWord).last ((gives_check isStart _).last ?_)
    simp only [sameLexer, lexer, Bool.false_eq_true, if_false]
    exact gives_pure _

theorem gives_rules {stopped : Network} {ws : List Word} (restorable : net.Restorable)
    (written : Encode.rules net = .ok ws)
    (stops : (List.range net.states.size).foldlM enterStop net.skeleton = .ok stopped) :
    (rules .current { kind := net.kind, maxTokenType := net.maxTokenType
                      states := net.states.map State.bare }).Gives ws stopped := by
  obtain ⟨n, count, rest⟩ := except_bind_ok.1 written
  obtain ⟨items, itemWords, returned⟩ := except_bind_ok.1 rest
  cases returned
  have read := gives_list (x := rule .current { kind := net.kind
                                                maxTokenType := net.maxTokenType
                                                states := net.states.map State.bare })
    (g := fun r => (net.ruleStart r, if net.isLexer then net.ruleTypes.getD r 0 else 0))
    (by rwa [List.length_range]) itemWords fun r member part here =>
      gives_rule rfl (by
        have inside := List.mem_range.1 member
        exact (net.sameBare_skeleton.isRuleStart _).trans (restorable.ruleStart r inside)) here
  refine read.last ?_
  have starts : ((List.range net.numRules).map net.ruleStart).toArray = net.ruleStarts := by
    refine Array.ext (by simp [Network.numRules]) fun r _ bound => ?_
    simp [Network.ruleStart, Array.getD, bound]
  have types : (if net.isLexer then ((List.range net.numRules).map fun r =>
      if net.isLexer then net.ruleTypes.getD r 0 else 0).toArray else #[]) = net.ruleTypes := by
    have size := restorable.ruleTypes
    cases lexer : net.isLexer with
    | true =>
      simp only [lexer, if_true] at size ⊢
      refine Array.ext (by simp [size]) fun r _ bound => ?_
      simp [Array.getD, bound]
    | false =>
      simp only [lexer, Bool.false_eq_true, if_false] at size ⊢
      exact (Array.size_eq_zero_iff.1 size).symm
  have base : ({ kind := net.kind, maxTokenType := net.maxTokenType
                 states := net.states.map State.bare
                 ruleStarts := ((List.range net.numRules).map net.ruleStart).toArray
                 ruleStops := Array.replicate net.numRules none
                 ruleTypes := if net.isLexer then ((List.range net.numRules).map fun r =>
                   if net.isLexer then net.ruleTypes.getD r 0 else 0).toArray else #[] } : Network) =
      net.skeleton := by
    rw [starts, types]
    rfl
  have whole := gives_foldlM stops
  rw [← base] at whole
  simpa [List.map_map, Function.comp_def, Network.isLexer] using whole

theorem gives_modes {base : Network} {ws : List Word} (same : net.SameBare base)
    (restorable : net.Restorable) (written : Encode.indices net.modeStarts.toList = .ok ws) :
    (modes base).Gives ws { base with modeStarts := net.modeStarts } := by
  refine (gives_indices written fun n member => ?_).last (gives_pure _)
  rw [beq_iff_eq, ← StateKind.bare_eq_tokenStart, same.kind, StateKind.bare_eq_tokenStart]
  exact restorable.modeStart n member

/-! ## Sets -/

theorem gives_narrowSymbol {v : Int} {ws : List Word} (written : Encode.symbol false v = .ok ws) :
    narrowSymbol.Gives ws v := by
  obtain ⟨w, word, returned⟩ := except_bind_ok.1 written
  cases returned
  rw [← (Encode.word_ok word).1]
  exact (gives_word w).map fun w => (w.toNat : Int)

theorem gives_wideSymbol {v : Int} {ws : List Word} (written : Encode.symbol true v = .ok ws)
    (low : -2147483648 ≤ v) (high : v < 2147483648) : wideSymbol.Gives ws v := by
  cases written
  have whole := (gives_word (UInt16.ofNat (v % 4294967296).toNat)).bind
    (v := [UInt16.ofNat ((v % 4294967296).toNat >>> 16)]) (f := fun l => do
      let h ← word
      return signed32 (l.toNat + h.toNat * 65536 : Nat))
    ((gives_word _).last (gives_pure _))
  have halves : ((v % 4294967296).toNat % 65536 +
      (v % 4294967296).toNat / 65536 % 65536 * 65536 : Nat) = (v % 4294967296).toNat := by
    omega
  have same : signed32 ((UInt16.ofNat (v % 4294967296).toNat).toNat +
      (UInt16.ofNat ((v % 4294967296).toNat >>> 16)).toNat * 65536 : Nat) = v := by
    rw [UInt16.toNat_ofNat', UInt16.toNat_ofNat', Nat.shiftRight_eq_div_pow, halves, signed32,
      Int.toNat_of_nonneg (by omega)]
    exact (Int.emod_bmod v 4294967296).trans (Int.bmod_eq_of_le (by omega) (by omega))
  rwa [same] at whole

/-- The intervals of a set as they are read: without that of the end of the input alone, and without
the end of the input at the beginning of another. -/
def readIntervals (s : SymbolSet) : List (Int × Int) :=
  (Encode.writtenIntervals s).map fun r => (if r.1 = endOfInput then 0 else r.1, r.2)

theorem mem_of_writtenIntervals {s : SymbolSet} {r : Int × Int}
    (member : r ∈ Encode.writtenIntervals s) : r ∈ s.intervals := by
  unfold Encode.writtenIntervals at member
  split at member
  · rename_i same
    rw [same]
    split at member
    · exact List.mem_cons_of_mem _ member
    · exact member
  · cases member

theorem writtenIntervals_of_mem {s : SymbolSet} {r : Int × Int} (member : r ∈ s.intervals)
    (other : r ≠ (endOfInput, endOfInput)) : r ∈ Encode.writtenIntervals s := by
  unfold Encode.writtenIntervals
  split
  · rename_i a b rest same
    rw [same] at member
    split
    · rename_i isEof
      refine (List.mem_cons.1 member).resolve_left fun here => other ?_
      rw [here, isEof.1, isEof.2]
    · exact member
  · rename_i none'
    rw [none'] at member
    cases member

/-- What is read together with the flag for the end of the input has the members of the set. -/
theorem covers_readIntervals (s : SymbolSet) (v : Int) :
    s.contains v = true ↔ (s.contains endOfInput = true ∧ v = endOfInput) ∨
      SymbolSet.Covers (readIntervals s) v := by
  have isEof : endOfInput = -1 := rfl
  constructor
  · intro found
    by_cases eof : v = endOfInput
    · exact .inl ⟨eof ▸ found, eof⟩
    · obtain ⟨r, member, above, below⟩ := SymbolSet.contains_iff.1 found
      refine .inr ⟨_, List.mem_map_of_mem (writtenIntervals_of_mem member ?_), ?_, below⟩
      · rintro rfl
        exact eof (Int.le_antisymm below above)
      · dsimp only
        split <;> omega
  · rintro (⟨found, rfl⟩ | ⟨r, member, above, below⟩)
    · exact found
    · obtain ⟨r, among, rfl⟩ := List.mem_map.1 member
      refine SymbolSet.contains_iff.2 ⟨r, mem_of_writtenIntervals among, ?_, below⟩
      dsimp only at above
      split at above <;> omega

theorem addRanges_readIntervals {s : SymbolSet} (canonical : s.Canonical) :
    (if s.contains endOfInput then SymbolSet.empty.add endOfInput else SymbolSet.empty).addRanges
      (readIntervals s) = s := by
  refine SymbolSet.Canonical.ext (SymbolSet.Canonical.addRanges ?_ _) canonical fun v => ?_
  · split
    · exact SymbolSet.canonical_empty.addRange _ _
    · exact SymbolSet.canonical_empty
  rw [SymbolSet.contains_addRanges, covers_readIntervals s v]
  refine or_congr ?_ Iff.rfl
  cases eof : s.contains endOfInput with
  | true =>
    have single := SymbolSet.contains_singleton endOfInput v
    simpa [SymbolSet.singleton, SymbolSet.ofRange, SymbolSet.add] using single
  | false => simp [SymbolSet.contains, SymbolSet.empty]

theorem gives_set {wide : Bool} {symbol : Decode Int} {s : SymbolSet} {ws : List Word}
    (proper : s.Proper)
    (gives_symbol : ∀ v part, -2147483648 ≤ v → v < 2147483648 →
      Encode.symbol wide v = .ok part → symbol.Gives part v)
    (written : Encode.set wide s = .ok ws) : (set symbol).Gives ws s := by
  obtain ⟨count, countWord, rest⟩ := except_bind_ok.1 written
  obtain ⟨ends, endWords, returned⟩ := except_bind_ok.1 rest
  cases returned
  have intervals := gives_times (x := do
      let lo ← symbol
      return (lo, ← symbol))
    (g := fun r => (if r.1 = endOfInput then 0 else r.1, r.2)) endWords fun r member part here => by
    obtain ⟨low, lowWords, rest⟩ := except_bind_ok.1 here
    obtain ⟨high, highWords, returned⟩ := except_bind_ok.1 rest
    cases returned
    obtain ⟨⟨above, below⟩, above', below'⟩ := proper.ends (mem_of_writtenIntervals member)
    refine (gives_symbol _ low ?_ ?_ lowWords).bind
      ((gives_symbol _ high above' below' highWords).last ?_)
    · split <;> omega
    · split <;> omega
    · exact gives_pure _
  refine (gives_index countWord).bind (v := _ :: ends) ?_
  refine (gives_word _).bind (v := ends) (intervals.last ?_)
  have flag : (if (if s.contains endOfInput = true then (1 : Word) else 0) ≠ 0 then
      SymbolSet.empty.add endOfInput else SymbolSet.empty) =
      if s.contains endOfInput then SymbolSet.empty.add endOfInput else SymbolSet.empty := by
    cases s.contains endOfInput <;> simp
  have same := addRanges_readIntervals proper.canonical
  rw [← flag] at same
  refine (congrArg (Gives _ []) same).mp ?_
  exact gives_pure _

theorem gives_narrowSet {s : SymbolSet} {ws : List Word} (proper : s.Proper)
    (written : Encode.set false s = .ok ws) : (set narrowSymbol).Gives ws s :=
  gives_set proper (fun _ _ _ _ here => gives_narrowSymbol here) written

theorem gives_wideSet {s : SymbolSet} {ws : List Word} (proper : s.Proper)
    (written : Encode.set true s = .ok ws) : (set wideSymbol).Gives ws s :=
  gives_set proper (fun _ _ low high here => gives_wideSymbol here low high) written

theorem gives_sets {base : Network} {ws : List Word} (restorable : net.Restorable)
    (written : Encode.sets (Encode.SetTable.collect net) = .ok ws) :
    (sets .current base).Gives ws { base with sets := net.referredSets.toArray } := by
  obtain ⟨narrowCount, narrowWord, rest⟩ := except_bind_ok.1 written
  obtain ⟨narrow, narrowWords, rest⟩ := except_bind_ok.1 rest
  obtain ⟨wideCount, wideWord, rest⟩ := except_bind_ok.1 rest
  obtain ⟨wide, wideWords, returned⟩ := except_bind_ok.1 rest
  have narrowRead := gives_list (x := set narrowSymbol) (g := id) narrowWord narrowWords
    fun s member part here =>
      gives_narrowSet (restorable.proper s (List.mem_append_left _ member)) here
  have wideRead := gives_list (x := set wideSymbol) (g := id) wideWord wideWords
    fun s member part here =>
      gives_wideSet (restorable.proper s (List.mem_append_right _ member)) here
  rw [List.map_id] at narrowRead wideRead
  rw [← Except.ok.inj returned]
  refine narrowRead.bind (v := wideCount :: wide) ?_
  simp only [Format.current, Format.hasWideSets, if_true]
  refine wideRead.last ?_
  exact gives_pure _

/-! ## Transitions -/

theorem index_eq {n : Nat} (bound : n < 18446744073709551616) :
    Encode.index n = Encode.word (signed64 n) := by
  rw [Encode.index, if_pos bound]

theorem signed64_ok {n : Nat} {w : Word} (bound : n < 18446744073709551616)
    (written : Encode.word (signed64 n) = .ok w) : w.toNat = n ∧ n < 0xFFFF :=
  Encode.index_ok ((index_eq bound).trans written)

theorem flag_ok {b : Bool} {w : Word} (written : Encode.word (if b then 1 else 0) = .ok w) :
    decide (w ≠ 0) = b := by
  have same := (Encode.word_ok written).1
  cases b with
  | true =>
    refine decide_eq_true fun zero => ?_
    rw [zero] at same
    cases same
  | false =>
    have zero : w = 0 := UInt16.toNat_inj.1 (by simpa using same)
    simp [zero]

theorem symbol_ok {v lo : Int} {flag : Int} {a c : Word} (first : Encode.word lo = .ok a)
    (third : Encode.word flag = .ok c)
    (shown : (v = endOfInput ∧ flag = 1) ∨ (v ≠ endOfInput ∧ lo = v ∧ flag = 0)) :
    (if c ≠ 0 then endOfInput else (a.toNat : Int)) = v := by
  have same := (Encode.word_ok third).1
  rcases shown with ⟨rfl, rfl⟩ | ⟨-, rfl, rfl⟩
  · rw [if_pos]
    rintro rfl
    cases same
  · have zero : c = 0 := UInt16.toNat_inj.1 (by simpa using same)
    rw [if_neg (not_not_intro zero), (Encode.word_ok first).1]

theorem indexOf_ok {s : SymbolSet} {i : Nat}
    (found : (Encode.SetTable.collect net).indexOf s = .ok i) :
    net.referredSets.toArray[i]? = some s := by
  unfold Encode.SetTable.indexOf at found
  split at found
  · rename_i j place
    cases found
    obtain ⟨bound, same, -⟩ := List.findIdx?_eq_some_iff_getElem.1 place
    rw [List.getElem?_toArray, Network.referredSets, List.getElem?_eq_getElem bound,
      beq_iff_eq.1 same]
  · cases found

theorem index_word {n : Nat} {w : Word} (written : Encode.word (n : Int) = .ok w) : w.toNat = n := by
  have same := (Encode.word_ok written).1
  omega

theorem gives_label {base : Network} {tr : Transition} {target : Nat} {a b c : Int} {a' b' c' : Word}
    (same : net.SameBare base) (starts : base.ruleStarts = net.ruleStarts)
    (sets : base.sets = net.referredSets.toArray) (readable : net.Readable tr)
    (operands : Encode.operands (Encode.SetTable.collect net) tr = .ok (target, a, b, c))
    (few : net.states.size < 0xFFFF) (fewRules : net.numRules < 0xFFFF)
    (first : Encode.word a = .ok a') (second : Encode.word b = .ok b')
    (third : Encode.word c = .ok c') :
    target < net.states.size ∧ (label base target tr.label.code a' b' c').Gives [] tr := by
  have inside := readable.target
  obtain ⟨goal, l⟩ := tr
  cases l with
  | epsilon outermost =>
    cases operands
    obtain rfl := readable.plain outermost rfl
    refine ⟨inside, ?_⟩
    simp only [label, Label.code, UInt16.reduceToNat]
    exact gives_pure _
  | wildcard =>
    cases operands
    refine ⟨inside, ?_⟩
    simp only [label, Label.code, UInt16.reduceToNat]
    exact gives_pure _
  | precedence p =>
    cases operands
    refine ⟨inside, ?_⟩
    rw [← (Encode.word_ok first).1]
    simp only [label, Label.code, UInt16.reduceToNat]
    exact gives_pure _
  | range lo hi =>
    simp only [Encode.operands] at operands
    obtain ⟨rfl, hiIs, shown⟩ : target = goal ∧ b = hi ∧
        ((lo = endOfInput ∧ c = 1) ∨ (lo ≠ endOfInput ∧ a = lo ∧ c = 0)) := by
      split at operands
      · cases operands
        exact ⟨rfl, rfl, .inl ⟨by assumption, rfl⟩⟩
      · cases operands
        exact ⟨rfl, rfl, .inr ⟨by assumption, rfl, rfl⟩⟩
    refine ⟨inside, ?_⟩
    rw [← hiIs, ← (Encode.word_ok second).1, ← symbol_ok first third shown]
    simp only [label, Label.code, UInt16.reduceToNat]
    exact gives_pure _
  | atom v =>
    simp only [Encode.operands] at operands
    obtain ⟨rfl, shown⟩ : target = goal ∧
        ((v = endOfInput ∧ c = 1) ∨ (v ≠ endOfInput ∧ a = v ∧ c = 0)) := by
      split at operands
      · cases operands
        exact ⟨rfl, .inl ⟨by assumption, rfl⟩⟩
      · cases operands
        exact ⟨rfl, .inr ⟨by assumption, rfl, rfl⟩⟩
    refine ⟨inside, ?_⟩
    rw [← symbol_ok first third shown]
    simp only [label, Label.code, UInt16.reduceToNat]
    exact gives_pure _
  | rule r p follow =>
    simp only [Encode.operands, Except.ok.injEq, Prod.mk.injEq] at operands
    obtain ⟨rfl, rfl, rfl, rfl⟩ := operands
    obtain ⟨isStart, known, bound⟩ := readable.call r p follow rfl
    refine ⟨bound, ?_⟩
    have targetRead := (signed64_ok (by dsimp only at inside; omega) first).1
    have ruleRead := (signed64_ok (by omega) second).1
    have isStart' : (base.state a'.toNat).kind.isRuleStart = true := by
      rw [targetRead, same.isRuleStart]
      exact isStart
    have known' : decide (b'.toNat < base.numRules) = true := by
      rw [ruleRead, Network.numRules, starts]
      exact decide_eq_true known
    simp only [label, Label.code, UInt16.reduceToNat]
    refine (gives_check isStart' _).last ((gives_check known' _).last ?_)
    rw [targetRead, ruleRead, (Encode.word_ok third).1]
    exact gives_pure _
  | predicate r p ctx =>
    simp only [Encode.operands, Except.ok.injEq, Prod.mk.injEq] at operands
    obtain ⟨rfl, rfl, rfl, rfl⟩ := operands
    obtain ⟨ruleBound, predBound⟩ := readable.predicate r p ctx rfl
    refine ⟨inside, ?_⟩
    simp only [label, Label.code, UInt16.reduceToNat]
    rw [(signed64_ok ruleBound first).1, (signed64_ok predBound second).1, flag_ok third]
    exact gives_pure _
  | action r i ctx =>
    simp only [Encode.operands, Except.ok.injEq, Prod.mk.injEq] at operands
    obtain ⟨rfl, rfl, isPlace, rfl⟩ := operands
    obtain ⟨ruleBound, placeBound⟩ := readable.action r i ctx rfl
    refine ⟨inside, ?_⟩
    have placeRead : Encode.optional i = .ok b' := by
      subst isPlace
      cases i with
      | none => exact absurd (Encode.word_ok second).2 (by decide)
      | some place =>
        have value (f : Int → Int) :
            ((do let n ← some place; pure (n : Int)).map f).getD 0xFFFF = f place := rfl
        rw [value] at second
        exact (index_eq (placeBound place rfl)).trans second
    simp only [label, Label.code, UInt16.reduceToNat]
    rw [(signed64_ok ruleBound first).1, flag_ok third, Encode.optional_ok placeRead]
    exact gives_pure _
  | set s =>
    obtain ⟨i, found, returned⟩ := except_bind_ok.1 operands
    cases returned
    refine ⟨inside, ?_⟩
    have known : base.sets[a'.toNat]? = some s := by
      rw [index_word first, sets, indexOf_ok found]
    simp only [label, Label.code, UInt16.reduceToNat, known]
    exact gives_pure _
  | notSet s =>
    obtain ⟨i, found, returned⟩ := except_bind_ok.1 operands
    cases returned
    refine ⟨inside, ?_⟩
    have known : base.sets[a'.toNat]? = some s := by
      rw [index_word first, sets, indexOf_ok found]
    simp only [label, Label.code, UInt16.reduceToNat, known]
    exact gives_pure _

theorem gives_transition {base : Network} {source : Nat} {tr : Transition} {ws : List Word}
    (same : net.SameBare base) (starts : base.ruleStarts = net.ruleStarts)
    (sets : base.sets = net.referredSets.toArray) (readable : net.Readable tr)
    (few : net.states.size < 0xFFFF) (fewRules : net.numRules < 0xFFFF)
    (known : source < net.states.size)
    (written : Encode.transition (Encode.SetTable.collect net) source tr = .ok ws) :
    (transition base).Gives ws (source, tr) := by
  obtain ⟨⟨target, a, b, c⟩, operands, written⟩ := except_bind_ok.1 written
  obtain ⟨source', sourceWord, written⟩ := except_bind_ok.1 written
  obtain ⟨target', targetWord, written⟩ := except_bind_ok.1 written
  obtain ⟨a', first, written⟩ := except_bind_ok.1 written
  obtain ⟨b', second, written⟩ := except_bind_ok.1 written
  obtain ⟨c', third, written⟩ := except_bind_ok.1 written
  cases written
  obtain ⟨bound, labelRead⟩ :=
    gives_label same starts sets readable operands few fewRules first second third
  refine (gives_index sourceWord).bind (v := [target', tr.label.code, a', b', c']) ?_
  refine (gives_index targetWord).bind (v := [tr.label.code, a', b', c']) ?_
  refine (gives_word _).bind (v := [a', b', c']) ?_
  refine (gives_word a').bind (v := [b', c']) ?_
  refine (gives_word b').bind (v := [c']) ?_
  refine (gives_word c').last ?_
  refine (gives_check ?_ _).last (labelRead.last (gives_pure _))
  rw [same.size, Bool.and_eq_true, decide_eq_true_iff, decide_eq_true_iff]
  exact ⟨known, bound⟩

/-- What is written of the transitions: those of the states that are no ends of rules. -/
theorem written_cases {e : Nat × Transition} (member : e ∈ Encode.writtenTransitions net) :
    ∃ n < net.states.size, (net.state n).kind.isRuleStop = false ∧ e.1 = (net.state n).number ∧
      e.2 ∈ net.out n := by
  obtain ⟨s, among, inside⟩ := List.mem_flatMap.1 member
  obtain ⟨t, here, rfl⟩ := List.mem_map.1 inside
  obtain ⟨there, inner⟩ := List.mem_filter.1 among
  obtain ⟨n, bound, rfl⟩ := List.mem_iff_getElem.1 there
  rw [Array.length_toList] at bound
  have stateIs := Network.state_of_lt bound
  rw [Array.getElem_toList, ← stateIs] at here inner ⊢
  exact ⟨n, bound, by simpa using inner, rfl, here⟩

theorem gives_transitions {base : Network} {ws : List Word} (restorable : net.Restorable)
    (same : net.SameBare base) (starts : base.ruleStarts = net.ruleStarts)
    (sets : base.sets = net.referredSets.toArray)
    (few : net.states.size < 0xFFFF) (fewRules : net.numRules < 0xFFFF)
    (written : Encode.transitions net (Encode.SetTable.collect net) = .ok ws) :
    (transitions base).Gives ws (base.addEdges (Encode.writtenTransitions net)) := by
  obtain ⟨n, count, rest⟩ := except_bind_ok.1 written
  obtain ⟨items, itemWords, returned⟩ := except_bind_ok.1 rest
  cases returned
  have read := gives_list (x := transition base) (g := id) count itemWords
    fun e member part here => by
      obtain ⟨n, inside, inner, source, leaves⟩ := written_cases member
      refine gives_transition same starts sets (restorable.readable n inner e.2 leaves) few fewRules
        ?_ here
      rw [source, restorable.number n inside]
      exact inside
  rw [List.map_id] at read
  exact read.last (gives_pure _)

/-! ## Decisions and actions -/

theorem gives_decisions {base : Network} {ws : List Word} (restorable : net.Restorable)
    (same : net.SameBare base) (written : Encode.indices net.decisions.toList = .ok ws) :
    (decisions base).Gives ws
      (net.decisions.toList.foldl (fun net n => (net.defineDecision n).2) base) := by
  refine (gives_indices written fun n member => ?_).last (gives_pure _)
  obtain ⟨inside, owns⟩ := restorable.decision n member
  rw [same.size, same.isDecision, Bool.and_eq_true, decide_eq_true_iff]
  exact ⟨inside, owns⟩

/-- An action whose operands are signed numbers of 32 bits. -/
def Storable : LexerAction → Prop
  | .custom rule action => rule < 2147483648 ∧ action < 2147483648
  | .mode m | .pushMode m => m < 2147483648
  | _ => True

theorem Storable.index_lt {a : LexerAction} (storable : Storable a) :
    ∀ n ∈ a.indices, n < 2147483648 := by
  cases a with
  | custom rule action | mode m | pushMode m => simpa [LexerAction.indices, Storable] using storable
  | _ => simp [LexerAction.indices]

theorem gives_action {a : LexerAction} {ws : List Word} (storable : Storable a)
    (written : Encode.action a = .ok ws) : action.Gives ws a := by
  obtain ⟨w, x, y, x', y', -, -, -, rfl⟩ := Encode.action_words written
  intro tail read
  have kept : ∀ n ∈ a.indices, n % 4294967296 = n ∧ n ≠ 4294967295 := by
    intro n member
    have := storable.index_lt n member
    omega
  have unfilled : ¬ ∃ n ∈ a.indices, n % 4294967296 = 4294967295 := by
    rintro ⟨n, member, full⟩
    exact (kept n member).2 ((kept n member).1.symm.trans full)
  rw [action_run_written written, if_neg unfilled,
    LexerAction.mapIndices_eq_self.2 fun n member => (kept n member).1]
  rfl

theorem gives_actions {base : Network} {ws : List Word} (sameKind : base.kind = net.kind)
    (storable : ∀ a ∈ net.actions.toList, Storable a)
    (modes : ∀ a ∈ net.actions.toList, leadsAstray base a = false)
    (none' : base.actions = #[]) (lexers : net.isLexer = false → net.actions = #[])
    (written : Encode.actions net = .ok ws) :
    (actions .current base).Gives ws { base with actions := net.actions } := by
  have sameLexer : base.isLexer = net.isLexer := by rw [Network.isLexer, Network.isLexer, sameKind]
  unfold Encode.actions at written
  unfold actions
  cases lexer : net.isLexer with
  | false =>
    simp only [lexer, Bool.false_eq_true, if_false] at written
    cases written
    simp only [sameLexer, lexer, Bool.not_false, if_true]
    rw [lexers lexer, ← none']
    exact gives_pure base
  | true =>
    simp only [lexer, if_true] at written
    obtain ⟨n, count, rest⟩ := except_bind_ok.1 written
    obtain ⟨items, itemWords, returned⟩ := except_bind_ok.1 rest
    cases returned
    simp only [sameLexer, lexer, Bool.not_true, Bool.false_eq_true, if_false, Format.current,
      Format.hasLexerActions, if_true]
    have read := gives_list (x := action) (g := id) (l := net.actions.toList)
      (by rwa [Array.length_toList]) itemWords fun a member part here =>
        gives_action (storable a member) here
    rw [List.map_id] at read
    have known : ∀ a ∈ net.actions.toList, (!leadsAstray base a) = true := by
      intro a member
      rw [modes a member]
      rfl
    refine read.last ((gives_pure { base with actions := net.actions }).last ?_)
    exact (gives_checks _ known).last (gives_pure _)

/-- Where the format has a table of actions, nothing else is read with it. -/
theorem of_actions_run {base net' : Network} {cursor cursor' : WordCursor}
    (run : (actions .current base).run cursor = .ok (net', cursor')) :
    ∃ actions, net' = { base with actions } := by
  unfold actions at run
  cases lexer : base.isLexer with
  | false =>
    simp only [lexer, Bool.not_false, if_true] at run
    cases run
    exact ⟨base.actions, rfl⟩
  | true =>
    simp only [lexer, Bool.not_true, Bool.false_eq_true, if_false, Format.current,
      Format.hasLexerActions, if_true] at run
    obtain ⟨read, mid, -, rest⟩ := bind_ok.1 run
    obtain ⟨changed, mid', changing, rest⟩ := bind_ok.1 rest
    cases changing
    obtain ⟨_, mid', -, returned⟩ := bind_ok.1 rest
    cases returned
    exact ⟨read.toArray, rfl⟩

/-! ## The whole network -/

/-- The words of a network are read up to the actions, and the skeleton of the network is there with
what is derived from it. -/
theorem network_run {derived : Network} {words : List Word} (restorable : net.Restorable)
    (encoded : net.encode = .ok words) (derives : net.derive = .ok derived) :
    ∃ actionWords, Encode.actions net = .ok actionWords ∧ ∃ read, network.run ⟨words, 0⟩ =
      (do return mark (← actions .current derived) : Decode Network).run ⟨actionWords, read⟩ := by
  obtain @⟨_, _, _, _, _, _, _, _, decisionWords, actionWords, maxTypeWord, stateItems, nonGreedyItems,
    precedenceItems, ruleItems, modeItems, setItems, edgeItems, decisionItems, actionItems, words⟩ :=
      Encode.sections_of_encode encoded
  obtain ⟨stopped, stops, rest⟩ := except_bind_ok.1 derives
  obtain ⟨linked, links, result⟩ := except_bind_ok.1 rest
  have few : net.states.size < 0xFFFF := by
    obtain ⟨n, count, -⟩ := except_bind_ok.1 stateItems
    exact (Encode.index_ok count).2
  have fewRules : net.numRules < 0xFFFF := by
    obtain ⟨n, count, -⟩ := except_bind_ok.1 ruleItems
    exact (Encode.index_ok count).2
  have sameStopped : net.SameBare stopped :=
    net.sameBare_skeleton.trans (Network.sameBare_enterStops stops)
  have starts : stopped.ruleStarts = net.ruleStarts := (Network.sameTables_enterStops stops).ruleStarts
  let moded : Network := { stopped with modeStarts := net.modeStarts }
  let tabled : Network := { moded with sets := net.referredSets.toArray }
  have sameLinked : net.SameBare linked := by
    have sameTabled : net.SameBare tabled := sameStopped
    have same : net.SameBare (tabled.addEdges (Encode.writtenTransitions net)) :=
      sameTabled.trans (tabled.sameBare_addEdges _)
    exact (same.trans (Network.sameBare_addEdges _ _)).trans (Network.sameBare_linkBlocks links)
  have setsRead : (sets .current moded).Gives _ tabled := gives_sets restorable setItems
  have edgesRead : (transitions tabled).Gives _ (tabled.addEdges (Encode.writtenTransitions net)) :=
    gives_transitions restorable sameStopped starts rfl few fewRules edgeItems
  refine ⟨actionWords, actionItems, ?_⟩
  apply Exists.intro
  rw [words, network, gives_format.bind_run, (gives_grammar maxTypeWord).bind_run,
    (gives_states restorable stateItems nonGreedyItems precedenceItems _).bind_run,
    (gives_rules restorable ruleItems stops).bind_run,
    (gives_modes sameStopped restorable modeItems).bind_run,
    setsRead.bind_run, edgesRead.bind_run]
  have lifted := (gives_lift links).bind_run (fun linked => do
    let net ← decisions linked
    let net ← actions .current net
    return mark net) (decisionWords ++ actionWords)
  have decided := (gives_decisions restorable sameLinked decisionItems).bind_run (fun net => do
    let net ← actions .current net
    return mark net) actionWords
  rw [← Except.ok.inj result]
  exact (lifted _).trans (decided _)

end Decode

namespace Network

variable {net derived : Network} {words : List Word} {verify : Bool}

/-- What a reader that accepts the words of a network has read: the actions are the only part of it
that does not follow from the rest. -/
theorem of_decode_encode {net' : Network} (restorable : net.Restorable) (encoded : net.encode = .ok words)
    (derives : net.derive = .ok derived) (decoded : decode words verify = .ok net') :
    ∃ actions, net' = Decode.mark { derived with actions } := by
  obtain ⟨actionWords, -, read, front⟩ := Decode.network_run restorable encoded derives
  obtain ⟨⟨result, cursor⟩, run, rest⟩ := except_bind_ok.1 decoded
  rw [front] at run
  obtain ⟨acted, mid, acting, returned⟩ := Decode.bind_ok.1 run
  cases returned
  obtain ⟨actions, rfl⟩ := Decode.of_actions_run acting
  refine ⟨actions, ?_⟩
  simp only at rest
  split at rest
  · cases rest
  · split at rest
    · split at rest
      · cases rest
      · cases rest
        rfl
    · cases rest
      rfl

/-- The words of a network are accepted, and what is read is what is derived from them. -/
theorem decode_encode_eq (restorable : net.Restorable) (encoded : net.encode = .ok words)
    (derives : net.derive = .ok derived) (storable : ∀ a ∈ net.actions.toList, Decode.Storable a)
    (modes : ∀ a ∈ net.actions.toList, Decode.leadsAstray net a = false)
    (lexers : net.isLexer = false → net.actions = #[])
    (sound : verify = true → (Decode.mark { derived with actions := net.actions }).fault? = none) :
    decode words verify = .ok (Decode.mark { derived with actions := net.actions }) := by
  obtain ⟨actionWords, actionItems, read, front⟩ := Decode.network_run restorable encoded derives
  obtain ⟨-, tables⟩ := derive_keeps derives
  have sameKind : derived.kind = net.kind := tables.kind
  have sameModes : derived.modeStarts = net.modeStarts := tables.modeStarts
  have actionsRead := Decode.gives_actions sameKind storable (fun a member => by
    rw [← modes a member, Decode.leadsAstray, Decode.leadsAstray, sameModes]) tables.actions lexers
    actionItems
  have run : Decode.network.run ⟨words, 0⟩ =
      .ok (Decode.mark { derived with actions := net.actions }, ⟨[], read + actionWords.length⟩) := by
    have last := (actionsRead.map Decode.mark) [] read
    rw [List.append_nil] at last
    exact front.trans last
  refine except_bind_ok.2 ⟨_, run, ?_⟩
  cases verify with
  | false => rfl
  | true =>
    simp only [List.isEmpty_nil, Bool.not_true, Bool.false_eq_true, if_false, if_true, sound rfl]
    rfl

end Network

end AdaptiveLL
