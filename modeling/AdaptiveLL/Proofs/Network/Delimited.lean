import AdaptiveLL.Proofs.Network.Restoring

/-!
# Words end where the network ends

A step of reading comes to its outcome on some first words and does not look behind them, or it runs out of words
(`Delimits`). Steps keep this when they are put together, and so the whole reader has it. Words that are accepted
are then just those that the reader looks at: a beginning of them ends too soon, and whatever is set behind them is
left over (`decode_delimited`).

Only the head of the words tells generations of the format apart. All that comes behind it fails with a
malformation, so that a mismatch of versions is seen on the first nine words or not at all.
-/

set_option autoImplicit false

namespace AdaptiveLL

namespace Decode

variable {α β γ : Type} {fails fails' : LoadError → Prop}

/-- Set before the words, the step fails, whatever stands behind them. -/
def Refuses (step : Decode α) (ws : List Word) (e : LoadError) : Prop :=
  ∀ tail read, step.run ⟨ws ++ tail, read⟩ = .error e

/-- The step reads all words and asks for more. -/
def RunsOut (step : Decode α) (ws : List Word) : Prop :=
  ∀ read, step.run ⟨ws, read⟩ = .error (.malformed (.endOfData (read + ws.length)))

/-- How a step ends on some words, if it may fail in the given ways. -/
inductive Ends (fails : LoadError → Prop) (step : Decode α) : List Word → Prop
  | gives {first : List Word} {a : α} (given : step.Gives first a) (rest : List Word) : Ends fails step (first ++ rest)
  | refuses {first : List Word} {e : LoadError} (refused : step.Refuses first e) (failure : fails e)
      (rest : List Word) : Ends fails step (first ++ rest)
  | runsOut {ws : List Word} (out : step.RunsOut ws) : Ends fails step ws

/-- On all words the step ends within them or runs out of them. -/
def Delimits (fails : LoadError → Prop) (step : Decode α) : Prop := ∀ ws, Ends fails step ws

/-- The words are refused as malformed. -/
def IsMalformed (e : LoadError) : Prop := ∃ cause, e = .malformed cause

theorem isMalformed (cause : Malformation) : IsMalformed (.malformed cause) := ⟨cause, rfl⟩

/-! ## Putting steps together -/

theorem Refuses.bind {x : Decode α} {f : α → Decode β} {ws : List Word} {e : LoadError} (refused : x.Refuses ws e) :
    (x >>= f).Refuses ws e := by
  intro tail read
  rw [StateT.run_bind, refused]
  rfl

theorem Gives.bind_refuses {x : Decode α} {f : α → Decode β} {ws ws' : List Word} {a : α} {e : LoadError}
    (given : x.Gives ws a) (refused : (f a).Refuses ws' e) : (x >>= f).Refuses (ws ++ ws') e := by
  intro tail read
  rw [List.append_assoc, given.bind_run, refused]

theorem RunsOut.bind {x : Decode α} {f : α → Decode β} {ws : List Word} (out : x.RunsOut ws) :
    (x >>= f).RunsOut ws := by
  intro read
  rw [StateT.run_bind, out]
  rfl

theorem Gives.bind_runsOut {x : Decode α} {f : α → Decode β} {ws ws' : List Word} {a : α}
    (given : x.Gives ws a) (out : (f a).RunsOut ws') : (x >>= f).RunsOut (ws ++ ws') := by
  intro read
  rw [given.bind_run, out, List.length_append, Nat.add_assoc]

theorem Delimits.bind {x : Decode α} {f : α → Decode β} (delimits : Delimits fails x)
    (next : ∀ a, Delimits fails (f a)) : Delimits fails (x >>= f) := by
  intro ws
  cases delimits ws with
  | gives given rest =>
    cases next _ rest with
    | gives given' rest =>
      rw [← List.append_assoc]
      exact .gives (given.bind given') rest
    | refuses refused failure rest =>
      rw [← List.append_assoc]
      exact .refuses (given.bind_refuses refused) failure rest
    | runsOut out => exact .runsOut (given.bind_runsOut out)
  | refuses refused failure rest => exact .refuses refused.bind failure rest
  | runsOut out => exact .runsOut out.bind

theorem Delimits.mono {step : Decode α} (delimits : Delimits fails step) (imp : ∀ e, fails e → fails' e) :
    Delimits fails' step := by
  intro ws
  cases delimits ws with
  | gives given rest => exact .gives given rest
  | refuses refused failure rest => exact .refuses refused (imp _ failure) rest
  | runsOut out => exact .runsOut out

/-- A step that only computes ends before all words. -/
theorem delimits_lift {x : Except LoadError α} (failure : ∀ e, x = .error e → fails e) :
    Delimits fails (liftM x : Decode α) := by
  intro ws
  cases x with
  | error e =>
    have refused : (liftM (Except.error e) : Decode α).Refuses [] e := fun _ _ => rfl
    exact .refuses refused (failure e rfl) ws
  | ok a => exact .gives (gives_lift rfl) ws

theorem delimits_pure (a : α) : Delimits fails (pure a : Decode α) := delimits_lift (x := .ok a) nofun

theorem delimits_throw {e : LoadError} (failure : fails e) : Delimits fails (throw e : Decode α) := by
  apply delimits_lift (x := .error e)
  rintro _ ⟨⟩
  exact failure

theorem delimits_word : Delimits fails word := by
  intro ws
  cases ws with
  | nil => exact .runsOut fun _ => rfl
  | cons w rest => exact .gives (gives_word w) rest

/-- The last thing a step does is to give its value. -/
theorem Delimits.map {x : Decode α} (delimits : Delimits fails x) (f : α → β) :
    Delimits fails (do return f (← x) : Decode β) := delimits.bind fun a => delimits_pure (f a)

theorem delimits_index : Delimits fails index := delimits_word.map _

theorem Delimits.times {step : Decode α} (delimits : Delimits fails step) (n : Nat) :
    Delimits fails (times n step) := by
  induction n with
  | zero => exact delimits_pure []
  | succ n ih => exact delimits.bind fun a => ih.map (a :: ·)

theorem Delimits.list {step : Decode α} (delimits : Delimits fails step) : Delimits fails (list step) :=
  delimits_index.bind fun n => delimits.times n

/-- What is done for each of some values is done one after the other. -/
theorem delimits_forM {f : γ → Decode Unit} (each : ∀ c, Delimits fails (f c)) (cs : List γ) :
    Delimits fails (cs.forM f) := by
  induction cs with
  | nil => exact delimits_pure ()
  | cons c cs ih => exact (each c).bind fun _ => ih

theorem delimits_foldlM {f : β → γ → Decode β} (each : ∀ b c, Delimits fails (f b c)) (cs : List γ) (b : β) :
    Delimits fails (cs.foldlM f b) := by
  induction cs generalizing b with
  | nil => exact delimits_pure b
  | cons c cs ih =>
    rw [List.foldlM_cons]
    exact (each b c).bind ih

theorem delimits_refuse (cause : Malformation) : Delimits IsMalformed (refuse cause : Decode α) :=
  delimits_throw (isMalformed cause)

theorem delimits_check (holds : Bool) (cause : Malformation) : Delimits IsMalformed (check holds cause) := by
  unfold check
  split
  · exact delimits_pure ()
  · exact delimits_refuse cause

/-! ## The sections -/

theorem delimits_grammar : Delimits IsMalformed grammar := by
  apply delimits_word.bind
  intro code
  split
  · exact delimits_refuse _
  · exact delimits_word.map _

theorem delimits_stateKind (code : Word) : Delimits IsMalformed (stateKind code) := by
  unfold stateKind
  split
  all_goals first
    | exact delimits_pure _
    | exact delimits_refuse _
    | exact delimits_index.map _

theorem delimits_state : Delimits IsMalformed state := by
  apply delimits_word.bind
  intro code
  split
  · exact delimits_pure _
  · exact (delimits_word.map _).bind fun rule => (delimits_stateKind code).map _

/-- A list of indices that are checked one by one. -/
theorem delimits_indices (holds : Nat → Bool) (cause : Nat → Malformation) :
    Delimits IsMalformed (list do
      let n ← index
      check (holds n) (cause n)
      return n) :=
  (delimits_index.bind fun n => (delimits_check (holds n) (cause n)).bind fun _ => delimits_pure n).list

theorem delimits_states (f : Format) (net : Network) : Delimits IsMalformed (states f net) := by
  apply delimits_state.list.bind
  intro read
  apply (delimits_forM (fun n => delimits_check _ _) _).bind
  intro _
  apply (delimits_forM (fun n => delimits_check _ _) _).bind
  intro _
  apply (delimits_indices _ _).bind
  intro nonGreedy
  split
  · exact (delimits_indices _ _).map _
  · exact (delimits_pure _).map _

theorem delimits_rule (f : Format) (net : Network) : Delimits IsMalformed (rule f net) := by
  apply delimits_index.bind
  intro start
  apply (delimits_check _ _).bind
  intro _
  split
  · apply (delimits_word.map _).bind
    intro type
    split
    · exact delimits_word.bind fun _ => delimits_pure _
    · exact delimits_pure _
  · exact delimits_pure _

theorem enterStop_error {net : Network} {n : Nat} {e : LoadError} (error : enterStop net n = .error e) :
    IsMalformed e := by
  unfold enterStop at error
  split at error
  · split at error
    · cases error
      exact isMalformed _
    · split at error
      · cases error
      · cases error
        exact isMalformed _
  · cases error

theorem delimits_rules (f : Format) (net : Network) : Delimits IsMalformed (rules f net) := by
  apply (delimits_rule f net).list.bind
  intro read
  apply delimits_foldlM
  intro net n
  exact delimits_lift fun e error => enterStop_error error

theorem delimits_modes (net : Network) : Delimits IsMalformed (modes net) := (delimits_indices _ _).map _

theorem delimits_set {symbol : Decode Int} (delimits : Delimits IsMalformed symbol) :
    Delimits IsMalformed (set symbol) := by
  apply delimits_index.bind
  intro n
  apply delimits_word.bind
  intro eof
  exact ((delimits.bind fun lo => delimits.map (lo, ·)).times n).map _

theorem delimits_sets (f : Format) (net : Network) : Delimits IsMalformed (sets f net) := by
  have narrow : Delimits IsMalformed narrowSymbol := delimits_word.map _
  have wide : Delimits IsMalformed wideSymbol := delimits_word.bind fun _ => delimits_word.map _
  apply (delimits_set narrow).list.bind
  intro narrowSets
  split
  · exact (delimits_set wide).list.map _
  · exact (delimits_pure _).map _

theorem delimits_label (net : Network) (target : Nat) (code a b c : Word) :
    Delimits IsMalformed (label net target code a b c) := by
  unfold label
  dsimp only
  split
  case h_3 =>
    apply (delimits_check _ _).bind
    intro _
    exact (delimits_check _ _).bind fun _ => delimits_pure _
  case h_7 =>
    split
    · exact delimits_pure _
    · exact delimits_refuse _
  case h_8 =>
    split
    · exact delimits_pure _
    · exact delimits_refuse _
  case h_11 => exact delimits_refuse _
  all_goals exact delimits_pure _

theorem delimits_transition (net : Network) : Delimits IsMalformed (transition net) := by
  apply delimits_index.bind
  intro source
  apply delimits_index.bind
  intro target
  apply delimits_word.bind
  intro code
  apply delimits_word.bind
  intro a
  apply delimits_word.bind
  intro b
  apply delimits_word.bind
  intro c
  apply (delimits_check _ _).bind
  intro _
  exact (delimits_label net target code a b c).map _

theorem delimits_transitions (net : Network) : Delimits IsMalformed (transitions net) :=
  (delimits_transition net).list.map _

theorem linkBlock_error {net : Network} {n : Nat} {e : LoadError} (error : linkBlock net n = .error e) :
    IsMalformed e := by
  unfold linkBlock at error
  split at error
  · split at error
    · cases error
    all_goals
      cases error
      exact isMalformed _
  all_goals cases error

/-- A run of steps fails where one of them does. -/
theorem foldlM_error {f : β → γ → Except LoadError β} {cs : List γ} {b : β} {e : LoadError}
    (error : cs.foldlM f b = .error e) : ∃ b c, f b c = .error e := by
  induction cs generalizing b with
  | nil => cases error
  | cons c cs ih =>
    rw [List.foldlM_cons] at error
    cases step : f b c with
    | error e' =>
      rw [step] at error
      cases error
      exact ⟨b, c, step⟩
    | ok b' =>
      rw [step] at error
      exact ih error

theorem linkBlocks_error {net : Network} {e : LoadError} (error : linkBlocks net = .error e) : IsMalformed e := by
  obtain ⟨net', n, error⟩ := foldlM_error error
  exact linkBlock_error error

theorem delimits_decisions (net : Network) : Delimits IsMalformed (decisions net) := (delimits_indices _ _).map _

theorem delimits_action : Delimits IsMalformed action := by
  apply delimits_word.bind
  intro code
  apply (delimits_word.map _).bind
  intro a
  apply (delimits_word.map _).bind
  intro b
  split
  · exact delimits_pure _
  · exact delimits_refuse _

theorem delimits_actions (f : Format) (net : Network) : Delimits IsMalformed (actions f net) := by
  have known (net : Network) : Delimits IsMalformed (do
      net.actions.toList.forM fun a => check (!leadsAstray net a) (.actionMode a)
      return net) :=
    (delimits_forM (fun a => delimits_check _ _) _).bind fun _ => delimits_pure net
  unfold actions
  split
  · exact delimits_pure net
  · split
    · exact delimits_action.list.bind fun read => (delimits_pure _).bind known
    · exact (delimits_pure _).bind known

/-! ## The head -/

/-- Behind the head the reader fails with malformations only. -/
def body (f : Format) : Decode Network := do
  let net ← grammar
  let net ← states f net
  let net ← rules f net
  let net ← modes net
  let net ← sets f net
  let net ← transitions net
  let net ← linkBlocks (addReturns net)
  let net ← decisions net
  let net ← actions f net
  return mark net

theorem network_body : network = format >>= body := rfl

theorem delimits_body (f : Format) : Delimits IsMalformed (body f) := by
  apply delimits_grammar.bind
  intro net
  apply (delimits_states f net).bind
  intro net
  apply (delimits_rules f net).bind
  intro net
  apply (delimits_modes net).bind
  intro net
  apply (delimits_sets f net).bind
  intro net
  apply (delimits_transitions net).bind
  intro net
  apply (delimits_lift fun e error => linkBlocks_error error).bind
  intro net
  apply (delimits_decisions net).bind
  intro net
  exact (delimits_actions f net).map _

/-- A step that fails with malformations only does so also where the words run out. -/
theorem Delimits.error {step : Decode α} (delimits : Delimits IsMalformed step) {ws : List Word} {read : Nat}
    {e : LoadError} (run : step.run ⟨ws, read⟩ = .error e) : IsMalformed e := by
  cases delimits ws with
  | gives given rest => cases (given rest read).symm.trans run
  | refuses refused failure rest =>
    cases (refused rest read).symm.trans run
    exact failure
  | runsOut out =>
    cases (out read).symm.trans run
    exact isMalformed _

/-! ## Versions -/

/-- A mismatch of versions. -/
def IsMismatch (e : LoadError) : Prop := ∃ found expected, e = .versionMismatch found expected

/-- The words begin with another version, or with eight words behind the version that identify no generation. -/
def Foreign (ws : List Word) : Prop :=
  (∃ w rest, ws = w :: rest ∧ w ≠ formatVersion) ∨
    ∃ id rest, ws = formatVersion :: (id ++ rest) ∧ id.length = 8 ∧ ∀ f : Format, id ≠ identifierWords f.identifier

/-- Words are determined by the number that they spell. -/
theorem identifierOfWords_inj {id id' : List Word} (length : id.length = id'.length)
    (same : identifierOfWords id = identifierOfWords id') : id = id' := by
  induction id generalizing id' with
  | nil => exact (List.length_eq_zero_iff.1 length.symm).symm
  | cons w id ih =>
    cases id' with
    | nil => cases length
    | cons w' id' =>
      have sum : identifierOfWords id * 65536 + w.toNat = identifierOfWords id' * 65536 + w'.toNat := same
      have small := w.toNat_lt
      have small' := w'.toNat_lt
      have first : w = w' := UInt16.toNat_inj.1 (by omega)
      rw [first, ih (Nat.succ.inj length) (by omega)]

theorem identifierOfWords_identifier (f : Format) :
    identifierOfWords (identifierWords f.identifier) = f.identifier := by
  cases f <;> decide +kernel

theorem ofIdentifier?_identifier (f : Format) : Format.ofIdentifier? f.identifier = some f := by
  cases f <;> decide +kernel

theorem ofIdentifier?_eq_none {id : List Word} (length : id.length = 8)
    (unknown : ∀ f : Format, id ≠ identifierWords f.identifier) :
    Format.ofIdentifier? (identifierOfWords id) = none := by
  apply List.find?_eq_none.2
  intro f _ same
  apply unknown f
  apply identifierOfWords_inj
  · rw [length]
    simp [identifierWords]
  · rw [identifierOfWords_identifier, ← eq_of_beq same]

theorem format_version {w : Word} (other : w ≠ formatVersion) (rest : List Word) (read : Nat) :
    ∃ e, IsMismatch e ∧ format.run ⟨w :: rest, read⟩ = .error e := by
  rw [format, ← List.singleton_append, (gives_word w).bind_run, if_pos other]
  exact ⟨_, ⟨_, _, rfl⟩, rfl⟩

/-- What becomes of the eight words behind the version. -/
def identified (words : List Word) : Decode Format := do
  let id := identifierOfWords words
  match Format.ofIdentifier? id with
  | some f => return f
  | none =>
    throw (.versionMismatch ("UUID " ++ identifierText id)
      ("UUID " ++ identifierText Format.current.identifier ++ " or a legacy UUID"))

theorem format_run (rest : List Word) (read : Nat) :
    format.run ⟨formatVersion :: rest, read⟩ = (times 8 word >>= identified).run ⟨rest, read + 1⟩ := rfl

theorem format_identifier {id : List Word} (length : id.length = 8)
    (unknown : ∀ f : Format, id ≠ identifierWords f.identifier) (rest : List Word) (read : Nat) :
    ∃ e, IsMismatch e ∧ format.run ⟨formatVersion :: (id ++ rest), read⟩ = .error e := by
  have words := gives_times_words id
  rw [length] at words
  rw [format_run, words.bind_run, identified, ofIdentifier?_eq_none length unknown]
  exact ⟨_, ⟨_, _, rfl⟩, rfl⟩

theorem format_gives (f : Format) : format.Gives (formatVersion :: identifierWords f.identifier) f := by
  intro tail read
  have words := gives_times_words (identifierWords f.identifier)
  have eight : (identifierWords f.identifier).length = 8 := by simp [identifierWords]
  rw [eight] at words
  rw [List.cons_append, format_run, words.bind_run, identified, identifierOfWords_identifier,
    ofIdentifier?_identifier, List.length_cons, eight]
  rfl

/-- Too few words for an identifier are read to their end. -/
theorem times_word_runsOut {ws : List Word} {n : Nat} (short : ws.length < n) : (times n word).RunsOut ws := by
  induction ws generalizing n with
  | nil =>
    obtain ⟨n, rfl⟩ : ∃ m, n = m + 1 := ⟨n - 1, by omega⟩
    exact fun read => rfl
  | cons w ws ih =>
    obtain ⟨n, rfl⟩ : ∃ m, n = m + 1 := ⟨n - 1, by omega⟩
    exact (gives_word w).bind_runsOut (ih (by simpa using short)).bind

theorem delimits_format : Delimits IsMismatch format := by
  apply delimits_word.bind
  intro version
  split
  · exact delimits_throw ⟨_, _, rfl⟩
  · apply (delimits_word.times 8).bind
    intro id
    dsimp only
    split
    · exact delimits_pure _
    · exact delimits_throw ⟨_, _, rfl⟩

theorem delimits_network : Delimits (fun e => IsMismatch e ∨ IsMalformed e) network :=
  (delimits_format.mono fun _ => .inl).bind fun f => (delimits_body f).mono fun _ => .inr

theorem IsMalformed.not_mismatch {e : LoadError} (malformed : IsMalformed e) : ¬ IsMismatch e := by
  obtain ⟨cause, rfl⟩ := malformed
  rintro ⟨found, expected, same⟩
  cases same

theorem Foreign.run {ws : List Word} (foreign : Foreign ws) (read : Nat) :
    ∃ e, IsMismatch e ∧ network.run ⟨ws, read⟩ = .error e := by
  have head : ∃ e, IsMismatch e ∧ format.run ⟨ws, read⟩ = .error e := by
    rcases foreign with ⟨w, rest, rfl, other⟩ | ⟨id, rest, rfl, length, unknown⟩
    · exact format_version other rest read
    · exact format_identifier length unknown rest read
  obtain ⟨e, mismatch, run⟩ := head
  refine ⟨e, mismatch, ?_⟩
  rw [network_body, StateT.run_bind, run]
  rfl

/-- Behind a known head nothing is a mismatch of versions. -/
theorem foreign_of_mismatch {ws : List Word} {read : Nat} {e : LoadError} (run : network.run ⟨ws, read⟩ = .error e)
    (mismatch : IsMismatch e) : Foreign ws := by
  by_contra native
  apply IsMalformed.not_mismatch _ mismatch
  cases ws with
  | nil =>
    cases run
    exact isMalformed _
  | cons w rest =>
    obtain rfl : w = formatVersion := by
      by_contra other
      exact native (.inl ⟨w, rest, rfl, other⟩)
    rcases Nat.lt_or_ge rest.length 8 with short | long
    · have out : network.RunsOut (formatVersion :: rest) :=
        ((gives_word formatVersion).bind_runsOut (times_word_runsOut short).bind).bind
      cases (out read).symm.trans run
      exact isMalformed _
    · have split : rest.take 8 ++ rest.drop 8 = rest := List.take_append_drop 8 rest
      have eight : (rest.take 8).length = 8 := by
        rw [List.length_take]
        omega
      obtain ⟨f, known⟩ : ∃ f : Format, rest.take 8 = identifierWords f.identifier := by
        by_contra unknown
        apply native
        refine .inr ⟨rest.take 8, rest.drop 8, by rw [split], eight, fun f same => unknown ⟨f, same⟩⟩
      rw [network_body, ← split, known, ← List.cons_append, (format_gives f).bind_run] at run
      exact (delimits_body f).error run

end Decode

/-! ## Whole words -/

namespace Network

open Decode

variable {ws : List Word} {verify : Bool} {net : Network} {e : LoadError}

theorem decode_of_error (run : network.run { rest := ws } = .error e) (verify : Bool) :
    decode ws verify = .error e := by
  rw [decode, run]
  rfl

/-- What is done behind the reading. -/
def conclude (verify : Bool) (net : Network) (cursor : WordCursor) : Except LoadError Network := do
  if !cursor.rest.isEmpty then throw (.malformed (.trailingWords cursor.rest.length))
  if verify then
    match net.fault? with
    | some cause => throw (.malformed cause)
    | none => return net
  else return net

theorem decode_of_run {cursor : WordCursor} (run : network.run { rest := ws } = .ok (net, cursor)) (verify : Bool) :
    decode ws verify = conclude verify net cursor := by
  rw [decode, run]
  rfl

theorem conclude_rest {cursor : WordCursor} (left : cursor.rest ≠ []) :
    conclude verify net cursor = .error (.malformed (.trailingWords cursor.rest.length)) := by
  have more : cursor.rest.isEmpty = false := by
    rw [← Bool.not_eq_true, List.isEmpty_iff]
    exact left
  rw [conclude, more]
  rfl

/-- What was read is refused as malformed or not at all. -/
theorem conclude_error {cursor : WordCursor} (error : conclude verify net cursor = .error e) : IsMalformed e := by
  by_cases left : cursor.rest = []
  · rw [conclude, left] at error
    cases verify with
    | false => cases error
    | true =>
      cases fault : net.fault? with
      | some cause =>
        simp only [fault] at error
        cases error
        exact isMalformed cause
      | none =>
        simp only [fault] at error
        cases error
  · cases (conclude_rest left).symm.trans error
    exact isMalformed _

theorem run_of_mismatch (error : decode ws verify = .error e) (mismatch : IsMismatch e) :
    network.run { rest := ws } = .error e := by
  cases run : network.run { rest := ws } with
  | error e' => exact congrArg Except.error (Except.error.inj ((decode_of_error run verify).symm.trans error))
  | ok read =>
    rw [decode_of_run run] at error
    exact absurd mismatch (conclude_error error).not_mismatch

/-- The reader looks at all words that are accepted. -/
theorem gives_of_decode (decoded : decode ws verify = .ok net) : ∃ net, network.Gives ws net := by
  cases delimits_network ws with
  | @gives first net' given rest =>
    rw [decode_of_run (given rest 0)] at decoded
    have end' : rest = [] := by
      by_contra left
      rw [conclude_rest left] at decoded
      cases decoded
    rw [end', List.append_nil]
    exact ⟨net', given⟩
  | refuses refused failure rest => cases (decode_of_error (refused rest 0) verify).symm.trans decoded
  | runsOut out => cases (decode_of_error (out 0) verify).symm.trans decoded

theorem decode_first {first tail : List Word} (given : network.Gives (first ++ tail) net) (more : tail ≠ [])
    (verify : Bool) : decode first verify = .error (.malformed (.endOfData first.length)) := by
  have whole := given [] 0
  rw [List.append_nil] at whole
  cases delimits_network first with
  | gives given' rest =>
    -- The reader would stop before the words that it has to look at.
    rw [List.append_assoc, given' (rest ++ tail) 0] at whole
    have none : rest ++ tail = [] := congrArg (·.2.rest) (Except.ok.inj whole)
    exact absurd (List.append_eq_nil_iff.1 none).2 more
  | refuses refused failure rest =>
    rw [List.append_assoc, refused (rest ++ tail) 0] at whole
    cases whole
  | runsOut out =>
    rw [decode_of_error (out 0), Nat.zero_add]

theorem decode_append (given : network.Gives ws net) {tail : List Word} (more : tail ≠ []) (verify : Bool) :
    decode (ws ++ tail) verify = .error (.malformed (.trailingWords tail.length)) := by
  rw [decode_of_run (given tail 0)]
  exact conclude_rest more

/-- Words that are accepted are neither a beginning of other accepted words nor continued by them: a beginning ends
too soon, and what is set behind them is left over. Words are refused for their version exactly when the version or
the identifier behind it is unknown. -/
theorem decode_delimited (ws : List Word) (verify : Bool) :
    (∀ net, decode ws verify = .ok net → ∀ verify',
      (∀ first tail, ws = first ++ tail → tail ≠ [] →
        decode first verify' = .error (.malformed (.endOfData first.length))) ∧
      ∀ tail, tail ≠ [] → decode (ws ++ tail) verify' = .error (.malformed (.trailingWords tail.length))) ∧
    ((∃ found expected, decode ws verify = .error (.versionMismatch found expected)) ↔ Foreign ws) := by
  constructor
  · intro net decoded verify'
    obtain ⟨net', given⟩ := gives_of_decode decoded
    constructor
    · rintro first tail rfl more
      exact decode_first given more verify'
    · intro tail more
      exact decode_append given more verify'
  · constructor
    · rintro ⟨found, expected, error⟩
      have mismatch : IsMismatch (.versionMismatch found expected) := ⟨found, expected, rfl⟩
      exact foreign_of_mismatch (run_of_mismatch error mismatch) mismatch
    · intro foreign
      obtain ⟨_, ⟨found, expected, rfl⟩, run⟩ := foreign.run 0
      exact ⟨found, expected, decode_of_error run verify⟩

/-- A parser rule that matches one token. -/
def tokenWords : List Word :=
  (formatVersion :: identifierWords Format.current.identifier) ++
    [1, 1, 2, 2, 0, 7, 0, 0, 0, 1, 0, 0, 0, 0, 1, 0, 1, 5, 1, 0, 0, 0]

theorem decode_delimited_token :
    (decode tokenWords true).toOption.isSome = true ∧
      (∀ first tail, tokenWords = first ++ tail → tail ≠ [] →
        decode first true = .error (.malformed (.endOfData first.length))) ∧
      decode (tokenWords ++ [0]) true = .error (.malformed (.trailingWords 1)) := by
  have accepted : (decode tokenWords true).toOption.isSome = true := by decide +kernel
  have both := (decode_delimited tokenWords true).1 _ (except_ok_getD accepted) true
  exact ⟨accepted, both.1, both.2 [0] (by decide)⟩

end Network

end AdaptiveLL
