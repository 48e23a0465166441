import AdaptiveLL.TokenStream

/-!
# Tapes of tokens

What a token stream shows can be said without it: a tape holds all tokens of a source, and a place on the
tape is all that changes. Only the tokens of one channel and the end of the input are shown, and the place is
always that of a shown token (`TokenTape.shows_run`). Looking ahead and behind means to leave out the other
tokens and to count.

A place is not known before the tape is first looked at.
-/

set_option autoImplicit false

namespace AdaptiveLL

/-! ## Calls -/

/-- What a parser asks of tokens or does with them. -/
inductive TokenCall where
  | la (k : Int)
  | lt (k : Int)
  | consume
  | seek (i : Nat)
  | fill
  | index
  deriving DecidableEq, Inhabited

/-- The call names neither the least distance nor the greatest place. These two are counted wrongly in 64
bits. -/
def TokenCall.Proper : TokenCall → Prop
  | .la k => TokenStream.leastDistance < k
  | .lt k => TokenStream.leastDistance < k
  | .seek i => i < TokenStream.lastPlace
  | .consume => True
  | .fill => True
  | .index => True

instance : DecidablePred TokenCall.Proper
  | .la k => inferInstanceAs (Decidable (TokenStream.leastDistance < k))
  | .lt k => inferInstanceAs (Decidable (TokenStream.leastDistance < k))
  | .seek i => inferInstanceAs (Decidable (i < TokenStream.lastPlace))
  | .consume => .isTrue trivial
  | .fill => .isTrue trivial
  | .index => .isTrue trivial

/-- What a call gives. -/
inductive TokenAnswer where
  | type (type : Int)
  | token (t : Option Token)
  | place (i : Nat)
  | done
  deriving DecidableEq, Inhabited

/-- A list of tokens behind which the input ends, as the tokens of a channel are read from it. -/
structure TokenTape where
  body : List Token
  eof : Token
  channel : Int
  inner : ∀ t ∈ body, t.isEof = false
  ends : eof.isEof = true

namespace TokenTape

/-- All tokens with their places. -/
def tokens (tape : TokenTape) : List Token :=
  (tape.body ++ [tape.eof]).mapIdx fun i t => { t with index := some i }

/-- The token for the end of the input, with its place. -/
def last (tape : TokenTape) : Token := { tape.eof with index := some tape.body.length }

/-- Is the token on the channel that is shown? -/
def onChannel (tape : TokenTape) (t : Token) : Bool := t.channel == tape.channel

/-- The place of the first token on the channel at or behind a place, or of the end of the input. -/
def firstFrom (tape : TokenTape) (i : Nat) : Nat :=
  min tape.body.length (i + (tape.body.drop i).findIdx tape.onChannel)

/-- The token of the channel that comes as number `k` at or behind a place, or the end of the input. -/
def nth (tape : TokenTape) (i k : Nat) : Token :=
  ((tape.tokens.drop i).filter tape.onChannel)[k]?.getD tape.last

/-- The token of the channel that comes as number `k` before a place, counted backwards. -/
def nthBefore? (tape : TokenTape) (i k : Nat) : Option Token :=
  ((tape.tokens.take i).filter tape.onChannel).reverse[k]?

/-- The place of the current token; at first that of the first shown one. -/
def current (tape : TokenTape) (pos : Option Nat) : Nat := pos.getD (tape.firstFrom 0)

/-- The token `k` places ahead: 1 is the current one, -1 the one before. -/
def lt? (tape : TokenTape) (pos : Option Nat) : Int → Option Token
  | .ofNat 0 => none
  | .ofNat (k + 1) => some (tape.nth (tape.current pos) k)
  | .negSucc k => tape.nthBefore? (tape.current pos) k

/-- The answer to a call, and the place after it. -/
def call (tape : TokenTape) (pos : Option Nat) : TokenCall → TokenAnswer × Option Nat
  | .la k => (.type (((tape.lt? pos k).map (·.type)).getD invalidType), some (tape.current pos))
  | .lt k => (.token (tape.lt? pos k), some (tape.current pos))
  | .consume =>
    let p := tape.current pos
    (.done, some (if p < tape.body.length then tape.firstFrom (p + 1) else p))
  | .seek i => (.done, some (tape.firstFrom i))
  | .fill => (.done, some (tape.current pos))
  | .index => (.place (pos.getD 0), pos)

/-- The answers to calls one behind the other, and the place after them. -/
def run (tape : TokenTape) (pos : Option Nat) : List TokenCall → List TokenAnswer × Option Nat
  | [] => ([], pos)
  | c :: cs =>
    let (answer, pos) := tape.call pos c
    let (answers, pos) := tape.run pos cs
    (answer :: answers, pos)

variable {tape : TokenTape} {i : Nat} {t : Token}

/-! ## Tokens -/

@[simp]
theorem length_tokens (tape : TokenTape) : tape.tokens.length = tape.body.length + 1 := by
  simp [tokens]

theorem tokens_body (found : tape.body[i]? = some t) : tape.tokens[i]? = some { t with index := some i } := by
  have inside := (List.getElem?_eq_some_iff.1 found).1
  rw [tokens, List.getElem?_mapIdx, List.getElem?_append_left inside, found]
  rfl

theorem tokens_last (tape : TokenTape) : tape.tokens[tape.body.length]? = some tape.last := by
  simp [tokens, last]

theorem isEof_iff (inside : i < (tape.body ++ [tape.eof]).length) :
    (tape.body ++ [tape.eof])[i].isEof = true ↔ tape.body.length ≤ i := by
  rw [List.length_append, List.length_singleton] at inside
  rcases Nat.lt_or_ge i tape.body.length with inner | atEnd
  · rw [List.getElem_append_left inner, tape.inner _ (List.getElem_mem inner)]
    exact iff_of_false Bool.false_ne_true (Nat.not_le.2 inner)
  · obtain rfl : i = tape.body.length := by omega
    simpa using tape.ends

theorem index_of_tokens (found : tape.tokens[i]? = some t) : t.index = some i := by
  rw [tokens, List.getElem?_mapIdx] at found
  obtain ⟨t', -, rfl⟩ := Option.map_eq_some_iff.1 found
  rfl

/-! ## Shown tokens -/

/-- The token at the place is shown. -/
def Shows (tape : TokenTape) (i : Nat) : Prop :=
  i = tape.body.length ∨ ∃ t, tape.body[i]? = some t ∧ tape.onChannel t = true

theorem Shows.le (shows' : tape.Shows i) : i ≤ tape.body.length := by
  rcases shows' with rfl | ⟨t, found, -⟩
  · exact Nat.le_refl _
  · exact Nat.le_of_lt (List.getElem?_eq_some_iff.1 found).1

theorem firstFrom_of_le (behind : tape.body.length ≤ i) : tape.firstFrom i = tape.body.length :=
  Nat.min_eq_left (Nat.le_trans behind (Nat.le_add_right _ _))

theorem firstFrom_of_shows (shows' : tape.Shows i) : tape.firstFrom i = i := by
  rcases shows' with rfl | ⟨t, found, on⟩
  · exact firstFrom_of_le (Nat.le_refl _)
  · obtain ⟨inside, rfl⟩ := List.getElem?_eq_some_iff.1 found
    rw [firstFrom, List.drop_eq_getElem_cons inside, List.findIdx_cons, on]
    exact Nat.min_eq_right (Nat.le_of_lt inside)

theorem firstFrom_of_hidden (found : tape.body[i]? = some t) (off : tape.onChannel t = false) :
    tape.firstFrom i = tape.firstFrom (i + 1) := by
  obtain ⟨inside, rfl⟩ := List.getElem?_eq_some_iff.1 found
  rw [firstFrom, List.drop_eq_getElem_cons inside, List.findIdx_cons, off, firstFrom]
  simp only [cond_false, Nat.add_assoc, Nat.add_comm 1]

/-- A shown token is the first one at its place, and others are passed over. -/
theorem firstFrom_induction {P : Nat → Nat → Prop} (shown : ∀ i, tape.Shows i → P i i)
    (hidden : ∀ i t p, tape.body[i]? = some t → tape.onChannel t = false → P (i + 1) p → P i p)
    {i : Nat} (inside : i ≤ tape.body.length) : P i (tape.firstFrom i) := by
  induction distance : tape.body.length - i generalizing i with
  | zero =>
    obtain rfl : i = tape.body.length := by omega
    rw [firstFrom_of_le (Nat.le_refl _)]
    exact shown _ (.inl rfl)
  | succ n ih =>
    have before : i < tape.body.length := by omega
    have found : tape.body[i]? = some tape.body[i] := List.getElem?_eq_getElem before
    cases on : tape.onChannel tape.body[i] with
    | true =>
      have here : tape.Shows i := .inr ⟨_, found, on⟩
      rw [firstFrom_of_shows here]
      exact shown i here
    | false =>
      rw [firstFrom_of_hidden found on]
      exact hidden i _ _ found on (ih before (by omega))

theorem shows_firstFrom (tape : TokenTape) (i : Nat) : tape.Shows (tape.firstFrom i) := by
  rcases Nat.le_total i tape.body.length with inside | behind
  · exact firstFrom_induction (P := fun _ p => tape.Shows p) (fun _ here => here) (fun _ _ _ _ _ later => later) inside
  · exact .inl (firstFrom_of_le behind)

/-! ## Looking ahead -/

theorem drop_tokens (found : tape.body[i]? = some t) :
    tape.tokens.drop i = { t with index := some i } :: tape.tokens.drop (i + 1) := by
  obtain ⟨inside, same⟩ := List.getElem?_eq_some_iff.1 (tokens_body found)
  rw [List.drop_eq_getElem_cons inside, same]

theorem drop_tokens_length (tape : TokenTape) : tape.tokens.drop tape.body.length = [tape.last] := by
  obtain ⟨inside, same⟩ := List.getElem?_eq_some_iff.1 tape.tokens_last
  rw [List.drop_eq_getElem_cons inside, same, List.drop_of_length_le (by simp)]

/-- Behind the end of the input there is nothing else. -/
theorem nth_length (tape : TokenTape) (k : Nat) : tape.nth tape.body.length k = tape.last := by
  rw [nth, drop_tokens_length]
  cases on : tape.onChannel tape.last with
  | true => cases k <;> simp [on]
  | false => simp [on]

theorem tokens_of_shows (here : tape.Shows i) : tape.tokens[i]? = some (tape.nth i 0) := by
  rcases here with rfl | ⟨t, found, on⟩
  · rw [tokens_last, nth_length]
  · rw [tokens_body found, nth, drop_tokens found, List.filter_cons_of_pos (by exact on)]
    rfl

theorem nth_firstFrom (inside : i ≤ tape.body.length) (k : Nat) : tape.nth (tape.firstFrom i) k = tape.nth i k := by
  refine firstFrom_induction (P := fun i p => tape.nth p k = tape.nth i k) (fun _ _ => rfl)
    (fun i t p found off later => ?_) inside
  rw [later, nth, nth, drop_tokens found, List.filter_cons_of_neg]
  simpa using show tape.onChannel { t with index := some i } = false from off

theorem nth_succ (found : tape.body[i]? = some t) (on : tape.onChannel t = true) (k : Nat) :
    tape.nth i (k + 1) = tape.nth (tape.firstFrom (i + 1)) k := by
  rw [nth_firstFrom (List.getElem?_eq_some_iff.1 found).1, nth, drop_tokens found,
    List.filter_cons_of_pos (by exact on)]
  rfl

/-! ## Looking behind -/

theorem take_tokens (found : tape.body[i]? = some t) :
    tape.tokens.take (i + 1) = tape.tokens.take i ++ [{ t with index := some i }] := by
  rw [List.take_add_one, tokens_body found]
  rfl

theorem nthBefore?_succ_of_hidden (found : tape.body[i]? = some t) (off : tape.onChannel t = false) (k : Nat) :
    tape.nthBefore? (i + 1) k = tape.nthBefore? i k := by
  rw [nthBefore?, take_tokens found, List.filter_append, List.filter_cons_of_neg, List.filter_nil,
    List.append_nil, nthBefore?]
  simpa using show tape.onChannel { t with index := some i } = false from off

theorem nthBefore?_succ (found : tape.body[i]? = some t) (on : tape.onChannel t = true) (k : Nat) :
    tape.nthBefore? (i + 1) k = match k with
      | 0 => tape.tokens[i]?
      | k + 1 => tape.nthBefore? i k := by
  rw [nthBefore?, take_tokens found, List.filter_append, List.filter_cons_of_pos (by exact on), List.filter_nil,
    List.reverse_append, List.reverse_singleton, List.singleton_append]
  cases k with
  | zero => rw [tokens_body found]; rfl
  | succ k => rfl

/-! ## Runs -/

/-- The place, if it is known, is that of a shown token. -/
def Placed (tape : TokenTape) (pos : Option Nat) : Prop := ∀ p, pos = some p → tape.Shows p

theorem Placed.current {pos : Option Nat} (placed : tape.Placed pos) : tape.Shows (tape.current pos) := by
  cases pos with
  | none => exact tape.shows_firstFrom 0
  | some p => exact placed p rfl

theorem Placed.call {pos : Option Nat} (placed : tape.Placed pos) (c : TokenCall) :
    tape.Placed (tape.call pos c).2 := by
  intro p place
  cases c with
  | la k =>
    cases place
    exact placed.current
  | lt k =>
    cases place
    exact placed.current
  | consume =>
    simp only [TokenTape.call, Option.some.injEq] at place
    subst place
    split
    · exact tape.shows_firstFrom _
    · exact placed.current
  | seek i =>
    cases place
    exact tape.shows_firstFrom i
  | fill =>
    cases place
    exact placed.current
  | index => exact placed p place

end TokenTape

end AdaptiveLL
