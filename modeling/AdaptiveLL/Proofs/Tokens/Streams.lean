import Mathlib.Tactic.ByContra
import AdaptiveLL.TokenStream
import AdaptiveLL.Proofs.Tokens.Sources

/-!
# How token streams move

A stream keeps every token that it has read, in place, and behind the end of the input there is none
(`Sound`). Whatever is done with a stream lets it grow (`Grows`). Looking around does not pass over any
shown token (`Reads`), and consuming passes over exactly the current one (`consume_passes`), so the
tokens between two places of the stream are those that were consumed in between. A look far ahead that
returns to where it began has passed over nothing (`returnTo_back`).
-/

set_option autoImplicit false

namespace AdaptiveLL.TokenStream

open Session

variable {η : Type} {P : Int → Prop} {s s' s'' : TokenStream η} {fuel : Nat} {t : Token}

/-! ## Streams -/

/-- Every token has its place and a type with the property, the end of the input comes last, and the
current token is shown. -/
structure Sound (P : Int → Prop) (s : TokenStream η) : Prop where
  supplies : s.source.Supplies P
  placed : ∀ (i : Nat) (t : Token), s.tokens[i]? = some t → t.index = some i ∧ P t.type
  last : ∀ (i : Nat) (t : Token), s.tokens[i]? = some t → t.isEof = true →
    i + 1 = s.tokens.size ∧ s.fetchedEof = true
  fetched : s.fetchedEof = true → ∃ t, s.tokens[s.tokens.size - 1]? = some t ∧ t.isEof = true
  current : ∀ p, s.pos = some p → ∃ t, s.tokens[p]? = some t ∧ s.shows t = true

/-- The token is the current one, and the stream knows where it is. -/
def Faces (s : TokenStream η) (t : Token) : Prop := ∃ p, s.pos = some p ∧ s.tokens[p]? = some t

/-- The tokens of the channel from one place up to and without another. -/
def between (s : TokenStream η) (start stop : Nat) : List Token :=
  (s.tokens.toList.extract start stop).filter (·.channel == s.channel)

/-- The stream goes on: nothing that was read is lost. -/
structure Grows (P : Int → Prop) (s s' : TokenStream η) : Prop where
  sound : s'.Sound P
  channel : s'.channel = s.channel
  tokens : s.tokens.toList <+: s'.tokens.toList
  stays : s.pos.isSome = true → s'.pos.isSome = true

/-- The stream goes on, and no shown token is passed over. -/
structure Reads (P : Int → Prop) (s s' : TokenStream η) : Prop extends Grows P s s' where
  forth : s.index ≤ s'.index
  hidden : ∀ i, s.index ≤ i → i < s'.index → ∀ t : Token, s'.tokens[i]? = some t → s'.shows t = false

/-- A stream from which nothing has been read. -/
theorem sound_fresh {source : TokenSource η} (supplies : source.Supplies P) (channel : Int) :
    ({ source, channel } : TokenStream η).Sound P := by
  refine ⟨supplies, ?_, ?_, nofun, nofun⟩ <;> intro i t found <;> simp at found

theorem Grows.refl (sound : s.Sound P) : Grows P s s := ⟨sound, rfl, List.prefix_rfl, id⟩

theorem Grows.trans (first : Grows P s s') (second : Grows P s' s'') : Grows P s s'' :=
  ⟨second.sound, second.channel.trans first.channel, first.tokens.trans second.tokens,
    fun known => second.stays (first.stays known)⟩

theorem Grows.kept (grows : Grows P s s') {i : Nat} (found : s.tokens[i]? = some t) :
    s'.tokens[i]? = some t := by
  obtain ⟨more, whole⟩ := grows.tokens
  rw [← Array.getElem?_toList] at found ⊢
  rw [← whole, List.getElem?_append_left (List.getElem?_eq_some_iff.1 found).1, found]

theorem Grows.size_le (grows : Grows P s s') : s.tokens.size ≤ s'.tokens.size :=
  grows.tokens.length_le

theorem Grows.shows_eq (grows : Grows P s s') (t : Token) : s'.shows t = s.shows t := by
  simp only [shows, grows.channel]

theorem Reads.refl (sound : s.Sound P) : Reads P s s :=
  ⟨.refl sound, Nat.le_refl _, fun _ low high => absurd low (Nat.not_le.2 high)⟩

/-- The place of a sound stream that has read something is inside. -/
theorem Sound.inside (sound : s.Sound P) {p : Nat} (placed : s.pos = some p) : p < s.tokens.size := by
  obtain ⟨t, found, -⟩ := sound.current p placed
  exact (Array.getElem?_eq_some_iff.1 found).1

theorem Sound.index_le (sound : s.Sound P) : s.index ≤ s.tokens.size := by
  unfold index
  cases placed : s.pos with
  | none => exact Nat.zero_le _
  | some p => exact Nat.le_of_lt (sound.inside placed)

/-- Behind the end of the input there is no place for the current token. -/
theorem Sound.inside_of_fetched (sound : s.Sound P) (fetched : s.fetchedEof = true) :
    s.index < s.tokens.size := by
  cases placed : s.pos with
  | none =>
    obtain ⟨t, found, -⟩ := sound.fetched fetched
    have := (Array.getElem?_eq_some_iff.1 found).1
    simp only [index, placed, Option.getD_none]
    omega
  | some p => simpa [index, placed] using sound.inside placed

theorem Reads.trans (first : Reads P s s') (second : Reads P s' s'') : Reads P s s'' := by
  refine ⟨first.toGrows.trans second.toGrows, Nat.le_trans first.forth second.forth, ?_⟩
  intro i low high t found
  rcases Nat.lt_or_ge i s'.index with before | behind
  · have inside : i < s'.tokens.size := Nat.lt_of_lt_of_le before first.sound.index_le
    have same := second.kept (Array.getElem?_eq_getElem inside)
    rw [found] at same
    rw [second.shows_eq]
    exact first.hidden i low before t (same ▸ Array.getElem?_eq_getElem inside)
  · exact second.hidden i behind high t found

/-- Looking around does not move a stream that knows where it is. -/
theorem Reads.pos_eq (reads : Reads P s s') (sound : s.Sound P) {p : Nat} (placed : s.pos = some p) :
    s'.pos = some p := by
  obtain ⟨q, placed'⟩ := Option.isSome_iff_exists.1 (reads.stays (by rw [placed]; rfl))
  have index : s.index = p := by rw [TokenStream.index, placed]; rfl
  have index' : s'.index = q := by rw [TokenStream.index, placed']; rfl
  obtain ⟨t, found, shown⟩ := sound.current p placed
  have forth := reads.forth
  have hidden := reads.hidden p (Nat.le_of_eq index)
  rw [index, index'] at forth
  rw [index'] at hidden
  rcases Nat.eq_or_lt_of_le forth with same | before
  · rw [placed', same]
  · rw [← reads.shows_eq, hidden before t (reads.kept found)] at shown
    cases shown

theorem Reads.faces (reads : Reads P s s') (sound : s.Sound P) (faces : s.Faces t) : s'.Faces t := by
  obtain ⟨p, placed, found⟩ := faces
  exact ⟨p, reads.pos_eq sound placed, reads.kept found⟩

theorem Faces.unique {t' : Token} (first : s.Faces t) (second : s.Faces t') : t = t' := by
  obtain ⟨p, placed, found⟩ := first
  obtain ⟨q, placed', found'⟩ := second
  rw [placed] at placed'
  cases placed'
  rw [found] at found'
  exact Option.some.inj found'

/-- Nothing changes where the state of the user code does not. -/
theorem setHooks_hooks (s : TokenStream η) : s.setHooks s.hooks = s := by
  have source : s.source.setHooks s.source.hooks = s.source := by
    cases s.source <;> rfl
  exact congrArg (fun source => ({ s with source } : TokenStream η)) source

theorem Sound.setHooks (sound : s.Sound P) (h : η) : (s.setHooks h).Sound P :=
  ⟨sound.supplies.setHooks h, sound.placed, sound.last, sound.fetched, sound.current⟩

/-- User code does not move the stream. -/
theorem Sound.reads_setHooks (sound : s.Sound P) (h : η) : Reads P s (s.setHooks h) :=
  ⟨⟨sound.setHooks h, rfl, List.prefix_rfl, id⟩, Nat.le_refl _,
    fun _ low high => absurd low (Nat.not_le.2 high)⟩

/-! ## What lies between two places -/

theorem Grows.between_eq (grows : Grows P s s') {start stop : Nat} (inside : stop ≤ s.tokens.size) :
    s'.between start stop = s.between start stop := by
  obtain ⟨more, whole⟩ := grows.tokens
  unfold between
  rw [← whole, grows.channel, List.extract_eq_take_drop, List.extract_eq_take_drop]
  rcases Nat.le_total start stop with before | behind
  · rw [List.drop_append_of_le_length (by simpa using Nat.le_trans before inside),
      List.take_append_of_le_length (by simp; omega)]
  · rw [Nat.sub_eq_zero_of_le behind, List.take_zero, List.take_zero]

theorem between_append {start mid stop : Nat} (before : start ≤ mid) (behind : mid ≤ stop) :
    s.between start stop = s.between start mid ++ s.between mid stop := by
  have parts : stop - start = (mid - start) + (stop - mid) := by omega
  have rest : s.tokens.toList.drop mid = (s.tokens.toList.drop start).drop (mid - start) := by
    rw [List.drop_drop, Nat.add_sub_cancel' before]
  rw [between, between, between, ← List.filter_append, List.extract_eq_take_drop,
    List.extract_eq_take_drop, List.extract_eq_take_drop, parts, List.take_add, ← rest]

theorem between_self (place : Nat) : s.between place place = [] := by
  simp [between, List.extract_eq_take_drop]

theorem between_single {i : Nat} (found : s.tokens[i]? = some t) :
    s.between i (i + 1) = [t].filter (·.channel == s.channel) := by
  obtain ⟨inside, rfl⟩ := Array.getElem?_eq_some_iff.1 found
  rw [between, List.extract_eq_take_drop, Nat.add_sub_cancel_left,
    List.drop_eq_getElem_cons (by simpa using inside)]
  simp

/-- Tokens that are not shown do not lie on the channel. -/
theorem between_hidden {start stop : Nat} (inside : stop ≤ s.tokens.size)
    (hidden : ∀ i, start ≤ i → i < stop → ∀ t : Token, s.tokens[i]? = some t → s.shows t = false) :
    s.between start stop = [] := by
  refine List.filter_eq_nil_iff.2 fun t member => ?_
  rw [List.extract_eq_take_drop] at member
  obtain ⟨k, within, rfl⟩ := List.mem_take_iff_getElem.1 member
  simp only [List.getElem_drop, Array.getElem_toList]
  have found : s.tokens[start + k]? = some s.tokens[start + k] := Array.getElem?_eq_getElem _
  have unseen := hidden (start + k) (Nat.le_add_right _ _) (by omega) _ found
  simp only [shows, Bool.or_eq_false_iff] at unseen
  simp [unseen.1]

/-- Looking around leaves nothing behind. -/
theorem Reads.between_eq (reads : Reads P s s') (sound : s.Sound P) {start : Nat}
    (before : start ≤ s.index) : s'.between start s'.index = s.between start s.index := by
  rw [between_append before reads.forth, reads.toGrows.between_eq sound.index_le,
    between_hidden reads.sound.index_le reads.hidden, List.append_nil]

/-! ## Reading from the source -/

theorem fetchOne_grows (sound : s.Sound P) (more : s.fetchedEof = false) :
    Leads (fetchOne fuel) s fun _ s' =>
      Grows P s s' ∧ s'.pos = s.pos ∧ s.tokens.size < s'.tokens.size := by
  refine .get_bind (.part_bind (sound.supplies.nextToken fuel) fun t source ⟨isType, supplies⟩ =>
    .set_bind (.pure ⟨⟨⟨supplies, ?_, ?_, ?_, ?_⟩, rfl, ?_, id⟩, rfl, ?_⟩))
  · intro i t' found
    rw [Array.getElem?_push] at found
    split at found
    · cases found
      exact ⟨by subst i; rfl, isType⟩
    · exact sound.placed i t' found
  · intro i t' found isEof
    rw [Array.getElem?_push] at found
    split at found
    · cases found
      exact ⟨by subst i; simp, isEof⟩
    · obtain ⟨-, fetched⟩ := sound.last i t' found isEof
      rw [more] at fetched
      cases fetched
  · intro isEof
    exact ⟨_, by simp, isEof⟩
  · intro p placed
    obtain ⟨t', found, shown⟩ := sound.current p placed
    refine ⟨t', ?_, shown⟩
    rw [Array.getElem?_push, if_neg (Nat.ne_of_lt (sound.inside placed)), found]
  · simp
  · simp

theorem fetch_grows (sound : s.Sound P) (n : Nat) : Leads (fetch fuel n) s fun _ s' =>
    Grows P s s' ∧ s'.pos = s.pos ∧ (n ≠ 0 → s.fetchedEof = false → s.tokens.size < s'.tokens.size) := by
  induction n generalizing s with
  | zero => exact .pure ⟨.refl sound, rfl, fun none' => absurd rfl none'⟩
  | succ n ih =>
    refine .get_bind ?_
    split
    · rename_i atEnd
      exact .pure ⟨.refl sound, rfl, fun _ more => nomatch atEnd.symm.trans more⟩
    · rename_i more
      refine (fetchOne_grows sound (by simpa using more)).bind fun t s' ⟨grows, placed, longer⟩ =>
        (ih grows.sound).bind fun k s'' ⟨grows', placed', _⟩ => .pure ?_
      exact ⟨grows.trans grows', placed'.trans placed,
        fun _ _ => Nat.lt_of_lt_of_le longer grows'.size_le⟩

/-- A place behind the buffer can be asked for when it is the next one. -/
def Open (s : TokenStream η) (i : Nat) : Prop :=
  i ≤ s.tokens.size ∧ (s.fetchedEof = true → i < s.tokens.size)

theorem require_grows (sound : s.Sound P) {i : Nat} (isOpen : s.Open i) :
    Leads (require fuel i) s fun _ s' => Grows P s s' ∧ s'.pos = s.pos ∧ i < s'.tokens.size := by
  refine .get_bind ((fetch_grows sound _).bind fun _ s' ⟨grows, placed, longer⟩ =>
    .pure ⟨grows, placed, ?_⟩)
  have size := grows.size_le
  rcases Nat.lt_or_ge i s.tokens.size with inside | outside
  · exact Nat.lt_of_lt_of_le inside size
  · have more : s.fetchedEof = false := by
      by_contra fetched
      exact Nat.not_lt.2 outside (isOpen.2 (by simpa using fetched))
    exact Nat.lt_of_le_of_lt isOpen.1 (longer (by omega) more)

theorem Sound.open_next (sound : s.Sound P) {i : Nat} (found : s.tokens[i]? = some t)
    (inner : t.isEof = false) : s.Open (i + 1) := by
  have inside := (Array.getElem?_eq_some_iff.1 found).1
  refine ⟨inside, fun fetched => Nat.lt_of_le_of_ne inside fun same => ?_⟩
  obtain ⟨t', found', isEof⟩ := sound.fetched fetched
  rw [← same, Nat.add_sub_cancel, found] at found'
  cases found'
  rw [inner] at isEof
  cases isEof

theorem Sound.open_index (sound : s.Sound P) : s.Open s.index :=
  ⟨sound.index_le, sound.inside_of_fetched⟩

/-- The place is that of the first shown token at or behind another. -/
structure FirstShown (s : TokenStream η) (i p : Nat) : Prop where
  behind : i ≤ p
  shown : ∃ t, s.tokens[p]? = some t ∧ s.shows t = true
  hidden : ∀ k, i ≤ k → k < p → ∀ t : Token, s.tokens[k]? = some t → s.shows t = false

theorem nextShown_first (sound : s.Sound P) {i : Nat} (isOpen : s.Open i) (rounds : Nat) :
    Leads (nextShown fuel rounds i) s fun p s' =>
      Grows P s s' ∧ s'.pos = s.pos ∧ s'.FirstShown i p := by
  induction rounds generalizing s i with
  | zero => exact .of_failure
  | succ rounds ih =>
    refine (require_grows sound isOpen).bind fun _ s' ⟨grows, placed, inside⟩ => .get_bind ?_
    have found : s'.tokens[i]? = some s'.tokens[i] := Array.getElem?_eq_getElem inside
    simp only [found]
    split
    · rename_i shown
      exact .pure ⟨grows, placed, Nat.le_refl i, ⟨_, found, shown⟩,
        fun k low high => absurd low (Nat.not_le.2 high)⟩
    · rename_i hidden
      have inner : (s'.tokens[i]).isEof = false := by
        by_contra isEof
        simp [shows, isEof] at hidden
      refine (ih grows.sound (grows.sound.open_next found inner)).imp
        fun p s'' ⟨grows', placed', first⟩ => ⟨grows.trans grows', placed'.trans placed,
          Nat.le_of_succ_le first.behind, first.shown, fun k low high t isToken => ?_⟩
      rcases Nat.eq_or_lt_of_le low with rfl | behind
      · rw [grows'.kept found] at isToken
        cases isToken
        rw [grows'.shows_eq]
        simpa using hidden
      · exact first.hidden k behind high t isToken

/-! ## Looking around -/

theorem Grows.reads (grows : Grows P s s') (stays : s'.pos = s.pos) : Reads P s s' := by
  have same : s'.index = s.index := by rw [index, index, stays]
  exact ⟨grows, Nat.le_of_eq same.symm, fun i low high => absurd low (by omega)⟩

/-- Moving to the first shown token at or behind the place of an earlier stream passes over nothing. -/
theorem Grows.reads_first (grows : Grows P s s') {p : Nat} (first : s'.FirstShown s.index p) :
    Reads P s { s' with pos := some p } := by
  refine ⟨⟨⟨grows.sound.supplies, grows.sound.placed, grows.sound.last, grows.sound.fetched, ?_⟩,
    grows.channel, grows.tokens, fun _ => rfl⟩, first.behind, first.hidden⟩
  intro q placed
  cases placed
  exact first.shown

theorem current_reads (sound : s.Sound P) : Leads (current fuel) s fun p s' =>
    Reads P s s' ∧ s'.pos = some p := by
  refine .get_bind ?_
  split
  · rename_i p placed
    exact .pure ⟨.refl sound, placed⟩
  · rename_i unplaced
    have atStart : s.index = 0 := by rw [index, unplaced]; rfl
    refine (nextShown_first sound (atStart ▸ sound.open_index) fuel).bind
      fun p s' ⟨grows, _, first⟩ => .modify_bind (.pure ⟨grows.reads_first ?_, rfl⟩)
    rwa [atStart]

theorem ahead_grows (sound : s.Sound P) (n : Nat) {i : Nat} (found : s.tokens[i]? = some t) :
    Leads (ahead fuel n i) s fun p s' => Grows P s s' ∧ s'.pos = s.pos ∧
      (∃ t, s'.tokens[p]? = some t) ∧ (n = 0 → p = i) := by
  induction n generalizing s i t with
  | zero => exact .pure ⟨.refl sound, rfl, ⟨t, found⟩, fun _ => rfl⟩
  | succ n ih =>
    refine .get_bind ?_
    simp only [found]
    split
    · exact .pure ⟨.refl sound, rfl, ⟨t, found⟩, nofun⟩
    · rename_i inner
      refine (nextShown_first sound (sound.open_next found (by simpa using inner)) fuel).bind
        fun p s' ⟨grows, placed, first⟩ => ?_
      obtain ⟨t', found', -⟩ := first.shown
      exact (ih grows.sound found').imp fun q s'' ⟨grows', placed', known, _⟩ =>
        ⟨grows.trans grows', placed'.trans placed, known, nofun⟩

theorem lt_reads (sound : s.Sound P) (k : Int) : Leads (lt fuel k) s fun found s' =>
    Reads P s s' ∧ (∀ t, found = some t → ∃ i : Nat, s'.tokens[i]? = some t) ∧
      (k = 1 → ∃ t, found = some t ∧ s'.Faces t) := by
  refine (current_reads sound).bind fun p s' ⟨reads, placed⟩ => ?_
  split
  · rename_i zero
    exact .pure ⟨reads, nofun, fun one => by omega⟩
  split
  · rename_i behind
    refine .get_bind (.pure ⟨reads, fun t found => ?_, fun one => by omega⟩)
    obtain ⟨i, -, found'⟩ := Option.bind_eq_some_iff.1 found
    exact ⟨i, found'⟩
  · obtain ⟨t, found, -⟩ := reads.sound.current p placed
    refine (ahead_grows reads.sound _ found).bind fun q s'' ⟨grows, placed', ⟨t', found'⟩, first⟩ =>
      .get_bind (.pure ⟨reads.trans (grows.reads placed'), fun t isToken => ⟨q, isToken⟩, fun one => ?_⟩)
    obtain rfl := first (by simp [one])
    exact ⟨t', found', q, placed'.trans placed, found'⟩

theorem la_reads (sound : s.Sound P) (k : Int) : Leads (la fuel k) s fun type s' =>
    Reads P s s' ∧ (k = 1 → ∃ t, s'.Faces t ∧ t.type = type) := by
  refine (lt_reads sound k).bind fun found s' ⟨reads, _, first⟩ => .pure ⟨reads, fun one => ?_⟩
  obtain ⟨t, rfl, faces⟩ := first one
  exact ⟨t, faces, rfl⟩

/-! ## Moving -/

/-- A stream that returns to where it was has passed over nothing. -/
theorem returnTo_back (sound : s.Sound P) (grows : Grows P s s') :
    Leads (returnTo fuel s.index) s' fun _ s'' => Reads P s s'' := by
  refine (current_reads grows.sound).bind fun p s₁ ⟨reads, _⟩ => ?_
  have further := grows.trans reads.toGrows
  have isOpen : s₁.Open s.index := by
    refine ⟨Nat.le_trans sound.index_le further.size_le, fun fetched => ?_⟩
    cases placed : s.pos with
    | none =>
      have inside := reads.sound.inside_of_fetched fetched
      simp only [index, placed, Option.getD_none]
      omega
    | some q =>
      have inside := Nat.lt_of_lt_of_le (sound.inside placed) further.size_le
      simpa only [index, placed, Option.getD_some] using inside
  exact (nextShown_first reads.sound isOpen fuel).bind fun q s₂ ⟨grows', _, first⟩ =>
    .of_modify ((further.trans grows').reads_first first)

/-- Consuming passes over the current token; at the end of the input nothing moves. -/
theorem consume_grows (sound : s.Sound P) : Leads (consume fuel) s fun _ s' => Grows P s s' ∧
    ∀ t, s.Faces t → t.isEof = false → s.index ≤ s'.index ∧
      ∀ start ≤ s.index, s'.between start s'.index = s.between start s.index ++ [t] := by
  refine (current_reads sound).bind fun p s₁ ⟨reads, placed⟩ => .get_bind ?_
  obtain ⟨t, found, shown⟩ := reads.sound.current p placed
  have faces : s₁.Faces t := ⟨p, placed, found⟩
  simp only [found]
  split
  · rename_i inner
    have inner : t.isEof = false := by simpa using inner
    refine (nextShown_first reads.sound (reads.sound.open_next found inner) fuel).bind
      fun q s₂ ⟨grows, _, first⟩ => .of_modify ?_
    obtain ⟨t', found', -⟩ := first.shown
    have sound' : ({ s₂ with pos := some q } : TokenStream η).Sound P := by
      refine ⟨grows.sound.supplies, grows.sound.placed, grows.sound.last, grows.sound.fetched, ?_⟩
      intro k isPlace
      cases isPlace
      exact first.shown
    refine ⟨reads.toGrows.trans ⟨sound', grows.channel, grows.tokens, fun _ => rfl⟩, ?_⟩
    intro t₀ faces₀ _
    obtain rfl := (reads.faces sound faces₀).unique faces
    obtain ⟨p', placed', -⟩ := faces₀
    obtain rfl : p' = p := Option.some.inj ((reads.pos_eq sound placed').symm.trans placed)
    have index : s.index = p' := by rw [TokenStream.index, placed']; rfl
    have beyond : p' + 1 ≤ q := first.behind
    have onChannel : t₀.channel = s₂.channel := by
      rw [shows, inner, Bool.or_false, beq_iff_eq] at shown
      exact shown.trans grows.channel.symm
    refine ⟨by rw [index]; exact Nat.le_of_succ_le beyond, fun start before => ?_⟩
    rw [index] at before ⊢
    have inside := sound.inside placed'
    calc s₂.between start q
        = s₂.between start p' ++ (s₂.between p' (p' + 1) ++ s₂.between (p' + 1) q) := by
          rw [← between_append (Nat.le_succ p') beyond,
            ← between_append before (Nat.le_of_succ_le beyond)]
      _ = s.between start p' ++ [t₀] := by
          rw [(reads.toGrows.trans grows).between_eq (Nat.le_of_lt inside),
            between_single (grows.kept found),
            between_hidden (Nat.le_of_lt (Array.getElem?_eq_some_iff.1 found').1) first.hidden]
          simp [onChannel]
  · rename_i atEnd
    refine .pure ⟨reads.toGrows, fun t₀ faces₀ inner => ?_⟩
    obtain rfl := (reads.faces sound faces₀).unique faces
    rw [inner] at atEnd
    exact absurd rfl atEnd

end AdaptiveLL.TokenStream
