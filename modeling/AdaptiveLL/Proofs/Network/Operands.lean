import AdaptiveLL.Proofs.Network.Reading

/-!
# Lexer actions written and read back

The words of an action hold its two operands exactly, and channels and token types are operands as they
are. An index becomes an operand by its low 32 bits, read as a signed number, and the range of the word is
checked only then. So an index from 2^32 on can have a word, which is that of a smaller one, and the word of
an index whose low bits are all set stands for -1.

What is read of a written action is therefore the action with the low bits of its indices, or a refusal of
the operand -1 (`action_run_written`), and the action itself exactly when its indices are below 2^32 - 1
(`action_restored_iff`).
-/

set_option autoImplicit false

namespace AdaptiveLL

/-! ## Signed readings of indices -/

/-- A signed reading from -1 on is -1 or leaves the low 32 bits as they are. -/
theorem signed32_cases {n : Nat} (least : -1 ≤ signed32 n) :
    signed32 n = -1 ∧ n % 4294967296 = 4294967295 ∨
      signed32 n = (n % 4294967296 : Nat) ∧ n % 4294967296 < 2147483648 := by
  unfold signed32 at least ⊢
  rw [Int.bmod_def] at least ⊢
  split at least <;> rename_i half
  · rw [if_pos half]
    omega
  · rw [if_neg half]
    omega

theorem Encode.neg_one_le_of_signedWord {v : Int} {w : Word} (written : Encode.signedWord v = .ok w) :
    -1 ≤ v := by
  rw [← Encode.signedWord_ok written, wordValue]
  split <;> omega

namespace LexerAction

/-! ## Indices -/

/-- The operands that are indices. A pinned action is not written and has none. -/
def indices : LexerAction → List Nat
  | .custom rule action => [rule, action]
  | .mode m | .pushMode m => [m]
  | _ => []

/-- The action with other indices. -/
def mapIndices (f : Nat → Nat) : LexerAction → LexerAction
  | .custom rule action => .custom (f rule) (f action)
  | .mode m => .mode (f m)
  | .pushMode m => .pushMode (f m)
  | a => a

/-- The action with what a step makes of each index, in order, unless it fails for one. -/
def withIndices (f : Nat → Except Malformation Nat) : LexerAction → Except Malformation LexerAction
  | .custom rule action => do return .custom (← f rule) (← f action)
  | .mode m => do return .mode (← f m)
  | .pushMode m => do return .pushMode (← f m)
  | a => .ok a

theorem mapIndices_eq_self {f : Nat → Nat} {a : LexerAction} :
    a.mapIndices f = a ↔ ∀ n ∈ a.indices, f n = n := by
  cases a <;> simp [mapIndices, indices]

theorem withIndices_congr {f f' : Nat → Except Malformation Nat} {a : LexerAction}
    (same : ∀ n ∈ a.indices, f n = f' n) : a.withIndices f = a.withIndices f' := by
  cases a with
  | custom rule action =>
    rw [withIndices, withIndices, same rule (by simp [indices]), same action (by simp [indices])]
  | mode m | pushMode m => rw [withIndices, withIndices, same m (by simp [indices])]
  | _ => rfl

/-- A step that fails in one way only fails if it does for some index. -/
theorem withIndices_ite (p : Nat → Prop) [DecidablePred p] (cause : Malformation) (f : Nat → Nat)
    (a : LexerAction) :
    a.withIndices (fun n => if p n then .error cause else .ok (f n)) =
      if ∃ n ∈ a.indices, p n then .error cause else .ok (a.mapIndices f) := by
  cases a with
  | custom rule action =>
    by_cases first : p rule
    · simp [withIndices, indices, first, bind, Except.bind]
    · by_cases second : p action <;>
        simp [withIndices, mapIndices, indices, first, second, bind, Except.bind, pure, Except.pure]
  | mode m | pushMode m =>
    by_cases first : p m <;>
      simp [withIndices, mapIndices, indices, first, bind, Except.bind, pure, Except.pure]
  | _ => simp [withIndices, mapIndices, indices]

/-! ## Words and operands -/

/-- The action of a word and operands that were written has the signed readings for its indices. -/
theorem decode_encoded {a : LexerAction} {w : Word} {x y : Int} (encoded : a.encode = .ok (w, x, y)) :
    decode w x y = a.withIndices fun n => indexOperand w (signed32 n) := by
  cases a with
  | indexed offset a => cases encoded
  | _ =>
    simp only [encode, Except.ok.injEq, Prod.mk.injEq] at encoded
    obtain ⟨rfl, rfl, rfl⟩ := encoded
    simp only [decode, code, UInt16.reduceToNat, withIndices]

/-- An index that has a word is read as its low bits, or refused as -1 if all of them are set. -/
theorem indexOperand_of_least (w : Word) {n : Nat} (least : -1 ≤ signed32 n) :
    indexOperand w (signed32 n) =
      if n % 4294967296 = 4294967295 then .error (.actionOperand (-1) w.toNat)
      else .ok (n % 4294967296) := by
  rcases signed32_cases least with ⟨reading, low⟩ | ⟨reading, low⟩
  · rw [reading, if_pos low]
    rfl
  · rw [reading, if_neg (by omega), indexOperand, if_neg (by omega), Int.toNat_natCast]

/-- The word is that of the action, and every index is one of the operands. -/
theorem encode_ok {a : LexerAction} {w : Word} {x y : Int} (encoded : a.encode = .ok (w, x, y)) :
    w = a.code ∧ ∀ n ∈ a.indices, signed32 n = x ∨ signed32 n = y := by
  cases a with
  | indexed offset a => cases encoded
  | _ =>
    simp only [encode, Except.ok.injEq, Prod.mk.injEq] at encoded
    obtain ⟨rfl, rfl, rfl⟩ := encoded
    simp [indices]

end LexerAction

/-- The words of an action. -/
theorem Encode.action_words {a : LexerAction} {ws : List Word} (written : action a = .ok ws) :
    ∃ w x y x' y', a.encode = .ok (w, x, y) ∧ signedWord x = .ok x' ∧ signedWord y = .ok y' ∧
      ws = [w, x', y'] := by
  obtain ⟨⟨w, x, y⟩, encoded, rest⟩ := except_bind_ok.1 written
  obtain ⟨x', first, rest⟩ := except_bind_ok.1 rest
  obtain ⟨y', second, returned⟩ := except_bind_ok.1 rest
  cases returned
  exact ⟨w, x, y, x', y', encoded, first, second, rfl⟩

namespace Decode

theorem action_run (w x y : Word) (tail : List Word) (read : Nat) :
    action.run ⟨[w, x, y] ++ tail, read⟩ =
      match LexerAction.decode w (wordValue x) (wordValue y) with
      | .ok a => .ok (a, ⟨tail, read + 3⟩)
      | .error cause => .error (.malformed cause) := by
  show (match LexerAction.decode w (wordValue x) (wordValue y) with
    | .ok a => return a
    | .error cause => refuse cause : Decode LexerAction).run ⟨tail, read + 3⟩ = _
  cases LexerAction.decode w (wordValue x) (wordValue y) <;> rfl

/-- What is read of a written action: the action with the low 32 bits of its indices, unless they are all
set in one of them. -/
theorem action_run_written {a : LexerAction} {ws : List Word} (written : Encode.action a = .ok ws)
    (tail : List Word) (read : Nat) :
    action.run ⟨ws ++ tail, read⟩ =
      if ∃ n ∈ a.indices, n % 4294967296 = 4294967295 then
        .error (.malformed (.actionOperand (-1) a.code.toNat))
      else .ok (a.mapIndices (· % 4294967296), ⟨tail, read + 3⟩) := by
  obtain ⟨w, x, y, x', y', encoded, first, second, rfl⟩ := Encode.action_words written
  obtain ⟨rfl, operands⟩ := LexerAction.encode_ok encoded
  have least : ∀ n ∈ a.indices, -1 ≤ signed32 n := by
    intro n member
    rcases operands n member with reading | reading
    · rw [reading]
      exact Encode.neg_one_le_of_signedWord first
    · rw [reading]
      exact Encode.neg_one_le_of_signedWord second
  have decoded := LexerAction.decode_encoded encoded
  rw [LexerAction.withIndices_congr fun n member =>
    LexerAction.indexOperand_of_least a.code (least n member), LexerAction.withIndices_ite] at decoded
  rw [action_run, Encode.signedWord_ok first, Encode.signedWord_ok second, decoded]
  by_cases full : ∃ n ∈ a.indices, n % 4294967296 = 4294967295
  · rw [if_pos full, if_pos full]
  · rw [if_neg full, if_neg full]

/-- A written action is read back as it was exactly when its indices are below 2^32 - 1. -/
theorem action_restored_iff {a : LexerAction} {ws : List Word} (written : Encode.action a = .ok ws)
    (tail : List Word) (read : Nat) :
    action.run ⟨ws ++ tail, read⟩ = .ok (a, ⟨tail, read + 3⟩) ↔ ∀ n ∈ a.indices, n < 4294967295 := by
  rw [action_run_written written]
  split
  · rename_i full
    obtain ⟨n, member, all⟩ := full
    refine ⟨nofun, fun below => ?_⟩
    have := below n member
    omega
  · rename_i none'
    simp only [Except.ok.injEq, Prod.mk.injEq, and_true, LexerAction.mapIndices_eq_self]
    refine forall₂_congr fun n member => ?_
    have : n % 4294967296 ≠ 4294967295 := fun all => none' ⟨n, member, all⟩
    omega

theorem action_restored_custom :
    Encode.action (.custom 2 65534) = .ok [1, 2, 65534] ∧ ∀ tail read,
      action.run ⟨[1, 2, 65534] ++ tail, read⟩ = .ok (.custom 2 65534, ⟨tail, read + 3⟩) := by
  have written : Encode.action (.custom 2 65534) = .ok [1, 2, 65534] := by decide
  exact ⟨written, fun tail read => (action_restored_iff written tail read).2 (by decide)⟩

/-- The custom action 2^32 + 1 of a rule is read back as its action 1, and the mode 2^32 - 1 is not read back
at all. -/
theorem action_misread :
    (Encode.action (.custom 0 4294967297) = .ok [1, 0, 1] ∧ ∀ tail read,
      action.run ⟨[1, 0, 1] ++ tail, read⟩ = .ok (.custom 0 1, ⟨tail, read + 3⟩)) ∧
    (Encode.action (.mode 4294967295) = .ok [2, 65535, 0] ∧ ∀ tail read,
      action.run ⟨[2, 65535, 0] ++ tail, read⟩ = .error (.malformed (.actionOperand (-1) 2))) := by
  refine ⟨⟨by decide, fun tail read => ?_⟩, ⟨by decide, fun tail read => ?_⟩⟩
  · rfl
  · rfl

end Decode

end AdaptiveLL
