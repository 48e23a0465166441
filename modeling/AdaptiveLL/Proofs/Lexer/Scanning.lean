import AdaptiveLL.Proofs.Lexer.Fuel

/-!
# Matches without a memory

What a match does can be said without its cache: it begins with the start set of the mode and goes from
set to set by simulating the network, until nothing is reached or the end of the input is accepted.
This module says so as a relation on what a match sees (`Matches`) and shows that it is a function: a
match has at most one end (`Matches.unique`). The matches that look into a cache and add to it are
compared with it elsewhere.
-/

set_option autoImplicit false

namespace AdaptiveLL.Lexer

variable {η : Type}

/-! ## What a match sees -/

/-- What a match sees and moves, apart from what it has learned and counted. -/
structure Sight (η : Type) where
  input : CharStream
  hooks : η
  startIndex : Nat
  line : Nat
  column : Nat

/-- What the matcher sees. -/
def Matcher.sight (m : Matcher η) : Sight η :=
  { input := m.input, hooks := m.hooks, startIndex := m.startIndex, line := m.line, column := m.column }

namespace Sight

/-- A matcher that sees this and has learned nothing. -/
def matcher (v : Sight η) : Matcher η :=
  { cache := {}, input := v.input, hooks := v.hooks, startIndex := v.startIndex, line := v.line
    column := v.column }

/-- The user code was asked and is in another state. -/
def asked (v : Sight η) (h : η) : Sight η := { v with hooks := h }

/-- Behind the next symbol, unless the input is at its end. -/
def moved (v : Sight η) : Sight η :=
  if v.input.la 1 ≠ endOfInput then v.matcher.consume.sight else v

/-- At the start of a match. -/
def begun (v : Sight η) : Sight η := { v with startIndex := v.input.pos }

end Sight

theorem sight_consume (m : Matcher η) : m.consume.sight = m.sight.matcher.consume.sight := by
  by_cases newline : m.input.la 1 = '\n'.toNat
  · simp only [Matcher.consume, Matcher.sight, Sight.matcher, newline, if_true]
  · simp only [Matcher.consume, Matcher.sight, Sight.matcher, newline, if_false]

theorem cache_consume (m : Matcher η) : m.consume.cache = m.cache := by
  unfold Matcher.consume
  split <;> rfl

/-! ## One set after the other -/

/-- The sets that a simulation with some amount of fuel gives at the start of a mode. -/
def Starts (env : MatchEnv η) (v : Sight η) (s : ConfigSet) (h : η) : Prop :=
  ∃ fuel, startSet { env with fuel } v.input (env.net.modeStarts.getD env.mode 0) v.hooks = some ⟨s, h⟩

/-- The sets that a simulation with some amount of fuel gives behind the next symbol. -/
def Reaches (env : MatchEnv η) (v : Sight η) (configs s : ConfigSet) (h : η) : Prop :=
  ∃ fuel, reachSet { env with fuel } v.matcher configs (v.input.la 1) = some ⟨s, h⟩

variable {env : MatchEnv η} {v v' : Sight η} {configs s s' : ConfigSet} {h h' : η}

theorem Starts.unique (first : Starts env v s h) (second : Starts env v s' h') : s = s' ∧ h = h' := by
  obtain ⟨fuel, run⟩ := first
  obtain ⟨fuel', run'⟩ := second
  have more : ({ env with fuel } : MatchEnv η).fuel ≤ max fuel fuel' := Nat.le_max_left _ _
  have more' : ({ env with fuel := fuel' } : MatchEnv η).fuel ≤ max fuel fuel' := Nat.le_max_right _ _
  have both := (startSet_refuelled more run).symm.trans (startSet_refuelled more' run')
  simpa using both

theorem Reaches.unique (first : Reaches env v configs s h) (second : Reaches env v configs s' h') :
    s = s' ∧ h = h' := by
  obtain ⟨fuel, run⟩ := first
  obtain ⟨fuel', run'⟩ := second
  have more : ({ env with fuel } : MatchEnv η).fuel ≤ max fuel fuel' := Nat.le_max_left _ _
  have more' : ({ env with fuel := fuel' } : MatchEnv η).fuel ≤ max fuel fuel' := Nat.le_max_right _ _
  have both := (reachSet_refuelled more run).symm.trans (reachSet_refuelled more' run')
  simpa using both

/-- What is reached depends on the configurations of a set only. -/
theorem Reaches.of_same {configs' : ConfigSet} (same : configs'.configs = configs.configs)
    (reaches : Reaches env v configs s h) : Reaches env v configs' s h := by
  obtain ⟨fuel, run⟩ := reaches
  refine ⟨fuel, ?_⟩
  rw [reachSet] at run ⊢
  rwa [same]

/-! ## The loop -/

/-- From a set on, the simulation ends with the given symbol and the given last place at which a rule
was complete. -/
inductive Scans (env : MatchEnv η) :
    Sight η → ConfigSet → Option Accepted → Sight η → Int → Option Accepted → Prop
  | stuck {v : Sight η} {configs s : ConfigSet} {h : η} {last : Option Accepted}
      (reaches : Reaches env v configs s h) (nothing : s.isEmpty = true) :
      Scans env v configs last (v.asked h) (v.input.la 1) last
  | ended {v : Sight η} {configs s : ConfigSet} {h : η} {last : Option Accepted}
      (reaches : Reaches env v configs s h) (something : s.isEmpty = false)
      (accepts : (stateOf env.net s).accepts = true) (atEof : v.input.la 1 = endOfInput) :
      Scans env v configs last (v.asked h) (v.input.la 1)
        (note (stateOf env.net s) (v.asked h).matcher last)
  | goes {v v' : Sight η} {configs s : ConfigSet} {h : η} {last last' : Option Accepted} {symbol : Int}
      (reaches : Reaches env v configs s h) (something : s.isEmpty = false)
      (goesOn : ¬ ((stateOf env.net s).accepts = true ∧ v.input.la 1 = endOfInput))
      (rest : Scans env (v.asked h).moved s (note (stateOf env.net s) (v.asked h).moved.matcher last)
        v' symbol last') :
      Scans env v configs last v' symbol last'

theorem Scans.unique {last last₁ last₂ : Option Accepted} {v₁ v₂ : Sight η} {symbol₁ symbol₂ : Int}
    (first : Scans env v configs last v₁ symbol₁ last₁)
    (second : Scans env v configs last v₂ symbol₂ last₂) :
    v₁ = v₂ ∧ symbol₁ = symbol₂ ∧ last₁ = last₂ := by
  induction first with
  | stuck reaches nothing =>
    cases second with
    | stuck reaches' nothing' =>
      obtain ⟨rfl, rfl⟩ := reaches.unique reaches'
      exact ⟨rfl, rfl, rfl⟩
    | ended reaches' something' accepts' atEof' =>
      obtain ⟨rfl, rfl⟩ := reaches.unique reaches'
      exact absurd nothing (by simp [something'])
    | goes reaches' something' goesOn' rest' =>
      obtain ⟨rfl, rfl⟩ := reaches.unique reaches'
      exact absurd nothing (by simp [something'])
  | ended reaches something accepts atEof =>
    cases second with
    | stuck reaches' nothing' =>
      obtain ⟨rfl, rfl⟩ := reaches.unique reaches'
      exact absurd nothing' (by simp [something])
    | ended reaches' something' accepts' atEof' =>
      obtain ⟨rfl, rfl⟩ := reaches.unique reaches'
      exact ⟨rfl, rfl, rfl⟩
    | goes reaches' something' goesOn' rest' =>
      obtain ⟨rfl, rfl⟩ := reaches.unique reaches'
      exact absurd ⟨accepts, atEof⟩ goesOn'
  | goes reaches something goesOn rest ih =>
    cases second with
    | stuck reaches' nothing' =>
      obtain ⟨rfl, rfl⟩ := reaches.unique reaches'
      exact absurd nothing' (by simp [something])
    | ended reaches' something' accepts' atEof' =>
      obtain ⟨rfl, rfl⟩ := reaches.unique reaches'
      exact absurd ⟨accepts', atEof'⟩ goesOn
    | goes reaches' something' goesOn' rest' =>
      obtain ⟨rfl, rfl⟩ := reaches.unique reaches'
      exact ih rest'

/-- The fuel of the environment plays no part. -/
theorem Scans.refuel {last last' : Option Accepted} {symbol : Int} (fuel : Nat)
    (scans : Scans env v configs last v' symbol last') :
    Scans { env with fuel } v configs last v' symbol last' := by
  induction scans with
  | stuck reaches nothing => exact .stuck reaches nothing
  | ended reaches something accepts atEof => exact .ended reaches something accepts atEof
  | goes reaches something goesOn rest ih => exact .goes reaches something goesOn ih

/-! ## The whole match -/

/-- A match in the mode of the environment ends with the result. -/
inductive Matches (env : MatchEnv η) (v : Sight η) :
    Except RecognitionError TokenMatch → Sight η → Prop
  | intro {s : ConfigSet} {h : η} {v' : Sight η} {symbol : Int} {last : Option Accepted}
      {result : Except RecognitionError TokenMatch} {final : Matcher η}
      (starts : Starts env v.begun s h)
      (scans : Scans env (v.begun.asked h) s
        (note (stateOf env.net s) (v.begun.asked h).matcher none) v' symbol last)
      (concludes : (conclude symbol last).run v'.matcher = some (result, final)) :
      Matches env v result final.sight

/-- The fuel of the environment plays no part. -/
theorem Matches.refuel {result : Except RecognitionError TokenMatch} (fuel : Nat)
    (ends : Matches env v result v') : Matches { env with fuel } v result v' := by
  obtain ⟨starts, scans, concludes⟩ := ends
  exact .intro starts (scans.refuel fuel) concludes

/-- A match has at most one end. -/
theorem Matches.unique {result result' : Except RecognitionError TokenMatch} {v₁ v₂ : Sight η}
    (first : Matches env v result v₁) (second : Matches env v result' v₂) :
    result = result' ∧ v₁ = v₂ := by
  obtain ⟨starts, scans, concludes⟩ := first
  obtain ⟨starts', scans', concludes'⟩ := second
  obtain ⟨rfl, rfl⟩ := starts.unique starts'
  obtain ⟨rfl, rfl, rfl⟩ := scans.unique scans'
  rw [concludes] at concludes'
  cases concludes'
  exact ⟨rfl, rfl⟩

end AdaptiveLL.Lexer
