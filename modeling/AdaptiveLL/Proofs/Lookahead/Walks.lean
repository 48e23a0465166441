import AdaptiveLL.Proofs.Network.Looking
import AdaptiveLL.Proofs.Symbols.Taking
import Mathlib.Data.Nat.Digits.Lemmas

/-!
# Lookahead walks

A lookahead walk goes on behind a transition that consumes nothing, unless it calls a rule that the walk is in,
and notes the symbols of the others (`look_eq`). `Walks` is this walk without a bound on its depth: it can only be
derived for a walk that ends.

What a walk is in is told by the calls that are pending above the stack it began with (`Frames`). From the start
of each of these rules it has come to where it is without consuming, so in a network where no rule comes back to
its start no call is ever passed over (`Frames.not_called`), and the end of a rule takes off just the innermost
call (`Frames.back`). So there are no more pending calls than rules. On the way down a walk never meets a state
with the same stack twice, and therefore it ends within the bound (`look_walks`).
-/

set_option autoImplicit false

namespace AdaptiveLL

open Network (Thread)

/-! ## What a walk has seen -/

namespace Look

variable {acc : Look} {θ θ' : Thread}

/-- The walk has been at the state with this stack. -/
def Saw (acc : Look) (θ : Thread) : Prop := acc.seen.contains (θ.state, θ.stack) = true

/-- The walk comes to the state with this stack. -/
def visit (acc : Look) (θ : Thread) : Look := { acc with seen := acc.seen.insert (θ.state, θ.stack) }

/-- The walk notes symbols. -/
def note (acc : Look) (symbols : SymbolSet) : Look := { acc with found := acc.found.union symbols }

theorem saw_visit : (acc.visit θ).Saw θ' ↔ θ' = θ ∨ acc.Saw θ' := by
  obtain ⟨n, stack⟩ := θ
  obtain ⟨n', stack'⟩ := θ'
  rw [Saw, visit, Std.HashSet.contains_insert, Bool.or_eq_true, beq_iff_eq, Prod.mk.injEq, Thread.mk.injEq,
    eq_comm (a := n), eq_comm (a := stack)]
  rfl

theorem not_saw_empty : ¬ ({} : Look).Saw θ := by simp [Saw]

end Look

namespace Network

variable {net : Network} {g : Grammar} {bottom : Int} {fuel depth n m r start follow : Nat} {stack called : List Nat}
  {acc acc' : Look} {t : Transition}

/-! ## One step of a walk -/

/-- Where a walk goes on behind a transition, with its stack and the rules it is in. -/
def descends (stack called : List Nat) (t : Transition) : Option (Nat × List Nat × List Nat) :=
  match t.move with
  | .free m => some (m, stack, called)
  | .call r start follow => if called.contains r then none else some (start, follow :: stack, r :: called)
  | .consume _ => none

/-- The symbols that a walk notes at a transition. -/
def noted (net : Network) (t : Transition) : SymbolSet :=
  match t.label with
  | .wildcard => .ofRange minTokenType net.maxTokenType
  | .notSet s => s.complement minTokenType net.maxTokenType
  | l => l.symbols?.getD .empty

/-- What a walk does at a transition. -/
def lookStep (net : Network) (bottom : Int) (fuel : Nat) (stack called : List Nat) (acc : Look) (t : Transition) :
    Look :=
  match descends stack called t with
  | some (m, stack, called) => net.look bottom fuel m stack called acc
  | none => acc.note (net.noted t)

theorem addRange_eq_union (s : SymbolSet) (lo hi : Int) : s.addRange lo hi = s.union (.ofRange lo hi) := by
  by_cases below : hi < lo
  · simp [SymbolSet.addRange, SymbolSet.ofRange, SymbolSet.union, below, SymbolSet.empty]
  · simp [SymbolSet.addRange, SymbolSet.ofRange, SymbolSet.union, below, SymbolSet.empty, SymbolSet.insertInterval]

theorem look_eq (net : Network) (bottom : Int) (fuel n : Nat) (stack called : List Nat) (acc : Look) :
    net.look bottom (fuel + 1) n stack called acc =
      if acc.seen.contains (n, stack) then acc
      else if net.isStop n then
        match stack with
        | [] => { acc.visit ⟨n, stack⟩ with found := acc.found.add bottom }
        | ret :: rest =>
          net.look bottom fuel ret rest (called.filter (· ≠ (net.state n).rule.getD 0)) (acc.visit ⟨n, ret :: rest⟩)
      else (net.out n).foldl (net.lookStep bottom fuel stack called) (acc.visit ⟨n, stack⟩) := by
  rw [look]
  split
  · rfl
  · dsimp only
    split
    · rename_i stop
      rw [if_pos (show net.isStop n = true from stop)]
      cases stack <;> rfl
    · rename_i inner
      rw [if_neg (show ¬ net.isStop n = true from inner)]
      refine List.foldl_ext _ _ _ fun acc t _ => ?_
      unfold lookStep descends noted Transition.move
      cases t.label with
      | rule r p follow =>
        dsimp only
        split <;> rfl
      | wildcard => exact congrArg (fun found => { acc with found }) (addRange_eq_union _ _ _)
      | _ => rfl

/-- What was seen stays seen. -/
theorem look_grows {θ : Thread} (saw : acc.Saw θ) : (net.look bottom fuel n stack called acc).Saw θ := by
  induction fuel generalizing n stack called acc with
  | zero => exact saw
  | succ fuel ih =>
    have entered : (acc.visit ⟨n, stack⟩).Saw θ := Look.saw_visit.2 (.inr saw)
    rw [look_eq]
    split
    · exact saw
    · split
      · cases stack with
        | nil => exact entered
        | cons ret rest => exact ih entered
      · refine List.foldlRecOn (motive := (Look.Saw · θ)) _ _ entered fun before saw t _ => ?_
        unfold lookStep
        split
        · exact ih saw
        · exact saw

theorem lookStep_grows {θ : Thread} (saw : acc.Saw θ) : (net.lookStep bottom fuel stack called acc t).Saw θ := by
  unfold lookStep
  split
  · exact look_grows saw
  · exact saw

/-- A lookahead walk without a bound on its depth, from a state with a stack and the rules that the walk is in, and
from what it knows to what it knows in the end. Behind the first `i` transitions of a state it knows `after i`. -/
inductive Walks (net : Network) (bottom : Int) : Nat → List Nat → List Nat → Look → Look → Prop
  | again {n : Nat} {stack called : List Nat} {acc : Look} (seen : acc.Saw ⟨n, stack⟩) :
    Walks net bottom n stack called acc acc
  | ends {n : Nat} {called : List Nat} {acc : Look} (new : ¬ acc.Saw ⟨n, []⟩) (stop : net.isStop n = true) :
    Walks net bottom n [] called acc { acc.visit ⟨n, []⟩ with found := acc.found.add bottom }
  | returns {n ret : Nat} {stack called : List Nat} {acc acc' : Look} (new : ¬ acc.Saw ⟨n, ret :: stack⟩)
    (stop : net.isStop n = true) (rest : Walks net bottom ret stack (called.filter (· ≠ (net.state n).rule.getD 0))
      (acc.visit ⟨n, ret :: stack⟩) acc') : Walks net bottom n (ret :: stack) called acc acc'
  | crosses {n : Nat} {stack called : List Nat} {acc : Look} (new : ¬ acc.Saw ⟨n, stack⟩)
    (inner : net.isStop n = false) (after : Nat → Look) (start : after 0 = acc.visit ⟨n, stack⟩)
    (notes : ∀ (i : Nat) (t : Transition), (net.out n)[i]? = some t → descends stack called t = none →
      after (i + 1) = (after i).note (net.noted t))
    (goes : ∀ (i : Nat) (t : Transition) (m : Nat) (stack' called' : List Nat), (net.out n)[i]? = some t →
      descends stack called t = some (m, stack', called') → Walks net bottom m stack' called' (after i) (after (i + 1))) :
    Walks net bottom n stack called acc (after (net.out n).length)

/-! ## Pending calls -/

/-- Steps within a rule stay in the rule. -/
theorem rule_of_glides (built : net.Built g) {passable : Nat → Prop}
    (run : Relation.ReflTransGen (net.Glides passable) n m) (owned : (net.state n).rule = some r) :
    (net.state m).rule = some r := by
  induction run with
  | refl => exact owned
  | tail _ step ih =>
    cases step with
    | free inner move => exact built.owner _ r ih inner _ move
    | skip inner move => exact built.owner _ r ih inner _ move

theorem passes_of_glides (run : Relation.ReflTransGen (net.Glides net.Passes) n m) (passes : net.Passes m) :
    net.Passes n := by
  induction run using Relation.ReflTransGen.head_induction_on with
  | refl => exact passes
  | head step _ ih =>
    cases step with
    | free inner move => exact .free inner move ih
    | skip inner move through => exact .call inner move through ih

/-- The calls that are pending where a walk is, each of a rule from whose start the walk has come to the next call,
or to where it is, without consuming. Below them lies what the walk still has of the stack it began with. -/
inductive Frames (net : Network) (depth : Nat) : Nat → List Nat → List Nat → Prop
  | ground {n : Nat} {stack : List Nat} (short : stack.length ≤ depth) : Frames net depth n stack []
  | called {n m r start follow : Nat} {stack called : List Nat} (outer : Frames net depth m stack called)
    (inner : net.isStop m = false) (call : .call r start follow ∈ net.moves m)
    (way : Relation.ReflTransGen (net.Glides net.Passes) start n) :
    Frames net depth n (follow :: stack) (r :: called)

namespace Frames

/-- A step within the innermost call. -/
theorem glide (frames : net.Frames depth n stack called) (step : net.Glides net.Passes n m) :
    net.Frames depth m stack called := by
  cases frames with
  | ground short => exact .ground short
  | called outer inner call way => exact .called outer inner call (way.tail step)

theorem silent (calls : net.CallsStarts) (frames : net.Frames depth n stack called) (member : r ∈ called) :
    Relation.ReflTransGen net.Silent (net.ruleStart r) n := by
  induction frames with
  | ground => cases member
  | @called n m r' start follow stack called outer inner call way ih =>
    obtain ⟨-, isStart⟩ := calls m r' start follow inner call
    have within : Relation.ReflTransGen net.Silent start n := Relation.ReflTransGen.mono (fun _ _ => .glide) _ _ way
    rcases List.mem_cons.1 member with rfl | member
    · exact isStart ▸ within
    · exact ((ih member).tail (.enter inner call)).trans within

/-- No rule is called that a call is pending of. -/
theorem not_called (calls : net.CallsStarts) (progressive : net.Progressive)
    (frames : net.Frames depth n stack called) (inner : net.isStop n = false)
    (call : .call r start follow ∈ net.moves n) : r ∉ called := by
  intro member
  obtain ⟨known, rfl⟩ := calls n r start follow inner call
  exact progressive r known (Relation.TransGen.tail' (frames.silent calls member) (.enter inner call))

theorem nodup (calls : net.CallsStarts) (progressive : net.Progressive) (frames : net.Frames depth n stack called) :
    called.Nodup := by
  induction frames with
  | ground => exact List.nodup_nil
  | called outer inner call way ih => exact List.nodup_cons.2 ⟨outer.not_called calls progressive inner call, ih⟩

theorem lt_numRules (calls : net.CallsStarts) (frames : net.Frames depth n stack called) :
    ∀ r ∈ called, r < net.numRules := by
  induction frames with
  | ground => exact List.forall_mem_nil _
  | called outer inner call way ih => exact List.forall_mem_cons.2 ⟨(calls _ _ _ _ inner call).1, ih⟩

theorem length_eq (frames : net.Frames depth n stack called) : stack.length ≤ depth + called.length := by
  induction frames with
  | ground short => exact short
  | called outer inner call way ih =>
    simp only [List.length_cons]
    omega

/-- There are no more pending calls than rules. -/
theorem length_le (calls : net.CallsStarts) (progressive : net.Progressive)
    (frames : net.Frames depth n stack called) : stack.length ≤ depth + net.numRules := by
  have few : called.length ≤ (List.range net.numRules).length :=
    (List.subperm_of_subset (frames.nodup calls progressive) fun r member =>
      List.mem_range.2 (frames.lt_numRules calls r member)).length_le
  rw [List.length_range] at few
  have := frames.length_eq
  omega

/-- The end of a rule takes off the innermost call. -/
theorem back (built : net.Built g) (progressive : net.Progressive)
    (frames : net.Frames depth n (follow :: stack) called) (stop : net.isStop n = true) :
    net.Frames depth follow stack (called.filter (· ≠ (net.state n).rule.getD 0)) := by
  cases frames with
  | ground short => exact .ground (Nat.le_of_succ_le short)
  | @called _ m r start _ _ called outer inner call way =>
    obtain ⟨known, rfl⟩ := built.calls m r start follow inner call
    have absent := outer.not_called built.calls progressive inner call
    have isRule : (net.state n).rule.getD 0 = r := by
      rw [rule_of_glides built way (built.startRule r known), Option.getD_some]
    have off : (r :: called).filter (· ≠ r) = called := by
      rw [List.filter_cons_of_neg (by simp), List.filter_eq_self]
      exact fun r' member => decide_eq_true fun same => absent (same ▸ member)
    rw [isRule, off]
    exact outer.glide (.skip inner call (passes_of_glides way (.stop stop)))

/-- Where a walk goes on behind a transition it has come through the calls that are pending there. -/
theorem descends {m : Nat} {stack' called' : List Nat} (frames : net.Frames depth n stack called)
    (inner : net.isStop n = false) (member : t ∈ net.out n)
    (goes : descends stack called t = some (m, stack', called')) : net.Frames depth m stack' called' := by
  unfold Network.descends at goes
  cases move : t.move with
  | free m' =>
    rw [move] at goes
    cases goes
    exact frames.glide (.free inner (move ▸ List.mem_map_of_mem member))
  | consume m' =>
    rw [move] at goes
    cases goes
  | call r start follow =>
    rw [move] at goes
    dsimp only at goes
    split at goes
    · cases goes
    · cases goes
      exact .called frames inner (move ▸ List.mem_map_of_mem member) .refl

end Frames

/-! ## The states of a walk -/

/-- The state and those of the stack belong to rules. -/
def Housed (net : Network) (n : Nat) (stack : List Nat) : Prop := ∀ m ∈ n :: stack, ∃ r, (net.state m).rule = some r

namespace Housed

theorem tail {ret : Nat} (housed : net.Housed n (ret :: stack)) : net.Housed ret stack :=
  fun m member => housed m (List.mem_cons_of_mem n member)

theorem descends (built : net.Built g) {m : Nat} {stack' called' : List Nat} (housed : net.Housed n stack)
    (inner : net.isStop n = false) (member : t ∈ net.out n)
    (goes : descends stack called t = some (m, stack', called')) : net.Housed m stack' := by
  obtain ⟨⟨r, owned⟩, below⟩ := List.forall_mem_cons.1 housed
  unfold Network.descends at goes
  cases move : t.move with
  | free m' =>
    rw [move] at goes
    cases goes
    exact List.forall_mem_cons.2 ⟨⟨r, built.owner n r owned inner (.free m) (move ▸ List.mem_map_of_mem member)⟩, below⟩
  | consume m' =>
    rw [move] at goes
    cases goes
  | call r' start follow =>
    rw [move] at goes
    dsimp only at goes
    have call : .call r' start follow ∈ net.moves n := move ▸ List.mem_map_of_mem member
    obtain ⟨known, rfl⟩ := built.calls n r' start follow inner call
    split at goes
    · cases goes
    · cases goes
      exact List.forall_mem_cons.2 ⟨⟨r', built.startRule r' known⟩,
        List.forall_mem_cons.2 ⟨⟨r, built.owner n r owned inner _ call⟩, below⟩⟩

theorem lt_size (housed : net.Housed n stack) : ∀ m ∈ n :: stack, m < net.states.size := by
  intro m member
  obtain ⟨r, owned⟩ := housed m member
  by_contra outside
  rw [state_of_le (Nat.not_lt.1 outside)] at owned
  cases owned

end Housed

/-! ## Enough fuel -/

/-- There are only so many threads with a stack of bounded depth: read as a number, the state and the stack have a
digit for each state that is not zero. -/
theorem length_le_of_distinct {size most : Nat} {path : List Thread} (distinct : path.Nodup)
    (inside : ∀ θ ∈ path, θ.stack.length ≤ most ∧ ∀ m ∈ θ.state :: θ.stack, m < size) :
    path.length ≤ (size + 1) ^ (most + 1) := by
  let digits (θ : Thread) : List Nat := (θ.state :: θ.stack).map (· + 1)
  have base (θ : Thread) (member : θ ∈ path) : 1 < size + 1 := by
    have := (inside θ member).2 θ.state List.mem_cons_self
    omega
  have small (θ : Thread) (member : θ ∈ path) : ∀ d ∈ digits θ, d < size + 1 := by
    intro d among
    obtain ⟨m, here, rfl⟩ := List.mem_map.1 among
    exact Nat.succ_lt_succ ((inside θ member).2 m here)
  have code (θ : Thread) (member : θ ∈ path) : Nat.digits (size + 1) (Nat.ofDigits (size + 1) (digits θ)) = digits θ := by
    refine Nat.digits_ofDigits _ (base θ member) _ (small θ member) fun nonempty => ?_
    obtain ⟨m, -, same⟩ := List.mem_map.1 (List.getLast_mem nonempty)
    omega
  have apart : (path.map fun θ => Nat.ofDigits (size + 1) (digits θ)).Nodup := by
    refine (List.nodup_map_iff_inj_on distinct).2 fun θ member θ' member' same => ?_
    have same := congrArg (Nat.digits (size + 1)) same
    rw [code θ member, code θ' member'] at same
    have same := List.map_injective_iff.2 Nat.succ_injective same
    obtain ⟨n, stack⟩ := θ
    obtain ⟨n', stack'⟩ := θ'
    obtain ⟨rfl, rfl⟩ := List.cons.inj same
    rfl
  have below : ∀ k ∈ path.map fun θ => Nat.ofDigits (size + 1) (digits θ), k ∈ List.range ((size + 1) ^ (most + 1)) := by
    intro k among
    obtain ⟨θ, member, rfl⟩ := List.mem_map.1 among
    refine List.mem_range.2 (Nat.lt_of_lt_of_le (Nat.ofDigits_lt_base_pow_length (base θ member) (small θ member)) ?_)
    refine Nat.pow_le_pow_right (Nat.succ_pos size) ?_
    rw [List.length_map, List.length_cons]
    exact Nat.succ_le_succ (inside θ member).1
  simpa using (List.subperm_of_subset apart below).length_le

/-- The way down: the walk has come through threads that differ from each other, and there are not more of them
than there is fuel for. -/
theorem look_walks_from (built : net.Built g) (progressive : net.Progressive)
    (frames : net.Frames depth n stack called) (housed : net.Housed n stack) {path : List Thread}
    (distinct : path.Nodup) (seen : ∀ θ ∈ path, acc.Saw θ)
    (inside : ∀ θ ∈ path, θ.stack.length ≤ depth + net.numRules ∧ ∀ m ∈ θ.state :: θ.stack, m < net.states.size)
    (enough : (net.states.size + 1) ^ (depth + net.numRules + 1) < fuel + path.length) :
    net.Walks bottom n stack called acc (net.look bottom fuel n stack called acc) := by
  induction fuel generalizing n stack called acc path with
  | zero =>
    have few := length_le_of_distinct distinct inside
    omega
  | succ fuel ih =>
    rw [look_eq]
    by_cases saw : acc.Saw ⟨n, stack⟩
    · rw [if_pos (show acc.seen.contains (n, stack) = true from saw)]
      exact .again saw
    · rw [if_neg (show ¬ acc.seen.contains (n, stack) = true from saw)]
      have longer : (⟨n, stack⟩ :: path).Nodup := List.nodup_cons.2 ⟨fun member => saw (seen _ member), distinct⟩
      have visited : ∀ θ ∈ ⟨n, stack⟩ :: path, (acc.visit ⟨n, stack⟩).Saw θ := List.forall_mem_cons.2
        ⟨Look.saw_visit.2 (.inl rfl), fun θ member => Look.saw_visit.2 (.inr (seen θ member))⟩
      have within : ∀ θ ∈ ⟨n, stack⟩ :: path, θ.stack.length ≤ depth + net.numRules ∧
          ∀ m ∈ θ.state :: θ.stack, m < net.states.size :=
        List.forall_mem_cons.2 ⟨⟨frames.length_le built.calls progressive, housed.lt_size⟩, inside⟩
      have ample : (net.states.size + 1) ^ (depth + net.numRules + 1) <
          fuel + ((⟨n, stack⟩ :: path : List Thread).length) := by
        rw [List.length_cons]
        omega
      cases stop : net.isStop n with
      | true =>
        cases stack with
        | nil => exact .ends saw stop
        | cons ret rest =>
          exact .returns saw stop (ih (frames.back built progressive stop) housed.tail longer visited within ample)
      | false =>
        rw [if_neg Bool.false_ne_true]
        let after (i : Nat) : Look :=
          ((net.out n).take i).foldl (net.lookStep bottom fuel stack called) (acc.visit ⟨n, stack⟩)
        have next {i : Nat} {t : Transition} (found : (net.out n)[i]? = some t) :
            after (i + 1) = net.lookStep bottom fuel stack called (after i) t := by
          simp only [after, List.take_add_one, found, Option.toList_some, List.foldl_append, List.foldl_cons,
            List.foldl_nil]
        have known (i : Nat) : ∀ θ ∈ ⟨n, stack⟩ :: path, (after i).Saw θ := fun θ member =>
          List.foldlRecOn (motive := (Look.Saw · θ)) _ _ (visited θ member) fun _ saw _ _ => lookStep_grows saw
        have all : (net.out n).foldl (net.lookStep bottom fuel stack called) (acc.visit ⟨n, stack⟩) =
            after (net.out n).length := by
          simp only [after, List.take_length]
        rw [all]
        refine .crosses saw stop after rfl (fun i t found stays => ?_) fun i t m stack' called' found goes => ?_
        · rw [next found, lookStep, stays]
        · have member := List.mem_of_getElem? found
          rw [next found, lookStep, goes]
          exact ih (frames.descends stop member goes) (housed.descends built stop member goes) longer (known i) within
            ample

/-- A walk that begins at a state of a rule, to return to states of rules, ends within the bound. -/
theorem look_walks (built : net.Built g) (progressive : net.Progressive) (housed : net.Housed n stack) :
    net.Walks bottom n stack [] {} (net.look bottom (net.lookBound stack.length) n stack [] {}) := by
  refine look_walks_from built progressive (.ground (Nat.le_refl _)) housed List.nodup_nil (List.forall_mem_nil _)
    (List.forall_mem_nil _) ?_
  have inside : 0 < net.states.size := Nat.zero_lt_of_lt (housed.lt_size n List.mem_cons_self)
  exact Nat.pow_lt_pow_right (by omega) (Nat.lt_succ_self _)

end Network

end AdaptiveLL
