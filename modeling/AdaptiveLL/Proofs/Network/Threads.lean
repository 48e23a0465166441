import AdaptiveLL.Proofs.Grammar.Built

/-!
# Paths and threads

A rule recognizes the words on the paths from its start to its end, where a path that calls another
rule goes on behind the call with a path through that rule in between. A thread follows such a path
one step at a time: it is a state with the stack of the states to return to. What a rule recognizes is
what its threads can run through (`recognizes_iff_runs`), and in a network without silent circles
every thread comes to a point where it has to consume or is at its end (`wellFounded_silentNext`).
-/

set_option autoImplicit false

namespace AdaptiveLL.Network

/-! ## Paths -/

section Paths

variable (net : Network) (lo hi : Int)

/-- The state is the end of the rule. -/
def EndsRule (r stop : Nat) : Prop := net.isStop stop = true ∧ (net.state stop).rule = some r

/-- The word is spelled by a path within the invocation of a rule, through the rules that are called on
the way. Predicates are taken to hold. -/
inductive Path : Nat → List Int → Nat → Prop
  | stay (n : Nat) : Path n [] n
  | free {n m k : Nat} {w : List Int} (inner : net.isStop n = false) (move : .free m ∈ net.moves n)
      (rest : Path m w k) : Path n w k
  | consume {n k : Nat} {t : Transition} {symbol : Int} {w : List Int} (inner : net.isStop n = false)
      (member : t ∈ net.out n) (accepts : t.label.accepts symbol lo hi = true)
      (rest : Path t.target w k) : Path n (symbol :: w) k
  | call {n r start follow stop k : Nat} {u v : List Int} (inner : net.isStop n = false)
      (move : .call r start follow ∈ net.moves n) (through : Path start u stop)
      (ends : net.EndsRule r stop) (rest : Path follow v k) : Path n (u ++ v) k

/-- The rule recognizes the word. -/
def Recognizes (r : Nat) (w : List Int) : Prop :=
  ∃ stop, net.EndsRule r stop ∧ net.Path lo hi (net.ruleStart r) w stop

end Paths

/-! ## Threads -/

/-- A thread: where it is, and where it returns to, innermost first. -/
structure Thread where
  state : Nat
  stack : List Nat
  deriving DecidableEq

section Threads

variable (net : Network) (lo hi : Int)

/-- Where a move that consumes nothing takes a thread. -/
def silentMove (stack : List Nat) : Move → Option Thread
  | .free m => some ⟨m, stack⟩
  | .call _ start follow => some ⟨start, follow :: stack⟩
  | .consume _ => none

/-- Where a thread can go without consuming: at the end of a rule it returns. -/
def silentNext (θ : Thread) : List Thread :=
  if net.isStop θ.state then
    match θ.stack with
    | [] => []
    | ret :: stack => [⟨ret, stack⟩]
  else (net.moves θ.state).filterMap (silentMove θ.stack)

/-- Where a thread can go by consuming a symbol. -/
def consumeNext (symbol : Int) (θ : Thread) : List Thread :=
  if net.isStop θ.state then []
  else ((net.out θ.state).filter (·.label.accepts symbol lo hi)).map fun t => ⟨t.target, θ.stack⟩

/-- A thread runs through a word. -/
inductive Runs : Thread → List Int → Thread → Prop
  | stay (θ : Thread) : Runs θ [] θ
  | silent {θ θ' θ'' : Thread} {w : List Int} (step : θ' ∈ net.silentNext θ) (rest : Runs θ' w θ'') :
      Runs θ w θ''
  | consume {θ θ' θ'' : Thread} {symbol : Int} {w : List Int}
      (step : θ' ∈ net.consumeNext lo hi symbol θ) (rest : Runs θ' w θ'') : Runs θ (symbol :: w) θ''

end Threads

variable {net : Network} {lo hi : Int} {g : Grammar}

theorem Runs.append {θ θ' θ'' : Thread} {u v : List Int} (first : net.Runs lo hi θ u θ')
    (second : net.Runs lo hi θ' v θ'') : net.Runs lo hi θ (u ++ v) θ'' := by
  induction first with
  | stay θ => exact second
  | silent step rest ih => exact .silent step (ih second)
  | consume step rest ih => exact .consume step (ih second)

/-- A run through a word that ends with a symbol stops before the symbol. -/
theorem runs_snoc {θ θ'' : Thread} {w : List Int} {symbol : Int} :
    net.Runs lo hi θ (w ++ [symbol]) θ'' ↔ ∃ θ', net.Runs lo hi θ w θ' ∧
      ∃ next ∈ net.consumeNext lo hi symbol θ', net.Runs lo hi next [] θ'' := by
  constructor
  · intro run
    generalize whole : w ++ [symbol] = v at run
    induction run generalizing w with
    | stay θ => simp at whole
    | silent step rest ih =>
      obtain ⟨θ', before, after⟩ := ih whole
      exact ⟨θ', .silent step before, after⟩
    | consume step rest ih =>
      cases w with
      | nil =>
        obtain ⟨rfl, rfl⟩ := List.cons.inj whole
        exact ⟨_, .stay _, _, step, rest⟩
      | cons first w =>
        obtain ⟨rfl, whole'⟩ := List.cons.inj whole
        obtain ⟨θ', before, after⟩ := ih whole'
        exact ⟨θ', .consume step before, after⟩
  · rintro ⟨θ', before, next, step, after⟩
    exact before.append (.consume step after)

/-- A run through a word stops behind each part of the word. -/
theorem Runs.split {θ θ'' : Thread} {u v : List Int} (run : net.Runs lo hi θ (u ++ v) θ'') :
    ∃ θ', net.Runs lo hi θ u θ' ∧ net.Runs lo hi θ' v θ'' := by
  induction v using List.reverseRecOn generalizing θ'' with
  | nil => exact ⟨θ'', by simpa using run, .stay θ''⟩
  | append_singleton v symbol ih =>
    rw [← List.append_assoc] at run
    obtain ⟨before, first, next, step, rest⟩ := runs_snoc.1 run
    obtain ⟨θ', start, through⟩ := ih first
    exact ⟨θ', start, runs_snoc.2 ⟨before, through, next, step, rest⟩⟩

/-- A run that consumes nothing is over, or it begins with a silent step. -/
theorem runs_nil {θ θ'' : Thread} :
    net.Runs lo hi θ [] θ'' ↔ θ = θ'' ∨ ∃ θ' ∈ net.silentNext θ, net.Runs lo hi θ' [] θ'' := by
  constructor
  · intro run
    cases run with
    | stay => exact .inl rfl
    | silent step rest => exact .inr ⟨_, step, rest⟩
  · rintro (rfl | ⟨θ', step, rest⟩)
    · exact .stay θ
    · exact .silent step rest

/-! ## Paths are runs -/

theorem mem_silentNext_of_move {n : Nat} {stack : List Nat} {move : Move} {θ : Thread}
    (inner : net.isStop n = false) (member : move ∈ net.moves n)
    (next : silentMove stack move = some θ) : θ ∈ net.silentNext ⟨n, stack⟩ := by
  simp only [silentNext, inner, Bool.false_eq_true, if_false]
  exact List.mem_filterMap.2 ⟨move, member, next⟩

theorem mem_consumeNext {n : Nat} {stack : List Nat} {symbol : Int} {θ : Thread} :
    θ ∈ net.consumeNext lo hi symbol ⟨n, stack⟩ ↔ net.isStop n = false ∧
      ∃ t ∈ net.out n, t.label.accepts symbol lo hi = true ∧ θ = ⟨t.target, stack⟩ := by
  unfold consumeNext
  cases net.isStop n with
  | true => simp
  | false =>
    simp only [Bool.false_eq_true, if_false, true_and, List.mem_map, List.mem_filter]
    constructor
    · rintro ⟨t, ⟨member, accepts⟩, rfl⟩
      exact ⟨t, member, accepts, rfl⟩
    · rintro ⟨t, member, accepts, rfl⟩
      exact ⟨t, ⟨member, accepts⟩, rfl⟩

/-- A path leaves the stack of a thread alone. -/
theorem Path.runs {n m : Nat} {w : List Int} (path : net.Path lo hi n w m) (stack : List Nat) :
    net.Runs lo hi ⟨n, stack⟩ w ⟨m, stack⟩ := by
  induction path generalizing stack with
  | stay n => exact .stay _
  | free inner move rest ih => exact .silent (mem_silentNext_of_move inner move rfl) (ih stack)
  | consume inner member accepts rest ih =>
    exact .consume (mem_consumeNext.2 ⟨inner, _, member, accepts, rfl⟩) (ih stack)
  | call inner move through ends rest ihThrough ihRest =>
    rename_i n r start follow stop k u v
    have returns : (⟨follow, stack⟩ : Thread) ∈ net.silentNext ⟨stop, follow :: stack⟩ := by
      simp [silentNext, ends.1]
    exact .silent (mem_silentNext_of_move inner move rfl)
      ((ihThrough (follow :: stack)).append (.silent returns (ihRest stack)))

/-! ## Runs are paths -/

theorem Path.rule_eq (built : net.Built g) {n m r : Nat} {w : List Int} (path : net.Path lo hi n w m)
    (owned : (net.state n).rule = some r) : (net.state m).rule = some r := by
  induction path with
  | stay n => exact owned
  | free inner move rest ih => exact ih (built.owner _ _ owned inner _ move)
  | @consume n k t symbol w inner member accepts rest ih =>
    refine ih ?_
    have next : t.move = .consume t.target := Transition.move_of_accepts accepts
    have := built.owner n r owned inner t.move (List.mem_map_of_mem member)
    rwa [next] at this
  | call inner move through ends rest ihThrough ihRest =>
    exact ihRest (built.owner _ _ owned inner _ move)

/-- The word takes a thread through the ends of all the rules on its stack, to `final`. -/
def Finishes (net : Network) (lo hi : Int) : Nat → List Nat → List Int → Nat → Prop
  | n, [], w, final => net.Path lo hi n w final
  | n, ret :: stack, w, final => ∃ u v stop, w = u ++ v ∧ net.isStop stop = true ∧
      net.Path lo hi n u stop ∧ Finishes net lo hi ret stack v final

theorem Finishes.prepend {n m final : Nat} {stack : List Nat} {x w : List Int}
    (longer : ∀ v k, net.Path lo hi m v k → net.Path lo hi n (x ++ v) k)
    (finishes : net.Finishes lo hi m stack w final) : net.Finishes lo hi n stack (x ++ w) final := by
  cases stack with
  | nil => exact longer w final finishes
  | cons ret stack =>
    obtain ⟨u, v, stop, rfl, isStop, path, rest⟩ := finishes
    exact ⟨x ++ u, v, stop, by simp, isStop, longer u stop path, rest⟩

theorem Runs.finishes (built : net.Built g) {θ : Thread} {w : List Int} {final : Nat}
    (run : net.Runs lo hi θ w ⟨final, []⟩) : net.Finishes lo hi θ.state θ.stack w final := by
  generalize isEnd : (⟨final, []⟩ : Thread) = θ'' at run
  induction run with
  | stay θ =>
    subst isEnd
    exact .stay final
  | @silent θ θ' θ'' w step rest ih =>
    replace ih := ih isEnd
    obtain ⟨n, stack⟩ := θ
    unfold silentNext at step
    cases isStop : net.isStop n with
    | true =>
      simp only [isStop, if_true] at step
      cases stack with
      | nil => cases step
      | cons ret stack =>
        obtain rfl := List.mem_singleton.1 step
        exact ⟨[], w, n, rfl, isStop, .stay n, ih⟩
    | false =>
      simp only [isStop, Bool.false_eq_true, if_false] at step
      obtain ⟨move, member, next⟩ := List.mem_filterMap.1 step
      cases move with
      | free m =>
        cases next
        exact ih.prepend (x := []) fun v k path => .free isStop member path
      | consume m => cases next
      | call r start follow =>
        cases next
        obtain ⟨u, v, stop, rfl, isStop', path, rest'⟩ := ih
        obtain ⟨known, rfl⟩ := built.calls n r start follow isStop member
        have ends : net.EndsRule r stop := ⟨isStop', path.rule_eq built (built.startRule r known)⟩
        exact rest'.prepend fun v' k path' => .call isStop member path ends path'
  | @consume θ θ' θ'' symbol w step rest ih =>
    replace ih := ih isEnd
    obtain ⟨n, stack⟩ := θ
    obtain ⟨inner, t, member, accepts, rfl⟩ := mem_consumeNext.1 step
    exact ih.prepend (x := [symbol]) fun v k path => .consume inner member accepts path

/-- A rule recognizes a word when one of its threads can run through the word to the end of the
rule. -/
theorem recognizes_iff_runs (built : net.Built g) {r : Nat} (known : r < net.numRules) (w : List Int) :
    net.Recognizes lo hi r w ↔
      ∃ stop, net.isStop stop = true ∧ net.Runs lo hi ⟨net.ruleStart r, []⟩ w ⟨stop, []⟩ := by
  constructor
  · rintro ⟨stop, ends, path⟩
    exact ⟨stop, ends.1, path.runs []⟩
  · rintro ⟨stop, isStop, run⟩
    have path : net.Path lo hi (net.ruleStart r) w stop := run.finishes built
    exact ⟨stop, ⟨isStop, path.rule_eq built (built.startRule r known)⟩, path⟩

/-! ## Silent runs end -/

/-- A thread comes to rest if, whenever it can leave its rule, the thread behind the return does. -/
theorem acc_of_returns (wf : WellFounded fun m n => net.Silent n m) (n : Nat) :
    ∀ stack : List Nat, (net.Passes n → ∀ ret rest, stack = ret :: rest →
      Acc (fun θ' θ => θ' ∈ net.silentNext θ) ⟨ret, rest⟩) →
      Acc (fun θ' θ => θ' ∈ net.silentNext θ) ⟨n, stack⟩ := by
  induction n using wf.induction with
  | h n ih =>
    intro stack returns
    refine Acc.intro _ fun θ step => ?_
    unfold silentNext at step
    cases isStop : net.isStop n with
    | true =>
      simp only [isStop, if_true] at step
      cases stack with
      | nil => cases step
      | cons ret rest =>
        obtain rfl := List.mem_singleton.1 step
        exact returns (.stop isStop) ret rest rfl
    | false =>
      simp only [isStop, Bool.false_eq_true, if_false] at step
      obtain ⟨move, member, next⟩ := List.mem_filterMap.1 step
      cases move with
      | free m =>
        cases next
        exact ih m (.glide (.free isStop member)) stack
          fun passes => returns (.free isStop member passes)
      | consume m => cases next
      | call r start follow =>
        cases next
        refine ih start (.enter isStop member) _ fun through ret rest same => ?_
        cases same
        -- The called rule can be passed over, so what follows it is reached silently as well.
        exact ih follow (.glide (.skip isStop member through)) stack
          fun passes => returns (.call isStop member through passes)

theorem wellFounded_silentNext (wf : WellFounded fun m n => net.Silent n m) :
    WellFounded fun θ' θ => θ' ∈ net.silentNext θ := by
  refine ⟨fun ⟨n, stack⟩ => ?_⟩
  induction stack generalizing n with
  | nil => exact acc_of_returns wf n [] fun _ ret rest same => nomatch same
  | cons ret rest ih =>
    refine acc_of_returns wf n _ fun _ ret' rest' same => ?_
    cases same
    exact ih ret

/-- In a built network in which no rule comes back to its start without consuming, every silent run
ends. -/
theorem Built.wellFounded_silentNext (built : net.Built g) (progressive : net.Progressive) :
    WellFounded fun θ' θ => θ' ∈ net.silentNext θ :=
  Network.wellFounded_silentNext
    (wellFounded_silent (silent_acyclic built.calls progressive built.circleFree))

end AdaptiveLL.Network
