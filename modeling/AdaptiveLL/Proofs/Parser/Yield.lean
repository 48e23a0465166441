import AdaptiveLL.LoadedGrammar
import AdaptiveLL.Proofs.Parser.Parsing

/-!
# The tree of a parse and its input

The nodes under the root of a parse form a tree, and its leaves say what became of the input: every token
of the channel that was passed is one of them, in the order of the input (`parse_yields_tokens`). If no
syntax error was counted then the leaves are also what the grammar asked for: none of them comes from a
repair, and their types spell a path through the rule that the parse began with
(`parse_spells_path`). Neither depends on what was predicted, so neither asks how the predictions were
made or what they had learned.
-/

set_option autoImplicit false

namespace AdaptiveLL

/-! ## Proper trees -/

namespace ParseTree

variable {t : ParseTree} {root : Nat}

/-- The node can be reached from the root by the links to children. -/
inductive Reached (t : ParseTree) (root : Nat) : Nat → Prop
  | root : Reached t root root
  | child {n c : Nat} (reached : Reached t root n) (member : c ∈ t.children n) : Reached t root c

/-- What can be reached is a tree: every node below the root knows the only node that it is a child of, and
it is a child just once. -/
structure IsTree (t : ParseTree) (root : Nat) : Prop where
  inside : ∀ n, t.Reached root n → n < t.size
  top : t.parent? root = none
  back : ∀ n, t.Reached root n → ∀ c ∈ t.children n, t.parent? c = some n
  once : ∀ n, t.Reached root n → (t.children n).Nodup

theorem sublist_idsAll (cs : List Subtree) : List.Sublist (cs.map Subtree.id) (Subtree.idsAll cs) := by
  induction cs with
  | nil => exact .slnil
  | cons c rest ih =>
    have first : List.Sublist [c.id] c.ids := List.singleton_sublist.2 c.id_mem_ids
    exact first.append ih

/-- The link from a subtree to its parent. -/
theorem Holds.parent_eq {parent : Option Nat} {T : Subtree} (holds : t.Holds parent T) :
    t.parent? T.id = parent := by
  cases T with
  | token id u => exact HasNode.parent holds
  | error id u => exact HasNode.parent holds
  | rule id rule cs => exact holds.1.parent

theorem HoldsAll.parent_eq {parent : Option Nat} {cs : List Subtree} (holds : t.HoldsAll parent cs) :
    ∀ c ∈ cs.map Subtree.id, t.parent? c = parent := by
  induction cs with
  | nil => nofun
  | cons c rest ih =>
    intro n member
    rcases List.mem_cons.1 member with rfl | later
    · exact holds.1.parent_eq
    · exact ih holds.2 n later

mutual

/-- The children of a node of a subtree are nodes of it that link back. -/
theorem Holds.links {parent : Option Nat} {T : Subtree} (holds : t.Holds parent T) (apart : T.ids.Nodup) :
    ∀ n ∈ T.ids, (∀ c ∈ t.children n, c ∈ T.ids ∧ t.parent? c = some n) ∧ (t.children n).Nodup := by
  intro n member
  match T with
  | .token id u | .error id u =>
    obtain rfl : n = id := by simpa [Subtree.ids] using member
    rw [show t.children n = [] from HasNode.children holds]
    exact ⟨nofun, List.nodup_nil⟩
  | .rule id rule cs =>
    have below : (Subtree.idsAll cs).Nodup := (List.nodup_cons.1 apart).2
    rcases List.mem_cons.1 member with rfl | later
    · rw [show t.children n = cs.map Subtree.id from holds.1.children]
      refine ⟨fun c child => ⟨List.mem_cons_of_mem _ ((sublist_idsAll cs).subset child), ?_⟩,
        (sublist_idsAll cs).nodup below⟩
      exact holds.2.parent_eq c child
    · obtain ⟨linked, once⟩ := HoldsAll.links holds.2 below n later
      exact ⟨fun c child => ⟨List.mem_cons_of_mem _ (linked c child).1, (linked c child).2⟩, once⟩

theorem HoldsAll.links {parent : Option Nat} {cs : List Subtree} (holds : t.HoldsAll parent cs)
    (apart : (Subtree.idsAll cs).Nodup) : ∀ n ∈ Subtree.idsAll cs,
      (∀ c ∈ t.children n, c ∈ Subtree.idsAll cs ∧ t.parent? c = some n) ∧ (t.children n).Nodup := by
  intro n member
  match cs with
  | [] => cases member
  | c :: rest =>
    obtain ⟨first, others, -⟩ := List.nodup_append.1 apart
    rcases List.mem_append.1 member with here | there
    · obtain ⟨linked, once⟩ := Holds.links holds.1 first n here
      exact ⟨fun c child => ⟨List.mem_append_left _ (linked c child).1, (linked c child).2⟩, once⟩
    · obtain ⟨linked, once⟩ := HoldsAll.links holds.2 others n there
      exact ⟨fun c child => ⟨List.mem_append_right _ (linked c child).1, (linked c child).2⟩, once⟩

end

/-- A subtree without a parent whose nodes are at different places is all that can be reached from its
root. -/
theorem Holds.isTree {T : Subtree} (holds : t.Holds none T) (apart : T.ids.Nodup) : t.IsTree T.id := by
  have reached {n : Nat} (reached : t.Reached T.id n) : n ∈ T.ids := by
    induction reached with
    | root => exact T.id_mem_ids
    | child _ member ih => exact ((holds.links apart _ ih).1 _ member).1
  exact ⟨fun n known => holds.inside n (reached known), holds.parent_eq,
    fun n known c member => ((holds.links apart n (reached known)).1 c member).2,
    fun n known => (holds.links apart n (reached known)).2⟩

end ParseTree

/-- The types of the tokens of a grammar, and the end of the input. -/
def Network.HasType (net : Network) (type : Int) : Prop :=
  minTokenType ≤ type ∧ type ≤ net.maxTokenType ∨ type = endOfInput

namespace Parser

variable {η : Type} {g : Grammar} {compiled : CompiledGrammar} {net : Network} {verify : Bool}
  {p p' : Parser η} {rule fuel : Nat} {j j' : Journal} {result : Except ParseError Nat}

/-- Whatever the tokens, the user code and the predictions are, a parse that ends returns the root of a
tree. The leaves that stand for tokens of the stream, besides the end of the input, are the tokens of its
channel between the places where the stream was and is, each of them once and in order. -/
theorem parse_yields_tokens (assembled : g.Assembled) (representable : g.Representable)
    (run : g.compile = .ok compiled) (decoded : Network.decode compiled.words verify = .ok net)
    (onNet : p.net = net) (trees : p.buildTrees = true) (sound : p.stream.Sound fun _ => True)
    (known : rule < net.numRules) (ends : ((parse fuel rule).run p).run j = some ((result, p'), j')) :
    ∃ T : Subtree, result = .ok T.id ∧ p'.tree.Holds none T ∧ p'.tree.IsTree T.id ∧
      p.stream.index ≤ p'.stream.index ∧ p'.stream.channel = p.stream.channel ∧
      T.leaves.filterMap NodeKind.passed? = p'.stream.between p.stream.index p'.stream.index := by
  have walkable := Grammar.compile_walkable assembled representable run decoded
  obtain ⟨T, isOk, parsed⟩ := parse_ends walkable ⟨trees, sound⟩ onNet known j result p' j' ends
  exact ⟨T, isOk, parsed.holds, parsed.holds.isTree parsed.apart, parsed.forth, parsed.channel, parsed.passed⟩

/-- Sums of two terms, with a predicate before the sign. -/
def guardedSum : Grammar :=
  (Grammar.parser "Sums" { literalNames := [none, some "'n'", some "'+'"] })
    |>.rule "sum" (.seq [.rule "term" 0, .predicate 0 false, .literal "+", .rule "term" 0, .eof])
    |>.rule "term" (.literal "n")

/-- The tokens of the sum `n + n`, with one of another channel before the sign. -/
def sumTokens : Array Token := #[(1, 0), (2, 1), (2, 0), (1, 0)].map fun (type, channel) =>
  { type, channel, start := 0, stop := 0, line := 1, column := 0, index := none, text := none }

/-- A parser of the sum whose predicate has a fixed answer. -/
def sumOver (info : GrammarInfo) (net : Network) (answer : Bool) : Parser Unit where
  net
  info
  hooks := { predicate _ _ h := (answer, h), action _ _ h := h }
  sim := {
    cache := .ofNetwork net
    mode := .ll
    stream := { source := .list { tokens := sumTokens } () } }

/-- A parse of the sum. -/
def sumParse (answer : Bool) : Option (Network × Except ParseError Nat × Parser Unit) := do
  let compiled ← guardedSum.compile.toOption
  let net ← (Network.decode compiled.words true).toOption
  let ((result, p), _) ← ((parse 60 0).run (sumOver compiled.info net answer)).run #[]
  return (net, result, p)

theorem sumParse_ends {answer : Bool} {net : Network} {result : Except ParseError Nat} {p : Parser Unit}
    (parsed : sumParse answer = some (net, result, p)) : ∃ compiled j, guardedSum.compile = .ok compiled ∧
      Network.decode compiled.words true = .ok net ∧
      ((parse 60 0).run (sumOver compiled.info net answer)).run #[] = some ((result, p), j) := by
  simp only [sumParse, Option.bind_eq_bind, Option.bind_eq_some_iff] at parsed
  obtain ⟨compiled, compiles, net', decodes, ⟨⟨result', p'⟩, j⟩, ran, same⟩ := parsed
  obtain ⟨rfl, rfl, rfl⟩ := by simpa using same
  exact ⟨compiled, j, except_ok_of_some compiles, except_ok_of_some decodes, ran⟩

theorem guardedSum_assembled : guardedSum.Assembled := .rule _ _ (.rule _ _ (.parser _ _))

theorem guardedSum_representable : guardedSum.Representable := by
  intro r member e leaf
  rcases List.mem_cons.1 member with rfl | member
  · simp only [Element.leaves, Element.leavesAll, List.append_nil, List.cons_append, List.nil_append,
      List.mem_cons, List.not_mem_nil, or_false] at leaf
    rcases leaf with rfl | rfl | rfl | rfl | rfl <;> simp [Element.Representable]
  · obtain rfl := List.mem_singleton.1 member
    obtain rfl : e = .literal "n" := by simpa [Element.leaves] using leaf
    simp [Element.Representable]

/-- The predicate fails, and the sign and the second term are passed over as errors. -/
theorem parse_yields_tokens_guarded : ∃ (T : Subtree) (net : Network) (p : Parser Unit),
    sumParse false = some (net, .ok T.id, p) ∧ p.syntaxErrors = 1 ∧ p.tree.IsTree T.id ∧
      T.leaves.filterMap NodeKind.passed? = p.stream.between 0 p.stream.index ∧
      (T.leaves.filterMap NodeKind.passed?).map (·.type) = [1, 2, 1] := by
  have answer : (sumParse false).map (fun r => (r.1.numRules, r.2.2.syntaxErrors,
      (r.2.2.stream.between 0 r.2.2.stream.index).map (·.type))) = some (2, 1, [1, 2, 1]) := by decide +kernel
  obtain ⟨⟨net, result, p⟩, parsed, facts⟩ := Option.map_eq_some_iff.1 answer
  simp only [Prod.mk.injEq] at facts
  obtain ⟨rules, errors, types⟩ := facts
  obtain ⟨compiled, j, compiles, decodes, ran⟩ := sumParse_ends parsed
  have sound : (sumOver compiled.info net false).stream.Sound fun _ => True :=
    TokenStream.sound_fresh (TokenSource.supplies_any _) _
  have known : 0 < net.numRules := by simp [rules]
  obtain ⟨T, rfl, -, tree, -, -, passed⟩ := parse_yields_tokens guardedSum_assembled guardedSum_representable
    compiles decodes rfl rfl sound known ran
  exact ⟨T, net, p, parsed, errors, tree, passed, passed ▸ types⟩

/-- Over tokens of the grammar, a parse that ends without a syntax error returns the root of a tree without
traces of a repair, and the types of the tokens in it spell a complete path through the rule. -/
theorem parse_spells_path (assembled : g.Assembled) (representable : g.Representable)
    (run : g.compile = .ok compiled) (decoded : Network.decode compiled.words verify = .ok net)
    (onNet : p.net = net) (trees : p.buildTrees = true) (sound : p.stream.Sound net.HasType)
    (known : rule < net.numRules) (ends : ((parse fuel rule).run p).run j = some ((result, p'), j'))
    (clean : p'.syntaxErrors = 0) :
    ∃ T : Subtree, result = .ok T.id ∧ p'.tree.Holds none T ∧ p'.tree.IsTree T.id ∧
      (∀ k ∈ T.leaves, k.isError = false) ∧
      net.Recognizes minTokenType net.maxTokenType rule (T.leaves.filterMap NodeKind.symbol?) := by
  have walkable := Grammar.compile_walkable assembled representable run decoded
  obtain ⟨T, isOk, parsed⟩ := parse_ends walkable ⟨trees, sound⟩ onNet known j result p' j' ends
  have bounds : net.Bounds net.HasType := fun type has positive => by
    rcases has with ⟨-, bound⟩ | rfl
    · exact bound
    · exact absurd positive (by decide)
  obtain ⟨untouched, recognized⟩ := parsed.clean bounds clean
  exact ⟨T, isOk, parsed.holds, parsed.holds.isTree parsed.apart, untouched, recognized⟩

/-- The predicate holds. -/
theorem parse_spells_path_guarded : ∃ (T : Subtree) (net : Network) (p : Parser Unit),
    sumParse true = some (net, .ok T.id, p) ∧ p.syntaxErrors = 0 ∧ (∀ k ∈ T.leaves, k.isError = false) ∧
      net.Recognizes minTokenType net.maxTokenType 0 (T.leaves.filterMap NodeKind.symbol?) := by
  have answer : (sumParse true).map (fun r => (r.1.numRules, r.1.maxTokenType, r.2.2.syntaxErrors)) =
      some (2, 2, 0) := by decide +kernel
  obtain ⟨⟨net, result, p⟩, parsed, facts⟩ := Option.map_eq_some_iff.1 answer
  simp only [Prod.mk.injEq] at facts
  obtain ⟨rules, greatest, errors⟩ := facts
  obtain ⟨compiled, j, compiles, decodes, ran⟩ := sumParse_ends parsed
  have types : ∀ t ∈ sumTokens, net.HasType t.type := by
    intro t member
    have bounds : ∀ t ∈ sumTokens.toList, minTokenType ≤ t.type ∧ t.type ≤ 2 := by
      simp [sumTokens, minTokenType]
    exact .inl (greatest ▸ bounds t (Array.mem_toList_iff.2 member))
  have sound : (sumOver compiled.info net true).stream.Sound net.HasType :=
    TokenStream.sound_fresh (TokenSource.supplies_list types (.inr rfl) ()) _
  have known : 0 < net.numRules := by simp [rules]
  obtain ⟨T, rfl, -, -, untouched, recognized⟩ := parse_spells_path guardedSum_assembled
    guardedSum_representable compiles decodes rfl rfl sound known ran errors
  exact ⟨T, net, p, parsed, errors, untouched, recognized⟩

end Parser

end AdaptiveLL
