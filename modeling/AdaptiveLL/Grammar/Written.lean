import AdaptiveLL.Grammar.Layout
import AdaptiveLL.View.Network

/-!
# Grammars written as JSON

A grammar is written down as an object with its name and a list of items: rules, fragments, modes,
left-recursive rules and versions. A text stands for a literal, and every other element is an object
whose kind is the first of its members in the order of their names. A parser has the grammar of its
lexer as its vocabulary, or the names of a grammar in its place. A compiled grammar stands for itself.
-/

set_option autoImplicit false

namespace AdaptiveLL

/-- Why a written grammar is refused. -/
inductive WrittenError where
  /-- An element has no kind that is known. -/
  | unreadable
  /-- The names of a vocabulary or a compiled grammar cannot be read. -/
  | badRecord
  | build (cause : BuildError)
  deriving DecidableEq

namespace Written

/-! ## Members and their size -/

/-- Names are ordered by the numbers of their characters. -/
def before (a b : String) : Bool :=
  List.lex (a.toList.map Char.toNat) (b.toList.map Char.toNat) Nat.blt

/-- The first member in the order of names. -/
def least : String × Json → List (String × Json) → String × Json
  | m, [] => m
  | m, x :: rest => least (if before x.1 m.1 then x else m) rest

/-- The first member is one of the members. -/
theorem least_mem (m : String × Json) (rest : List (String × Json)) : least m rest ∈ m :: rest := by
  induction rest generalizing m with
  | nil => simp [least]
  | cons x rest ih =>
    have h := ih (if before x.1 m.1 then x else m)
    rw [least]
    rcases List.mem_cons.1 h with h | h
    · rw [h]
      split <;> simp
    · simp [h]

/-- A member is smaller than its object. -/
theorem sizeOf_member_lt {m : String × Json} {members : List (String × Json)} (h : m ∈ members) :
    sizeOf m.2 < sizeOf (Json.obj members) := by
  have := List.sizeOf_lt_of_mem h
  obtain ⟨k, v⟩ := m
  simp only [Json.obj.sizeOf_spec, Prod.mk.sizeOf_spec] at *
  omega

/-- An item is smaller than its array. -/
theorem sizeOf_item_lt {x j : Json} (h : x ∈ j.items) : sizeOf x < sizeOf j := by
  cases j <;> simp only [Json.items, List.not_mem_nil] at h
  have := List.sizeOf_lt_of_mem h
  simp only [Json.arr.sizeOf_spec]
  omega

/-- What stands under a name is smaller than the whole. -/
theorem sizeOf_of_member? {j v : Json} {name : String} (h : j.member? name = some v) :
    sizeOf v < sizeOf j := by
  cases j <;> simp only [Json.member?, Option.map_eq_some_iff, reduceCtorEq] at h
  obtain ⟨m, found, rfl⟩ := h
  exact sizeOf_member_lt (List.mem_reverse.1 (List.mem_of_find?_eq_some found))

/-! ## Elements -/

/-- An end of a range: a number or a text of one character. -/
def bound? : Json → Option Int
  | .int n => some n
  | .str s => s.toList.head?.map fun c => (c.toNat : Int)
  | _ => none

/-- Reads an element that has no parts. -/
def leaf? : String → Json → Option Element
  | "tok", v => v.str?.map .token
  | "sym", v => v.int32?.map .symbol
  | "range", .arr [a, b] => do return .range (← bound? a) (← bound? b)
  | "set", v => (SymbolSet.ofView? v).map .set
  | "notset", v => (SymbolSet.ofView? v).map .notSet
  | "oneof", v => v.str?.map .oneOf
  | "noneof", v => v.str?.map .noneOf
  | "wild", _ => some .wildcard
  | "eof", _ => some .eof
  | "ref", v => v.str?.map .ref
  | "pred", v => v.nat?.map .pred
  | "prec", v => v.int32?.map .precedence
  | "act", v => v.nat?.map .action
  | "cmd", v => (LexerAction.ofView? v).map .command
  | _, _ => none

/-- Reads an element. -/
def element : Json → Except WrittenError Element
  | .str text => .ok (.literal text)
  | .obj (m :: rest) => do
    let member := least m rest
    have : sizeOf member.2 < sizeOf (Json.obj (m :: rest)) := sizeOf_member_lt (least_mem m rest)
    match member.1 with
    | "seq" => return .seq (← member.2.items.attach.mapM fun ⟨j, h⟩ =>
        have := sizeOf_item_lt h
        element j)
    | "alt" => return .alt (← member.2.items.attach.mapM fun ⟨j, h⟩ =>
        have := sizeOf_item_lt h
        element j)
    | "opt" => return .opt (← element member.2)
    | "star" => return .star (← element member.2)
    | "plus" => return .plus (← element member.2)
    | kind =>
      match leaf? kind member.2 with
      | some e => return e
      | none => throw .unreadable
  | _ => .error .unreadable
termination_by j => sizeOf j
decreasing_by all_goals omega

/-- Reads an operator of a left-recursive rule. -/
def operator (j : Json) : Except WrittenError Operator := do
  match j.member? "bin" with
  | some op =>
    let assoc : Assoc := if (j.get "assoc").str? = some "right" then .right else .left
    return .binary (← element op) assoc
  | none => return .suffix (← element (j.get "suf"))

/-! ## Grammars -/

/-- Applies an item of a grammar. -/
def item (g : Grammar) (j : Json) : Except WrittenError Grammar := do
  match j.get "lr", j.get "rule", j.get "fragment", j.get "mode", j.get "version" with
  | .str name, _, _, _, _ =>
    return g.leftRecursive name (← (j.get "primaries").items.mapM element)
      (← (j.get "ops").items.mapM operator)
  | _, .str name, _, _, _ => return g.rule name (← element (j.get "body"))
  | _, _, .str name, _, _ => return g.fragment name (← element (j.get "body"))
  | _, _, _, .str name, _ => return g.mode name
  | _, _, _, _, .str name =>
    match (j.get "n").int32? with
    | some version => return g.setVersion name version
    | none => throw .unreadable
  | _, _, _, _, _ => throw .unreadable

/-- Compiles a grammar. -/
def compile (g : Grammar) : Except WrittenError CompiledGrammar := g.compile.mapError .build

/-- Takes a value that can be read. -/
def readable {α : Type} : Option α → Except WrittenError α
  | some a => .ok a
  | none => .error .badRecord

/-- Reads a grammar and compiles it. Grammars that have a name of their own are found under
`named`. -/
def grammar (named : String → Option Grammar) (j : Json) : Except WrittenError CompiledGrammar := do
  match j.get "sample", j.member? "compiled" with
  | .str name, _ =>
    match named name with
    | some g => compile g
    | none => throw .unreadable
  | _, some c => readable (CompiledGrammar.ofJson? c)
  | _, none =>
    let name := ((j.get "name").str?).getD ""
    let start ←
      if (j.get "type").str? = some "lexer" then pure (Grammar.lexer name)
      else
        match j.member? "info" with
        | some info => do pure (Grammar.parser name (← readable (GrammarInfo.ofJson? info)))
        | none =>
          match h : j.member? "vocab" with
          | some lexer => do
            have := sizeOf_of_member? h
            pure (Grammar.parser name (← grammar named lexer).info)
          | none => throw .unreadable
    compile (← (j.get "rules").items.foldlM item start)
termination_by sizeOf j

end Written

end AdaptiveLL
