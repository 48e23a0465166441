import AdaptiveLL.Grammar.Info
import AdaptiveLL.Json.Reader
import AdaptiveLL.Json.Writer
import AdaptiveLL.Network.Words

/-!
# Compiled grammars

A compiled grammar is the words of a network with the names that belong to it. It travels as JSON.
-/

set_option autoImplicit false

namespace AdaptiveLL

/-- The words of a network with the names of its grammar. -/
structure CompiledGrammar where
  kind : GrammarKind
  info : GrammarInfo
  words : List Word
  deriving DecidableEq, Inhabited

namespace CompiledGrammar

/-- The grammar as a JSON value. -/
def toJson (g : CompiledGrammar) : Json :=
  .obj [("grammar_type", .str g.kind.name), ("info", g.info.toJson),
    ("serialized_atn", .ofList (fun w => .ofNat w.toNat) g.words)]

/-- Reads a grammar from a JSON value. -/
def ofJson? (j : Json) : Option CompiledGrammar := do
  let r ← j.record? ["grammar_type", "info", "serialized_atn"]
  let kind ← r.required "grammar_type" (Json.bareCase? [("Lexer", .lexer), ("Parser", .parser)])
  let info ← r.required "info" GrammarInfo.ofJson?
  let words ← r.required "serialized_atn" (Json.list? Json.word?)
  return { kind, info, words }

/-- The written form of a grammar. -/
def write (g : CompiledGrammar) : String := g.toJson.compact

/-- Reads a grammar from its written form. -/
def read? (text : String) : Option CompiledGrammar := Json.parse? text >>= ofJson?

end CompiledGrammar

end AdaptiveLL
