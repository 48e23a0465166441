import AdaptiveLL.Json.Decode
import AdaptiveLL.Token

/-!
# Names of a grammar

What a grammar says about itself besides its network: the names of its rules, tokens, modes and
channels, and the version of each rule.
-/

set_option autoImplicit false

namespace AdaptiveLL

/-- The names and rule versions of a grammar. Token names are listed by token type. -/
structure GrammarInfo where
  name : String := ""
  ruleNames : List String := []
  literalNames : List (Option String) := []
  symbolicNames : List (Option String) := []
  modeNames : List String := []
  channelNames : List String := []
  ruleVersions : List Int := []
  deriving DecidableEq, Inhabited

namespace GrammarInfo

/-! ## Looking up names -/

/-- The entry of a token type in a list of names. -/
def nameIn (names : List (Option String)) (type : Int) : Option String :=
  if type < 0 then none else (names[type.toNat]?).join

/-- The quoted literal of a token type. -/
def literalName (info : GrammarInfo) (type : Int) : Option String := nameIn info.literalNames type

/-- The name of a token type. -/
def symbolicName (info : GrammarInfo) (type : Int) : Option String :=
  if type = endOfInput then some "EOF" else nameIn info.symbolicNames type

/-- The literal of a token type if there is one, else its name, else its number. -/
def displayName (info : GrammarInfo) (type : Int) : String :=
  ((info.literalName type).or (info.symbolicName type)).getD (toString type)

/-- The token type of a name or of a quoted literal. -/
def tokenType (info : GrammarInfo) (name : String) : Option Nat :=
  (info.symbolicNames.findIdx? (· == some name)).or
    (info.literalNames.findIdx? (· == some name))

/-- The number of a rule. -/
def ruleIndex (info : GrammarInfo) (name : String) : Option Nat :=
  info.ruleNames.findIdx? (· == name)

/-- The name of a rule. -/
def ruleName (info : GrammarInfo) (rule : Nat) : String :=
  info.ruleNames.getD rule "<unknown rule>"

/-- The version of a rule. -/
def ruleVersion (info : GrammarInfo) (rule : Nat) : Int := info.ruleVersions.getD rule 0

/-- The greatest token type that has a place in the lists of names. -/
def maxTokenType (info : GrammarInfo) : Int :=
  (max info.literalNames.length info.symbolicNames.length : Nat) - 1

/-! ## JSON -/

/-- The names as a JSON record. -/
def toJson (info : GrammarInfo) : Json :=
  .obj [("name", .str info.name), ("rule_names", .ofList .str info.ruleNames),
    ("literal_names", .ofList (.ofOption .str) info.literalNames),
    ("symbolic_names", .ofList (.ofOption .str) info.symbolicNames),
    ("mode_names", .ofList .str info.modeNames),
    ("channel_names", .ofList .str info.channelNames),
    ("rule_versions", .ofList .int info.ruleVersions)]

/-- Reads the names from their JSON record. -/
def ofJson? (j : Json) : Option GrammarInfo := do
  let r ← j.record? ["name", "rule_names", "literal_names", "symbolic_names", "mode_names",
    "channel_names", "rule_versions"]
  let names := Json.list? (Json.opt? Json.str?)
  return {
    name := ← r.required "name" Json.str?
    ruleNames := ← r.required "rule_names" (Json.list? Json.str?)
    literalNames := ← r.withDefault "literal_names" [] names
    symbolicNames := ← r.withDefault "symbolic_names" [] names
    modeNames := ← r.withDefault "mode_names" [] (Json.list? Json.str?)
    channelNames := ← r.withDefault "channel_names" [] (Json.list? Json.str?)
    ruleVersions := ← r.withDefault "rule_versions" [] (Json.list? Json.int32?) }

end GrammarInfo

end AdaptiveLL
