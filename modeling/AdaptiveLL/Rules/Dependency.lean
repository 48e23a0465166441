import AdaptiveLL.Grammar.Info
import AdaptiveLL.Rules.Relation
import AdaptiveLL.Text.Blank

/-!
# Dependencies on rule versions

Code that is written for a version of a rule declares it, together with the related rules that it
relies on. A declaration is out of date when the rule or one of those related rules has a higher
version, and it is ahead when none of them has a version that high. All findings of a check are
reported at once, one in a line.
-/

set_option autoImplicit false

namespace AdaptiveLL

/-- The rules that a dependency covers besides the declared one. Only the first five can be
checked. -/
inductive Dependents where
  | self
  | parents
  | children
  | ancestors
  | descendants
  | siblings
  | precedingSiblings
  | followingSiblings
  | preceding
  | following
  deriving DecidableEq, Inhabited

namespace Dependents

/-- The names by which dependents are written. -/
def names : List (String × Dependents) :=
  [("self", .self), ("Parents", .parents), ("Children", .children), ("Ancestors", .ancestors),
    ("Descendants", .descendants), ("Siblings", .siblings),
    ("PrecedingSiblings", .precedingSiblings), ("FollowingSiblings", .followingSiblings),
    ("Preceding", .preceding), ("Following", .following)]

/-- The name by which dependents are written. -/
def name (d : Dependents) : String := ((names.find? (·.2 == d)).map (·.1)).getD ""

/-- Can they be checked? -/
def isChecked : Dependents → Bool
  | .self | .parents | .children | .ancestors | .descendants => true
  | _ => false

end Dependents

/-- A declaration that code is written for a version of a rule. -/
structure RuleDependency where
  rule : Nat
  version : Int
  dependents : List Dependents := []
  deriving DecidableEq, Inhabited

namespace RuleDependency

/-! ## JSON -/

/-- A dependency as a JSON record. -/
def toJson (d : RuleDependency) : Json :=
  .obj [("rule", .ofNat d.rule), ("version", .int d.version),
    ("dependents", .ofList (fun x => .str x.name) d.dependents)]

/-- Reads a dependency. -/
def ofJson? (j : Json) : Option RuleDependency := do
  let r ← j.record? ["rule", "version", "dependents"]
  return {
    rule := ← r.required "rule" Json.nat?
    version := ← r.required "version" Json.int32?
    dependents := ← r.withDefault "dependents" [] (Json.list? (Json.bareCase? Dependents.names)) }

/-! ## Checking -/

/-- What is wrong with a dependency. -/
inductive Finding where
  | unknownRule (rule : Nat) (version : Int)
  | unchecked (rule : Nat) (dependents : List Dependents)
  /-- A rule has a higher version than the declared one. -/
  | outdated (path : String) (actual declared : Int)
  /-- No covered rule has a version as high as the declared one. -/
  | ahead (rule : String) (highest declared : Int)
  deriving DecidableEq

/-- The line of a finding about a grammar. -/
def Finding.line (grammar : String) : Finding → String
  | .unknownRule rule version =>
    s!"Rule dependency on unknown rule {rule}@{version} in {grammar}"
  | .unchecked rule dependents =>
    s!"Cannot validate the following dependents of rule {rule}: " ++
      Text.bracketed (dependents.map (·.name))
  | .outdated path actual declared =>
    s!"Rule dependency version mismatch: {path} has version {actual} " ++
      s!"(expected <= {declared}) in {grammar}"
  | .ahead rule highest declared =>
    s!"Rule dependency version mismatch: {rule} has maximum dependency version {highest} " ++
      s!"(expected {declared}) in {grammar}"

/-- The related rules that a dependency covers, each once and with the first relation that names it. -/
def coveredRules (info : GrammarInfo) (rel : RuleRelation) (d : RuleDependency) :
    List (Nat × String) :=
  let relations : List (Dependents × AltSet × String) :=
    [(.parents, rel.parentsOf d.rule, "parent"), (.children, rel.childrenOf d.rule, "child"),
      (.ancestors, rel.ancestorsOf d.rule, "ancestor"),
      (.descendants, rel.descendantsOf d.rule, "descendant")]
  let named := relations.flatMap fun (kind, rules, relation) =>
    if d.dependents.contains kind then rules.members.map fun r => (r, relation) else []
  let known := named.filter fun r => r.1 < info.ruleNames.length
  known.foldl (fun acc r => if acc.any (·.1 == r.1) then acc else acc ++ [r]) []

/-- The finding that a rule has a higher version than the declared one. -/
def outdated? (info : GrammarInfo) (d : RuleDependency) (rule : Nat) (path : String) :
    Option Finding :=
  let actual := info.ruleVersion rule
  if actual > d.version then some (.outdated path actual d.version) else none

/-- What is wrong with a dependency on the rules of a grammar. -/
def findings (info : GrammarInfo) (rel : RuleRelation) (d : RuleDependency) : List Finding :=
  if d.rule < info.ruleNames.length then
    let name := info.ruleName d.rule
    let unchecked := d.dependents.filter (!·.isChecked)
    let covered := d.coveredRules info rel
    let highest := (covered.map fun r => info.ruleVersion r.1).foldl max (info.ruleVersion d.rule)
    (if unchecked.isEmpty then [] else [.unchecked d.rule unchecked]) ++
      (d.outdated? info d.rule name).toList ++
      (covered.filterMap fun (r, relation) =>
        d.outdated? info r s!"rule {info.ruleName r} ({relation} of {name})") ++
      (if d.version > highest then [.ahead name highest d.version] else [])
  else [.unknownRule d.rule d.version]

/-- What is wrong with a list of dependencies. -/
def allFindings (net : Network) (info : GrammarInfo) (deps : List RuleDependency) : List Finding :=
  let rel := RuleRelation.ofNetwork net
  deps.flatMap (·.findings info rel)

/-- Checks dependencies; what is wrong with them is reported in one text. -/
def check (net : Network) (info : GrammarInfo) (deps : List RuleDependency) : Except String Unit :=
  match allFindings net info deps with
  | [] => .ok ()
  | found => .error (Text.trimEnd ("\n".intercalate (found.map (·.line info.name))))

end RuleDependency

end AdaptiveLL
