import AdaptiveLL.Grammar.Definition
import AdaptiveLL.Grammar.Error

/-!
# Elements that match nothing

A rule is nullable when it can match the empty input. The nullable rules are the least fixed point of
`nullable`, reached by passing over the rules until a pass adds none. A loop over a nullable body
would never end, so a grammar with such a loop is refused (`checkLoops`).
-/

set_option autoImplicit false

namespace AdaptiveLL.Grammar

/-- The number of a rule. -/
def ruleIndex (g : Grammar) (name : String) : Except BuildError Nat :=
  match g.rules.findIdx? (·.name == name) with
  | some i => .ok i
  | none => .error (.undefinedRule name g.name)

mutual

/-- Can the element match nothing, when the rules marked in `known` can? -/
def nullable (g : Grammar) (known : Array Bool) : Element → Except BuildError Bool
  | .symbol _ | .token _ | .range _ _ | .set _ | .notSet _ | .wildcard | .eof => .ok false
  | .literal text => .ok (g.isLexer && text.isEmpty)
  | .rule name _ => do return known.getD (← g.ruleIndex name) false
  | .predicate _ _ | .precedence _ | .action _ | .command _ => .ok true
  | .seq es => nullableAll g known es
  | .alt es => nullableAny g known es
  | .repeated .plus _ body => nullable g known body
  | .repeated _ _ _ => .ok true

/-- Can every element match nothing? The first that cannot settles it. -/
def nullableAll (g : Grammar) (known : Array Bool) : List Element → Except BuildError Bool
  | [] => .ok true
  | e :: rest => do if ← nullable g known e then nullableAll g known rest else return false

/-- Can some element match nothing? The first that can settles it. -/
def nullableAny (g : Grammar) (known : Array Bool) : List Element → Except BuildError Bool
  | [] => .ok false
  | e :: rest => do if ← nullable g known e then return true else nullableAny g known rest

end

/-- Marks a rule that is found nullable. -/
def markNullable (g : Grammar) (known : Array Bool) (r : RuleDef × Nat) :
    Except BuildError (Array Bool) := do
  if known.getD r.2 false then return known
  else if ← g.nullable known r.1.body then return known.setIfInBounds r.2 true
  else return known

/-- Passes over the rules until a pass marks no further one. Every other pass marks at least one, so
one pass more than there are rules is enough. -/
def nullablePasses (g : Grammar) : Nat → Array Bool → Except BuildError (Array Bool)
  | 0, known => .ok known
  | passes + 1, known => do
    let next ← g.rules.zipIdx.foldlM g.markNullable known
    if next = known then return known else g.nullablePasses passes next

/-- The rules that can match nothing. -/
def nullableRules (g : Grammar) : Except BuildError (Array Bool) :=
  g.nullablePasses (g.rules.length + 1) (Array.replicate g.rules.length false)

mutual

/-- Refuses a loop over a body that can match nothing. -/
def checkLoops (g : Grammar) (known : Array Bool) (rule : String) : Element → Except BuildError Unit
  | .repeated .optional _ body => checkLoops g known rule body
  | .repeated _ _ body => do
    if ← g.nullable known body then throw (.emptyLoop rule)
    checkLoops g known rule body
  | .seq es | .alt es => checkLoopsAll g known rule es
  | _ => .ok ()

/-- Refuses such a loop in any element of the list. -/
def checkLoopsAll (g : Grammar) (known : Array Bool) (rule : String) :
    List Element → Except BuildError Unit
  | [] => .ok ()
  | e :: rest => do
    checkLoops g known rule e
    checkLoopsAll g known rule rest

end

end AdaptiveLL.Grammar
