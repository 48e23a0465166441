import AdaptiveLL.Dfa
import AdaptiveLL.Options

/-!
# Conflicts between alternatives

Configurations in the same state with the same context go on alike, whatever alternative they began
with. If several alternatives meet in this way, and no state is left to one alternative alone, more
lookahead does not help: the alternatives conflict. Where the conflicting configurations carry
guards, each alternative is guarded by the disjunction of its own.
-/

set_option autoImplicit false

namespace AdaptiveLL.Prediction

/-! ## Groups of alternatives -/

/-- Adds an alternative to the group of a key, which is opened behind the others if it is new. -/
def addToGroup {κ : Type} [DecidableEq κ] (key : κ) (alt : Nat) :
    List (κ × AltSet) → List (κ × AltSet)
  | [] => [(key, .singleton alt)]
  | g :: rest =>
    if g.1 = key then (g.1, g.2.insert alt) :: rest else g :: addToGroup key alt rest

/-- The alternatives of the configurations, in one group for each key. -/
def groups {κ : Type} [DecidableEq κ] (key : Config → κ) (configs : ConfigSet) : List AltSet :=
  (configs.configs.toList.foldl (fun gs c => addToGroup (key c) c.alt gs) []).map (·.2)

/-- The alternatives that meet in one state with one context. -/
def conflictGroups (configs : ConfigSet) : List AltSet := groups (fun c => (c.state, c.context)) configs

/-- All alternatives of the groups. -/
def unionOf (gs : List AltSet) : AltSet := gs.foldl AltSet.union .empty

/-- Do several alternatives meet somewhere? -/
def hasConflict (gs : List AltSet) : Bool := gs.any (·.size > 1)

/-- Do several alternatives meet everywhere? -/
def allConflict (gs : List AltSet) : Bool := gs.all (·.size > 1)

/-- Are all groups the same? -/
def allEqual : List AltSet → Bool
  | [] => true
  | g :: rest => rest.all (· == g)

/-- The least alternative of every group, if all groups have the same. -/
def singleViable (gs : List AltSet) : Nat :=
  match (AltSet.ofList (gs.filterMap AltSet.min?)).members with
  | [alt] => alt
  | _ => invalidAlt

/-- Is some state left to one alternative alone? -/
def hasStateOfOneAlt (configs : ConfigSet) : Bool := (groups (·.state) configs).any (·.size == 1)

/-! ## The end of a local prediction -/

/-- Is every configuration at the end of a rule? -/
def allAtStop (net : Network) (configs : ConfigSet) : Bool :=
  configs.configs.all fun c => (net.state c.state).kind.isRuleStop

/-- Is some configuration at the end of a rule? -/
def someAtStop (net : Network) (configs : ConfigSet) : Bool :=
  configs.configs.any fun c => (net.state c.state).kind.isRuleStop

/-- The configurations without their guards. -/
def withoutGuards (configs : ConfigSet) : ConfigSet :=
  configs.configs.foldl (fun s c => s.insert (c.withGuard c.state .always))
    (.ofParser configs.fullContext)

/-- Does local context end here in a conflict? If only local context is used, guards are ignored. -/
def endsInConflict (net : Network) (mode : PredictionMode) (configs : ConfigSet) : Bool :=
  allAtStop net configs ||
    let configs := if mode == .sll && configs.hasGuards then withoutGuards configs else configs
    hasConflict (conflictGroups configs) && !hasStateOfOneAlt configs

/-! ## Guarded alternatives -/

/-- The disjunction of the guards of an alternative. -/
def guardOf (configs : ConfigSet) (alt : Nat) : Guard :=
  match (configs.configs.toList.filter (·.alt == alt)).map (·.guard) with
  | [] => .always
  | g :: rest => rest.foldl Guard.or g

/-- The alternatives from 1 to `count` that are in the set, with their guards; none if all hold
always. -/
def guardedAlts (alts : AltSet) (configs : ConfigSet) (count : Nat) : Option (List GuardedAlt) :=
  let pairs := ((List.range' 1 count).filter alts.contains).map fun alt =>
    { guard := guardOf configs alt, alt : GuardedAlt }
  if pairs.all (·.guard.isAlways) then none else some pairs

/-- Lets an accepting state choose by guards, if its configurations carry any. -/
def guardState (count : Nat) (s : DfaState) : DfaState :=
  if s.accepts && s.configs.hasGuards then
    let alts := if s.configs.uniqueAlt ≠ invalidAlt then .singleton s.configs.uniqueAlt
      else s.configs.conflicting.getD .empty
    match guardedAlts alts s.configs count with
    | some pairs => { s with predicates := some pairs, prediction := invalidAlt }
    | none => { s with prediction := alts.min?.getD invalidAlt }
  else s

/-- The state of a set of configurations: accepting when one alternative is left, or when the
alternatives conflict. -/
def stateOf (net : Network) (mode : PredictionMode) (count width : Nat) (configs : ConfigSet) :
    DfaState :=
  let s := DfaState.ofConfigs configs width
  let alt := configs.sharedAlt
  guardState count <|
    if alt ≠ invalidAlt then
      { s with accepts := true, prediction := alt, configs := { configs with uniqueAlt := alt } }
    else if endsInConflict net mode configs then
      let conflicting := unionOf (conflictGroups configs)
      { s with
        accepts := true
        needsFullContext := true
        prediction := conflicting.min?.getD invalidAlt
        configs := { configs with conflicting := some conflicting } }
    else s

end AdaptiveLL.Prediction
