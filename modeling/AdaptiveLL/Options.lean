import AdaptiveLL.Json.Decode
import AdaptiveLL.Text.Escape

/-!
# Options and counters

The options of a recognizer, and what it counts while it works.
-/

set_option autoImplicit false

namespace AdaptiveLL

/-! ## Options -/

/-- How hard a prediction tries before it settles on an alternative. -/
inductive PredictionMode where
  /-- Local context only; conflicts go to the least alternative. -/
  | sll
  /-- Local context first, the full call stack where that is not enough. -/
  | ll
  /-- As `ll`, and ambiguities are looked into until they are known to be exact. -/
  | exact
  deriving DecidableEq, Inhabited

namespace PredictionMode

/-- The modes by name. -/
def names : List (String × PredictionMode) :=
  [("Sll", .sll), ("Ll", .ll), ("LlExactAmbigDetection", .exact)]

/-- The name of a mode. -/
def name : PredictionMode → String
  | .sll => "Sll"
  | .ll => "Ll"
  | .exact => "LlExactAmbigDetection"

/-- Reads a mode from its name. -/
def ofJson? (j : Json) : Option PredictionMode := j.bareCase? names

end PredictionMode

/-- The options of a recognizer. -/
structure Options where
  mode : PredictionMode := .ll
  /-- Are the children of rule nodes recorded? -/
  buildTrees : Bool := true
  /-- Do tokens copy their text from the source? -/
  copyText : Bool := false
  /-- Is the structure of a network verified when it is read? -/
  verify : Bool := true
  deriving DecidableEq, Inhabited

namespace Options

/-- The options as a JSON record. -/
def toJson (o : Options) : Json :=
  .obj [("prediction_mode", .str o.mode.name), ("build_parse_trees", .bool o.buildTrees),
    ("copy_token_text", .bool o.copyText), ("verify_atn", .bool o.verify)]

/-- Reads options from their JSON record; what is left out has its default. -/
def ofJson? (j : Json) : Option Options := do
  let r ← j.record? ["prediction_mode", "build_parse_trees", "copy_token_text", "verify_atn"]
  return {
    mode := ← r.withDefault "prediction_mode" .ll PredictionMode.ofJson?
    buildTrees := ← r.withDefault "build_parse_trees" true Json.bool?
    copyText := ← r.withDefault "copy_token_text" false Json.bool?
    verify := ← r.withDefault "verify_atn" true Json.bool? }

end Options

/-! ## Counters -/

/-- What a recognizer counts. -/
structure Stats where
  /-- Steps answered by a recorded edge. -/
  dfaHits : Nat := 0
  /-- Steps for which the network was simulated. -/
  networkSteps : Nat := 0
  fullContext : Nat := 0
  ambiguities : Nat := 0
  sensitivities : Nat := 0
  predictions : Nat := 0
  tokens : Nat := 0
  /-- Time spent on predictions, in microseconds. It is not measured. -/
  time : Nat := 0
  deriving DecidableEq, Inhabited

namespace Stats

/-- Joins the counters of two records one by one. -/
def zipWith (f : Nat → Nat → Nat) (a b : Stats) : Stats where
  dfaHits := f a.dfaHits b.dfaHits
  networkSteps := f a.networkSteps b.networkSteps
  fullContext := f a.fullContext b.fullContext
  ambiguities := f a.ambiguities b.ambiguities
  sensitivities := f a.sensitivities b.sensitivities
  predictions := f a.predictions b.predictions
  tokens := f a.tokens b.tokens
  time := f a.time b.time

/-- What was counted since an earlier record. Counters are numbers of 64 bits and run over. -/
def delta (now earlier : Stats) : Stats :=
  zipWith (fun a b => (a + 18446744073709551616 - b) % 18446744073709551616) now earlier

/-- The greater of each two counters. -/
def max (a b : Stats) : Stats := zipWith Nat.max a b

/-- The counters with their names, in order. -/
def fields (s : Stats) : List (String × Nat) :=
  [("dfa_hits", s.dfaHits), ("atn_fallbacks", s.networkSteps),
    ("full_context_fallbacks", s.fullContext), ("ambiguities", s.ambiguities),
    ("context_sensitivities", s.sensitivities), ("predictions", s.predictions),
    ("tokens", s.tokens), ("compute_time_us", s.time)]

/-- The counters as a JSON record. -/
def toJson (s : Stats) : Json := .obj (s.fields.map fun f => (f.1, .ofNat f.2))

/-- The counters as a log shows them. -/
def toText (s : Stats) : String :=
  Text.recordOf "SimulatorStats" (s.fields.map fun f => (f.1, toString f.2))

/-- Reads counters from their JSON record. -/
def ofJson? (j : Json) : Option Stats := do
  let r ← j.record? (({} : Stats).fields.map (·.1))
  return {
    dfaHits := ← r.required "dfa_hits" Json.nat?
    networkSteps := ← r.required "atn_fallbacks" Json.nat?
    fullContext := ← r.required "full_context_fallbacks" Json.nat?
    ambiguities := ← r.required "ambiguities" Json.nat?
    sensitivities := ← r.required "context_sensitivities" Json.nat?
    predictions := ← r.required "predictions" Json.nat?
    tokens := ← r.required "tokens" Json.nat?
    time := ← r.required "compute_time_us" Json.nat? }

end Stats

end AdaptiveLL
