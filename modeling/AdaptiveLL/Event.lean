import AdaptiveLL.AltSet
import AdaptiveLL.Text.Quoted
import AdaptiveLL.Token

/-!
# Errors and reports

Recognition goes on after an error. What went wrong, and what a prediction found out about the
grammar, is reported: a recognizer writes its reports into a journal, in the order in which they
happen, and listeners read them there. A console shows the syntax errors, a recorder keeps every
report.
-/

set_option autoImplicit false

namespace AdaptiveLL

/-! ## Errors -/

/-- Why recognition could not go on as the grammar asks. Places are those of code points for a lexer
and of tokens for a parser. -/
inductive RecognitionError where
  /-- No rule of the lexer matches at `start`; the simulation gave up at `index`. -/
  | noViableToken (start index : Nat)
  /-- No alternative of the decision goes with the tokens from `start` to `offending`. -/
  | noViableAlt (decision start offending : Nat)
  | inputMismatch (state offending : Nat)
  | failedPredicate (rule : Nat) (predicate : String)
  deriving DecidableEq

/-- The message of an error. -/
def RecognitionError.message : RecognitionError → String
  | .noViableToken start index => s!"no viable token at {start}..{index}"
  | .noViableAlt decision start offending =>
    s!"no viable alternative for decision {decision} at tokens {start}..{offending}"
  | .inputMismatch state offending => s!"mismatched input at token {offending} in state {state}"
  | .failedPredicate rule predicate => s!"failed predicate {predicate} in rule {rule}"

/-! ## Reports -/

/-- A report. Intervals of tokens include both ends. -/
inductive Event where
  | syntaxError (offending : Option Token) (line column : Nat) (message : String)
      (error : Option RecognitionError)
  | ambiguity (decision start stop : Nat) (exact : Bool) (alts : AltSet)
  | fullContext (decision start stop : Nat) (conflicting : Option AltSet)
  | sensitivity (decision start stop prediction : Nat)
  | noViableAlt (decision start stop : Nat)
  deriving DecidableEq

namespace Event

/-- Is it the report of an ambiguity? -/
def isAmbiguity : Event → Bool
  | .ambiguity _ _ _ _ _ => true
  | _ => false

/-- The line that a console shows for a syntax error. -/
def consoleLine? : Event → Option String
  | .syntaxError _ line column message _ => some s!"line {line}:{column} {message}"
  | _ => none

/-- The fields that locate a report of a prediction. -/
def placeFields (decision start stop : Nat) : List (String × String) :=
  [("decision", toString decision), ("start_index", toString start), ("stop_index", toString stop)]

/-- The report as a recorder shows it. -/
def toText : Event → String
  | .syntaxError _ line column message _ =>
    Text.recordOf "SyntaxError"
      [("line", toString line), ("column", toString column), ("msg", Text.quoted message)]
  | .ambiguity decision start stop exact alts =>
    Text.recordOf "Ambiguity" (placeFields decision start stop ++
      [("exact", toString exact), ("alts", Text.bracketed (alts.members.map toString))])
  | .fullContext decision start stop _ =>
    Text.recordOf "AttemptingFullContext" (placeFields decision start stop)
  | .sensitivity decision start stop prediction =>
    Text.recordOf "ContextSensitivity"
      (placeFields decision start stop ++ [("prediction", toString prediction)])
  | .noViableAlt decision start stop =>
    Text.recordOf "NoViableAlt" (placeFields decision start stop)

end Event

/-! ## The journal -/

/-- Which recognizer reports. -/
inductive Origin where
  | lexer
  | parser
  deriving DecidableEq

/-- An entry of the journal. -/
inductive Entry where
  | report (origin : Origin) (event : Event)
  /-- Text that a logger shows at once. -/
  | echo (text : String)
  deriving DecidableEq

/-- Everything that was reported, in order. -/
abbrev Journal := Array Entry

/-- A computation that writes a journal and that may run out of fuel. -/
abbrev Session := StateT Journal Option

namespace Journal

/-- The reports of the recognizers for which `from?` holds. -/
def reports (j : Journal) (from? : Origin → Bool) : List Event :=
  j.toList.filterMap fun
    | .report origin event => if from? origin then some event else none
    | .echo _ => none

/-- What a console shows of a journal. -/
def consoleText (j : Journal) : String :=
  String.join (j.toList.map fun
    | .report _ event => match event.consoleLine? with
      | some line => line ++ "\n"
      | none => ""
    | .echo text => text)

end Journal

/-! ## Listeners -/

/-- A listener. -/
inductive Listener where
  /-- Keeps every report, under a number. -/
  | recorder (number : Nat)
  /-- Shows the syntax errors. -/
  | console
  /-- Ignores everything. -/
  | silent
  deriving DecidableEq, Inhabited

/-- What the listeners have heard. -/
structure Heard where
  /-- The reports that each recorder keeps. -/
  recorded : Array (List Event) := #[]
  /-- The lines that the console showed. -/
  shown : List String := []

namespace Heard

/-- A report reaches one listener. -/
def tell (h : Heard) (event : Event) : Listener → Heard
  | .recorder n => { h with recorded := h.recorded.modify n (· ++ [event]) }
  | .console => { h with shown := h.shown ++ event.consoleLine?.toList }
  | .silent => h

/-- A report reaches every listener, in the order of the list. -/
def tellAll (h : Heard) (listeners : List Listener) (event : Event) : Heard :=
  listeners.foldl (fun h l => h.tell event l) h

/-- Starts a recorder and gives its number. -/
def addRecorder (h : Heard) : Nat × Heard :=
  (h.recorded.size, { h with recorded := h.recorded.push [] })

/-- The reports that a recorder keeps. -/
def events (h : Heard) (n : Nat) : List Event := h.recorded.getD n []

/-- Takes the reports out of a recorder. -/
def take (h : Heard) (n : Nat) : List Event × Heard :=
  (h.events n, { h with recorded := h.recorded.modify n fun _ => [] })

end Heard

end AdaptiveLL
