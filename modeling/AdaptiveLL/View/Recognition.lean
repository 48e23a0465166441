import AdaptiveLL.LoadedGrammar
import AdaptiveLL.Rules.Relation
import AdaptiveLL.View.Network

/-!
# Recognition as tools see it

The JSON forms of tokens, counters, errors, reports and tree nodes. An error is an object with its kind
and its message; a token, a report and a node are arrays of their parts.
-/

set_option autoImplicit false

namespace AdaptiveLL

/-! ## Errors -/

/-- An error with its kind and its message. -/
def Json.fault (kind message : String) : Json := .obj [("error", .str kind), ("message", .str message)]

/-- An error that has no kind of its own. -/
def Json.plainFault (message : String) : Json := .fault "Error" message

/-- Refused words. -/
def LoadError.view (e : LoadError) : Json :=
  match e with
  | .versionMismatch _ _ => .fault "VersionMismatch" e.message
  | .malformed _ => .fault "Malformed" e.message

/-- A grammar for which there is no recognizer. -/
def RecognizerError.view : RecognizerError → Json
  | .load e => e.view
  | e => .plainFault e.message

/-- A failed recognition. -/
def RecognitionError.view (e : RecognitionError) : Json :=
  match e with
  | .noViableToken _ _ => .fault "NoViableToken" e.message
  | .noViableAlt _ _ _ => .fault "NoViableAlt" e.message
  | .inputMismatch _ _ => .fault "InputMismatch" e.message
  | .failedPredicate _ _ => .fault "FailedPredicate" e.message

/-! ## Tokens, counters and reports -/

/-- The parts of a token. -/
def Token.view (t : Token) : Json :=
  .arr [.int t.type, .int t.channel, .ofNat t.start, .ofNat t.stop, .ofNat t.line, .ofNat t.column,
    .ofOption .ofNat t.index, .ofOption .str t.text]

/-- Reads a token. The place and the text may be left out. -/
def Token.ofView? (j : Json) : Option Token := do
  return {
    type := ← (j.nth 0).int32?
    channel := ← (j.nth 1).int32?
    start := ← (j.nth 2).nat?
    stop := ← (j.nth 3).nat?
    line := ← (j.nth 4).nat?
    column := ← (j.nth 5).nat?
    index := ← (j.nth 6).opt? Json.nat?
    text := ← (j.nth 7).opt? Json.str? }

/-- The counters but for the time. -/
def Stats.view (s : Stats) : Json := .obj (s.fields.dropLast.map fun f => (f.1, .ofNat f.2))

/-- The parts of a report. -/
def Event.view : Event → Json
  | .syntaxError t line column message e =>
    .arr [.str "syntax", .ofNat line, .ofNat column, .str message, .ofOption Token.view t,
      .ofOption RecognitionError.view e]
  | .ambiguity d start stop exact alts =>
    .arr [.str "ambiguity", .ofNat d, .ofNat start, .ofNat stop, .bool exact, .ofNats alts.members]
  | .fullContext d start stop alts =>
    .arr [.str "full", .ofNat d, .ofNat start, .ofNat stop, .ofOption (.ofNats ·.members) alts]
  | .sensitivity d start stop alt =>
    .arr [.str "sensitivity", .ofNat d, .ofNat start, .ofNat stop, .ofNat alt]
  | .noViableAlt d start stop => .arr [.str "noviable", .ofNat d, .ofNat start, .ofNat stop]

/-- The reports of a journal. -/
def Journal.view (j : Journal) : Json := .ofList Event.view (j.reports fun _ => true)

/-! ## Lexers, trees and rules -/

/-- The token being built, and the modes to return to, the first one entered first. -/
def LexerState.view (s : LexerState) : Json :=
  .obj [("type", .int s.type), ("channel", .int s.channel), ("mode", .ofNat s.mode),
    ("stack", .ofNats s.modeStack.reverse),
    ("start", .ofNats [s.startIndex, s.startLine, s.startColumn]), ("text", .ofOption .str s.text)]

/-- What a node stands for. -/
def NodeKind.view : NodeKind → Json
  | .rule r alt => .arr [.str "rule", .ofNat r, .ofOption .ofNat alt]
  | .token t => .arr [.str "token", t.view]
  | .error t => .arr [.str "error", t.view]

/-- The parts of a node. -/
def TreeNode.view (n : TreeNode) : Json :=
  .arr [n.kind.view, .ofOption .ofNat n.parent, .ofNats n.children, .ofOption .ofNat n.invoking,
    .ofOption .ofNat n.start, .ofOption .ofNat n.stop]

/-- A token with its text and its JSON record. -/
def Token.summary (t : Token) : List (String × Json) :=
  [("s", .str t.toText), ("eof", .bool t.isEof), ("start", .ofNat t.start), ("json", t.toJson)]

/-- What a parse came to. -/
def Parser.summary {η : Type} (p : Parser η) (root : Nat) : List (String × Json) :=
  [("tree", .str (p.renderTree root)), ("root", .ofNat root), ("errors", .ofNat p.syntaxErrors),
    ("eof", .bool p.matchedEof), ("index", .ofNat p.stream.index), ("size", .ofNat p.stream.size),
    ("stats", p.sim.stats.view)]

/-- The rules that are related to a rule, by relation. -/
def RuleRelation.members (rel : RuleRelation) (rule : Nat) : List (String × Json) :=
  [("parents", .ofNats (rel.parentsOf rule).members), ("children", .ofNats (rel.childrenOf rule).members),
    ("ancestors", .ofNats (rel.ancestorsOf rule).members),
    ("descendants", .ofNats (rel.descendantsOf rule).members)]

end AdaptiveLL
