import AdaptiveLL.Grammar.Compiled
import AdaptiveLL.Network.Decode
import AdaptiveLL.Parser.Run

/-!
# Loaded grammars

A loaded grammar is the network of a compiled grammar, its names, and the automata that its
recognizers have learned. A recognizer starts with what was learned before it and gives back what it
learns (`learn`). Forgetting begins a new generation: a recognizer of an older one keeps what it has,
and what it gives back is no longer taken.
-/

set_option autoImplicit false

namespace AdaptiveLL

/-- Why there is no recognizer for a grammar. -/
inductive RecognizerError where
  | load (cause : LoadError)
  /-- The grammar says one kind and its network is of the other. -/
  | kindMismatch (grammar : String) (declared actual : GrammarKind)
  | notLexer (grammar : String)
  | notParser (grammar : String)
  deriving DecidableEq

/-- The message of a refusal. -/
def RecognizerError.message : RecognizerError → String
  | .load cause => cause.message
  | .kindMismatch grammar declared actual =>
    s!"grammar {grammar} declares type {declared.name} but its automaton is {actual.name}"
  | .notLexer grammar => s!"{grammar} is not a lexer grammar"
  | .notParser grammar => s!"{grammar} is not a parser grammar"

/-- A grammar that is ready for use. -/
structure LoadedGrammar where
  net : Network
  info : GrammarInfo
  /-- The automata learned so far. -/
  cache : DfaCache
  /-- How often the automata were forgotten. -/
  generation : Nat := 0
  options : Options := {}
  /-- The logger that each recognizer starts with. -/
  logger : Logger := {}

namespace LoadedGrammar

variable {η : Type}

/-- Loads a grammar. -/
def ofCompiled (g : CompiledGrammar) (options : Options) : Except RecognizerError LoadedGrammar := do
  match Network.decode g.words options.verify with
  | .error e => throw (.load e)
  | .ok net =>
    if net.kind ≠ g.kind then throw (.kindMismatch g.info.name g.kind net.kind)
    return { net, info := g.info, cache := .ofNetwork net, options }

/-- The same grammar, whose recognizers log nothing. -/
def quiet (g : LoadedGrammar) : LoadedGrammar := { g with logger := { bufferLevel := 0, echoLevel := 0 } }

/-- A lexer over a stream, with user code. -/
def lexer (g : LoadedGrammar) (hooks : LexerHooks η) (h : η) (input : CharStream) :
    Except RecognizerError (Lexer η) :=
  if g.net.isLexer then
    .ok {
      net := g.net, info := g.info, hooks, matcher := { cache := g.cache, input, hooks := h }
      copyText := g.options.copyText, logger := g.logger, generation := g.generation }
  else .error (.notLexer g.info.name)

/-- The predictions of a parser over a stream. -/
def simulator (g : LoadedGrammar) (stream : TokenStream η) : Simulator η :=
  { cache := g.cache, mode := g.options.mode, stream }

/-- A parser over a stream, with user code. -/
def parser (g : LoadedGrammar) (hooks : ParserHooks η) (stream : TokenStream η) :
    Except RecognizerError (Parser η) :=
  if g.net.isLexer then .error (.notParser g.info.name)
  else
    .ok {
      net := g.net, info := g.info, hooks, sim := g.simulator stream
      buildTrees := g.options.buildTrees, logger := g.logger, generation := g.generation }

/-- Takes over what a recognizer has learned, if it belongs to the current generation. -/
def learn (g : LoadedGrammar) (generation : Nat) (cache : DfaCache) : LoadedGrammar :=
  if generation = g.generation then { g with cache } else g

/-- Takes over what a lexer has learned. -/
def learnFromLexer (g : LoadedGrammar) (l : Lexer η) : LoadedGrammar :=
  g.learn l.generation l.matcher.cache

/-- Takes over what the lexer behind a source of tokens has learned, if there is one. -/
def learnFromSource (g : LoadedGrammar) : TokenSource η → LoadedGrammar
  | .lexer l => g.learnFromLexer l
  | .list _ _ => g

/-- Takes over what a parser has learned. -/
def learnFromParser (g : LoadedGrammar) (p : Parser η) : LoadedGrammar :=
  g.learn p.generation p.sim.cache

/-- Forgets what was learned. -/
def forget (g : LoadedGrammar) : LoadedGrammar :=
  { g with cache := .ofNetwork g.net, generation := g.generation + 1 }

end LoadedGrammar

end AdaptiveLL
