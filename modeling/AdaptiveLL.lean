import AdaptiveLL.AltSet
import AdaptiveLL.CharStream
import AdaptiveLL.Cli
import AdaptiveLL.Config
import AdaptiveLL.Context.Basic
import AdaptiveLL.Context.Intern
import AdaptiveLL.Context.Merge
import AdaptiveLL.Dfa
import AdaptiveLL.Event
import AdaptiveLL.Grammar.Compiled
import AdaptiveLL.Grammar.Definition
import AdaptiveLL.Grammar.Element
import AdaptiveLL.Grammar.Error
import AdaptiveLL.Grammar.Info
import AdaptiveLL.Grammar.Layout
import AdaptiveLL.Grammar.Nullable
import AdaptiveLL.Grammar.Written
import AdaptiveLL.Guard
import AdaptiveLL.Json.Basic
import AdaptiveLL.Json.Decode
import AdaptiveLL.Json.Reader
import AdaptiveLL.Json.Writer
import AdaptiveLL.Lexer.Action
import AdaptiveLL.Lexer.Basic
import AdaptiveLL.Lexer.Match
import AdaptiveLL.LoadedGrammar
import AdaptiveLL.Logger
import AdaptiveLL.Main
import AdaptiveLL.Network.Basic
import AdaptiveLL.Network.Decode
import AdaptiveLL.Network.Encode
import AdaptiveLL.Network.Error
import AdaptiveLL.Network.Lookahead
import AdaptiveLL.Network.Words
import AdaptiveLL.Options
import AdaptiveLL.ParseTree
import AdaptiveLL.Parser.Basic
import AdaptiveLL.Parser.Recovery
import AdaptiveLL.Parser.Run
import AdaptiveLL.Prediction.Adaptive
import AdaptiveLL.Prediction.Conflict
import AdaptiveLL.Prediction.Reach
import AdaptiveLL.Rules.Dependency
import AdaptiveLL.Rules.Relation
import AdaptiveLL.Sample.Grammars
import AdaptiveLL.Sample.Recognizers
import AdaptiveLL.Scripted
import AdaptiveLL.Signed
import AdaptiveLL.SymbolSet
import AdaptiveLL.Text.Blank
import AdaptiveLL.Text.Escape
import AdaptiveLL.Text.Printable
import AdaptiveLL.Text.Quoted
import AdaptiveLL.Token
import AdaptiveLL.TokenSource
import AdaptiveLL.TokenStream
import AdaptiveLL.View.Network
import AdaptiveLL.View.Prediction
import AdaptiveLL.View.Recognition
import AdaptiveLL.Proofs.Context.Merging
import AdaptiveLL.Proofs.Context.Remembering
import AdaptiveLL.Proofs.Context.Interning
import AdaptiveLL.Proofs.Symbols.Canonical
import AdaptiveLL.Proofs.Network.Edges
import AdaptiveLL.Proofs.Network.Reading
import AdaptiveLL.Proofs.Network.Operands
import AdaptiveLL.Proofs.Network.RoundTrip
import AdaptiveLL.Proofs.Network.Skeleton
import AdaptiveLL.Proofs.Network.Restoring
import AdaptiveLL.Proofs.Network.Accepted
import AdaptiveLL.Proofs.Network.Recasting
import AdaptiveLL.Proofs.Network.Reencoding
import AdaptiveLL.Proofs.Network.Closed
import AdaptiveLL.Proofs.Network.Ranges
import AdaptiveLL.Proofs.Network.Silent
import AdaptiveLL.Proofs.Network.Threads
import AdaptiveLL.Proofs.Grammar.Laid
import AdaptiveLL.Proofs.Grammar.Placing
import AdaptiveLL.Proofs.Grammar.Rules
import AdaptiveLL.Proofs.Grammar.Nullable
import AdaptiveLL.Proofs.Grammar.Ranking
import AdaptiveLL.Proofs.Grammar.Built
import AdaptiveLL.Proofs.Grammar.Equipment
import AdaptiveLL.Proofs.Grammar.Furnishing
import AdaptiveLL.Proofs.Grammar.Outfitting
import AdaptiveLL.Proofs.Grammar.Linking
import AdaptiveLL.Proofs.Grammar.Loading
import AdaptiveLL.Proofs.Grammar.Denotation
import AdaptiveLL.Proofs.Grammar.Spelling
import AdaptiveLL.Proofs.Grammar.Language
import AdaptiveLL.Proofs.Lexer.Closure
import AdaptiveLL.Proofs.Lexer.Sets
import AdaptiveLL.Proofs.Lexer.Automaton
import AdaptiveLL.Proofs.Lexer.Fuel
import AdaptiveLL.Proofs.Lexer.Learning
import AdaptiveLL.Proofs.Lexer.LongestMatch
import AdaptiveLL.Proofs.Lexer.Additions
import AdaptiveLL.Proofs.Lexer.Unasked
import AdaptiveLL.Proofs.Lexer.Scanning
import AdaptiveLL.Proofs.Lexer.Keeping
import AdaptiveLL.Proofs.Lexer.Recalling
import AdaptiveLL.Proofs.Lexer.Trusting
import AdaptiveLL.Proofs.Lexer.Transparency
import AdaptiveLL.Proofs.Lexer.Acting
import AdaptiveLL.Proofs.Lexer.Performing
import AdaptiveLL.Proofs.Lexer.Placement
import AdaptiveLL.Proofs.Text.Reading
import AdaptiveLL.Proofs.Lexer.Moving
import AdaptiveLL.Proofs.Lexer.Turns
import AdaptiveLL.Proofs.Lexer.Tiling
import AdaptiveLL.Proofs.Lexer.Positions
import AdaptiveLL.Proofs.Grammar.Marks
import AdaptiveLL.Proofs.Session
import AdaptiveLL.Proofs.Tokens.Sources
import AdaptiveLL.Proofs.Tokens.Streams
import AdaptiveLL.Proofs.Tokens.Tape
import AdaptiveLL.Proofs.Tokens.Viewing
import AdaptiveLL.Proofs.Tokens.Reporting
import AdaptiveLL.Proofs.Prediction.Streams
import AdaptiveLL.Proofs.Tree.Subtrees
import AdaptiveLL.Proofs.Tree.Spines
import AdaptiveLL.Proofs.Tree.Lineage
import AdaptiveLL.Proofs.Parser.Gaining
import AdaptiveLL.Proofs.Parser.Framing
import AdaptiveLL.Proofs.Parser.Walking
import AdaptiveLL.Proofs.Parser.Parsing
import AdaptiveLL.Proofs.Parser.Yield
import AdaptiveLL.Proofs.Parser.Repairing
import AdaptiveLL.Proofs.Parser.Balance
import AdaptiveLL.Proofs.Grammar.Returns
import AdaptiveLL.Proofs.Context.Stacks
import AdaptiveLL.Proofs.Context.Continuations
import AdaptiveLL.Proofs.Context.Union
import AdaptiveLL.Proofs.Guards.Order
import AdaptiveLL.Proofs.Guards.Connectives
import AdaptiveLL.Proofs.Guards.Evaluation
import AdaptiveLL.Proofs.Prediction.Sets
import AdaptiveLL.Proofs.Prediction.Closure
import AdaptiveLL.Proofs.Prediction.Steps
import AdaptiveLL.Proofs.Prediction.Reference
import AdaptiveLL.Proofs.Prediction.Covering
import AdaptiveLL.Proofs.Prediction.Alternatives
import AdaptiveLL.Proofs.Prediction.Inheritance
import AdaptiveLL.Proofs.Prediction.Protocol
import AdaptiveLL.Proofs.Prediction.Rerunning
import AdaptiveLL.Proofs.Prediction.Recording
import AdaptiveLL.Proofs.Prediction.Labels
import AdaptiveLL.Proofs.Prediction.Gathering
import AdaptiveLL.Proofs.Prediction.Modes
import AdaptiveLL.Proofs.Parser.Modes
import AdaptiveLL.Proofs.Grammar.Kinds
import AdaptiveLL.Proofs.Operators.Expressions
import AdaptiveLL.Proofs.Operators.Laying
import AdaptiveLL.Proofs.Operators.Compiling
import AdaptiveLL.Proofs.Prediction.Settling
import AdaptiveLL.Proofs.Prediction.Passing
import AdaptiveLL.Proofs.Operators.Closing
import AdaptiveLL.Proofs.Operators.Starting
import AdaptiveLL.Proofs.Network.Looking
import AdaptiveLL.Proofs.Operators.Glancing
import AdaptiveLL.Proofs.Tokens.Passing
import AdaptiveLL.Proofs.Parser.Stepping
import AdaptiveLL.Proofs.Operators.Parsing
import AdaptiveLL.Proofs.Guards.Resolution
import AdaptiveLL.Proofs.Prediction.Choosing
import AdaptiveLL.Proofs.Lookahead.Walks
import AdaptiveLL.Proofs.Lookahead.Exploring
import AdaptiveLL.Proofs.Lookahead.Exact
import AdaptiveLL.Proofs.Lookahead.InContext
import AdaptiveLL.Proofs.Symbols.Extent
import AdaptiveLL.Proofs.Symbols.Checked
import AdaptiveLL.Proofs.Symbols.Building
import AdaptiveLL.Proofs.Network.Delimited
import AdaptiveLL.Proofs.Network.Bounded
import AdaptiveLL.Proofs.Network.Unreserved
import AdaptiveLL.Proofs.Grammar.Least
import AdaptiveLL.Proofs.Grammar.Crossing
import AdaptiveLL.Proofs.Grammar.Labels
import AdaptiveLL.Proofs.Grammar.Encoding
import AdaptiveLL.Proofs.Rules.Relations
import AdaptiveLL.Proofs.Rules.Checking
import AdaptiveLL.Proofs.Grammar.Entries
import AdaptiveLL.Proofs.Lexer.Ordered
import AdaptiveLL.Proofs.Enclosed.Ends
import AdaptiveLL.Proofs.Enclosed.States
import AdaptiveLL.Proofs.Enclosed.Sets
import AdaptiveLL.Proofs.Enclosed.Matching
import AdaptiveLL.Proofs.Network.AtEnd
import AdaptiveLL.Proofs.Prediction.Ending
import AdaptiveLL.Proofs.Prediction.Grounds
import AdaptiveLL.Proofs.Tokens.Refuelled
import AdaptiveLL.Proofs.Prediction.Refuelled
import AdaptiveLL.Proofs.Context.Homeward
import AdaptiveLL.Proofs.Guards.Stateless
import AdaptiveLL.Proofs.Prediction.Posing
import AdaptiveLL.Proofs.Prediction.Landing
import AdaptiveLL.Proofs.Prediction.Opening
import AdaptiveLL.Proofs.Prediction.Termination
