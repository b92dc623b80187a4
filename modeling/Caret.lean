import Caret.Bisection
import Caret.Candidate
import Caret.Completion.Basic
import Caret.Completion.Config
import Caret.Grammar.Basic
import Caret.Grammar.Compile
import Caret.Grammar.Expr
import Caret.Grammar.LeftRecursion
import Caret.Grammar.Source
import Caret.Grammar.Vocabulary
import Caret.Interval
import Caret.IntervalSet
import Caret.Json.Basic
import Caret.Json.Completion
import Caret.Json.Network
import Caret.Lexer.Basic
import Caret.Lexer.Command
import Caret.Lexer.Pattern
import Caret.Lexer.Token
import Caret.Network.Basic
import Caret.Network.Edge
import Caret.Network.Reach
import Caret.Overflow
import Caret.Recovery
import Caret.Text.Lines
import Caret.Text.Range
import Caret.Traversal.Basic
import Caret.Traversal.FirstTokens
import Caret.Traversal.Machine
import Caret.Traversal.TokenStream
import Caret.Proofs.Derivation
import Caret.Proofs.Operators
import Caret.Proofs.Bisection
import Caret.Proofs.IntervalSet
import Caret.Proofs.Terminal
import Caret.Proofs.Enumeration
import Caret.Proofs.LeftRecursion
import Caret.Proofs.LeftCycles
import Caret.Proofs.Growth
import Caret.Proofs.Wiring
import Caret.Proofs.Realization
import Caret.Proofs.Resolution
import Caret.Proofs.Acceptance
import Caret.Proofs.Grounding
import Caret.Proofs.Exploration
import Caret.Proofs.Runs
import Caret.Proofs.Simulation
import Caret.Proofs.Traversal
import Caret.Proofs.FirstTokens
import Caret.Proofs.Merge
import Caret.Proofs.Comparison
import Caret.Proofs.Suggestions
import Caret.Proofs.Termination
import Caret.Proofs.Transparency
import Caret.Proofs.Pushdown
import Caret.Proofs.Reentry
import Caret.Proofs.Jumps
import Caret.Proofs.Conservation
import Caret.Proofs.Language
import Caret.Proofs.Recognition
import Caret.Proofs.PatternNetwork
import Caret.Proofs.Reach
import Caret.Proofs.MaximalMunch
import Caret.Proofs.Lines
import Caret.Proofs.Tokenization
import Caret.Proofs.Boundaries
import Caret.Proofs.Viability
import Caret.Proofs.Agreement
import Caret.Proofs.Completion
import Caret.Proofs.CallStack
import Caret.Proofs.Shape
import Caret.Proofs.Reporting
import Caret.Proofs.Ranges
import Caret.Proofs.Nullability
import Caret.Proofs.Guards
import Caret.Proofs.Ungated
import Caret.Proofs.Confinement
import Caret.Proofs.Precedence
import Caret.Proofs.SetOperations
import Caret.Proofs.CanonicalSets
import Caret.Proofs.FirstOccurrence
import Caret.Proofs.MergeLaws
import Caret.Proofs.MergePositions
import Caret.Proofs.TokenNumbers
import Caret.Proofs.Renaming
import Caret.Proofs.Validity
import Caret.Proofs.ReturnEdges
import Caret.Proofs.Construction
import Caret.Proofs.NetworkShape
import Caret.Proofs.Relabelling
import Caret.Proofs.Divergence
import Caret.Proofs.LexerRules
import Caret.Proofs.Channels
import Caret.Proofs.CommandSearch
import Caret.Proofs.CommandOrder
import Caret.Proofs.Exchange
