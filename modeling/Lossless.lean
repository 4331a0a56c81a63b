import Lossless.Command
import Lossless.Diagnostic
import Lossless.Diagnostic.Snippet
import Lossless.Disk
import Lossless.Grammar.Progress
import Lossless.Grammar.Rules
import Lossless.Grammar.Run
import Lossless.Grammar.Step
import Lossless.Grammar.Words
import Lossless.Kind
import Lossless.KindSet
import Lossless.Lexeme
import Lossless.Lexer
import Lossless.Main
import Lossless.Node
import Lossless.Node.Edit
import Lossless.Node.Outline
import Lossless.Node.Walk
import Lossless.Number
import Lossless.Number.Binary
import Lossless.Options
import Lossless.Parse
import Lossless.Proofs.Annotations
import Lossless.Proofs.Blanks
import Lossless.Proofs.CheckedReading
import Lossless.Proofs.Classification
import Lossless.Proofs.CommentLines
import Lossless.Proofs.Concatenation
import Lossless.Proofs.Conformance
import Lossless.Proofs.Construction
import Lossless.Proofs.Contracts
import Lossless.Proofs.Counters
import Lossless.Proofs.Counting
import Lossless.Proofs.Decisions
import Lossless.Proofs.Derivation
import Lossless.Proofs.Diagnostics
import Lossless.Proofs.Edits
import Lossless.Proofs.EndTokens
import Lossless.Proofs.Events
import Lossless.Proofs.Extraction
import Lossless.Proofs.Files
import Lossless.Proofs.Footprint
import Lossless.Proofs.Foresight
import Lossless.Proofs.Gaps
import Lossless.Proofs.HexOffsets
import Lossless.Proofs.Items
import Lossless.Proofs.KindSets
import Lossless.Proofs.Layout
import Lossless.Proofs.Likeness
import Lossless.Proofs.Literals
import Lossless.Proofs.Locality
import Lossless.Proofs.LongestLexeme
import Lossless.Proofs.Lookahead
import Lossless.Proofs.Members
import Lossless.Proofs.Namespaces
import Lossless.Proofs.Occurrences
import Lossless.Proofs.Origins
import Lossless.Proofs.Outlines
import Lossless.Proofs.Pacing
import Lossless.Proofs.Position
import Lossless.Proofs.Reading
import Lossless.Proofs.Replacement
import Lossless.Proofs.Rewriting
import Lossless.Proofs.RoundTrip
import Lossless.Proofs.Rounding
import Lossless.Proofs.Scales
import Lossless.Proofs.Schema
import Lossless.Proofs.Seam
import Lossless.Proofs.Shapes
import Lossless.Proofs.Sight
import Lossless.Proofs.Skipping
import Lossless.Proofs.Spelling
import Lossless.Proofs.Terminals
import Lossless.Proofs.Tiling
import Lossless.Proofs.Tokens
import Lossless.Proofs.Traversal
import Lossless.Proofs.TypeExpressions
import Lossless.Proofs.TypeLists
import Lossless.Reader
import Lossless.Session
import Lossless.Stream
import Lossless.Terminal
import Lossless.Text.Blank
import Lossless.Text.Hex
import Lossless.Text.Printable
import Lossless.Text.Quoted
import Lossless.Text.Span
import Lossless.Token
import Lossless.Trivia
import Lossless.View
import Lossless.View.Comment
import Lossless.View.Declaration
import Lossless.View.Member
import Lossless.View.Type
