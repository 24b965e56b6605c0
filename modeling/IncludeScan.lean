import IncludeScan.Analysis
import IncludeScan.Platform.Reader
import IncludeScan.Platform.Standard
import IncludeScan.Text.Utf8
import IncludeScan.Token.Stream
import IncludeScan.Proofs.Grouping.Components
import IncludeScan.Proofs.Grouping.Unbounded
import IncludeScan.Proofs.Grouping.Groups
import IncludeScan.Proofs.Token.LineEnds
import IncludeScan.Proofs.Directive.Sites
import IncludeScan.Proofs.Directive.PathCondition
import IncludeScan.Proofs.Directive.TestedNames
import IncludeScan.Proofs.Directive.Parameters
import IncludeScan.Proofs.Condition.Reading
import IncludeScan.Proofs.Outline.Events
import IncludeScan.Proofs.Token.Pieces
import IncludeScan.Proofs.Outline.Places
import IncludeScan.Proofs.Outline.Rows
import IncludeScan.Proofs.Outline.Prologue
import IncludeScan.Proofs.Condition.Format
import IncludeScan.Proofs.Token.Newlines
import IncludeScan.Proofs.Outline.Printed
import IncludeScan.Proofs.Outline.Roundtrip
import IncludeScan.Proofs.Analysis.Targets
import IncludeScan.Proofs.Token.Lossless
import IncludeScan.Proofs.Outline.IncludeLines
import IncludeScan.Proofs.Condition.Grammar
import IncludeScan.Proofs.Condition.Regroup
import IncludeScan.Proofs.Text.Sorting
import IncludeScan.Proofs.Grouping.InputOrder
import IncludeScan.Proofs.Grouping.Shape
import IncludeScan.Proofs.Grouping.ListedTwice
import IncludeScan.Proofs.Outline.Descent
import IncludeScan.Proofs.Analysis.Faults
import IncludeScan.Proofs.Outline.Reactions
import IncludeScan.Proofs.Outline.Recovery
import IncludeScan.Proofs.Outline.OpenBlocks
import IncludeScan.Proofs.Token.Pushback
import IncludeScan.Proofs.Token.Peek
import IncludeScan.Proofs.Value.Checking
import IncludeScan.Proofs.Platform.Coverage
import IncludeScan.Proofs.Platform.Keys
import IncludeScan.Proofs.Analysis.Independence
import IncludeScan.Proofs.Path.Components
import IncludeScan.Proofs.Path.Variants
import IncludeScan.Proofs.Grouping.Siblings
import IncludeScan.Proofs.Outline.WellFormed
import IncludeScan.Proofs.Outline.SourceOrder
import IncludeScan.Proofs.Token.Positions
import IncludeScan.Proofs.Token.FaultPlaces
import IncludeScan.Proofs.Outline.MainFunction
import IncludeScan.Proofs.Outline.DirectiveTokens
import IncludeScan.Proofs.Outline.LineExtent
import IncludeScan.Proofs.Outline.Trivia
import IncludeScan.Proofs.Condition.Faithful
import IncludeScan.Proofs.Condition.Literals
import IncludeScan.Proofs.Path.Searches
import IncludeScan.Proofs.Path.Joining
import IncludeScan.Content
import IncludeScan.Proofs.Text.Decoding
import IncludeScan.Proofs.Settings.Rereading
