import Shorthand.Expansion.Basic
import Shorthand.Options.Loading
import Shorthand.Proofs.Expansion.BareGroups
import Shorthand.Proofs.Expansion.Composition
import Shorthand.Proofs.Expansion.ErrorPlaces
import Shorthand.Proofs.Expansion.LinkTargets
import Shorthand.Proofs.Expansion.NamesAndValues
import Shorthand.Proofs.Expansion.Numbering
import Shorthand.Proofs.Expansion.Pruning
import Shorthand.Proofs.Expansion.Shape
import Shorthand.Proofs.Expansion.Soundness
import Shorthand.Proofs.Expansion.StrippedBraces
import Shorthand.Proofs.Expansion.VerbatimText
import Shorthand.Proofs.Expansion.WholeText
import Shorthand.Proofs.Link.Targets
import Shorthand.Proofs.Options.Loading
import Shorthand.Proofs.Statement.BracedText
import Shorthand.Proofs.Statement.Conservativity
import Shorthand.Proofs.Statement.EarliestFault
import Shorthand.Proofs.Statement.FaultPlaces
import Shorthand.Proofs.Statement.Nesting
import Shorthand.Proofs.Statement.Reading
import Shorthand.Proofs.Text.Operations
import Shorthand.Proofs.Token.Delimiters
import Shorthand.Proofs.Token.NormalForm
import Shorthand.Proofs.Token.Partition
import Shorthand.Proofs.Token.Reached
import Shorthand.Proofs.Token.Rejection
import Shorthand.Proofs.Token.Spelling
import Shorthand.Proofs.Writing.Nodes
import Shorthand.Text.Cursor
import Shorthand.Proofs.Expansion.Rendered
