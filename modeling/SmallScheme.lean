import SmallScheme.Main
import SmallScheme.Proofs.Discipline
import SmallScheme.Proofs.Isolation
import SmallScheme.Proofs.Renaming
import SmallScheme.Proofs.Reachable
import SmallScheme.Proofs.Repetition
import SmallScheme.Proofs.Decimal
import SmallScheme.Proofs.Lexing
import SmallScheme.Proofs.Numeral
import SmallScheme.Proofs.Printing
import SmallScheme.Proofs.Splitting
import SmallScheme.Proofs.Failure
import SmallScheme.Proofs.Grammar
import SmallScheme.Proofs.Running
import SmallScheme.Proofs.Coverage
import SmallScheme.Proofs.Transfer
import SmallScheme.Proofs.Depth
import SmallScheme.Proofs.Lockstep
import SmallScheme.Proofs.Forms
import SmallScheme.Proofs.Course
import SmallScheme.Proofs.LocalBinding
import SmallScheme.Proofs.Persistence
import SmallScheme.Proofs.DefinitionOrder
import SmallScheme.Proofs.Spacing
import SmallScheme.Proofs.Continuation
import SmallScheme.Proofs.Interaction
import SmallScheme.Proofs.FileTree
import SmallScheme.Proofs.Logs
import SmallScheme.Proofs.Cutting
import SmallScheme.Proofs.Escapes
import SmallScheme.Proofs.WriteSet
import SmallScheme.Proofs.Regime
import SmallScheme.Proofs.Equality
import SmallScheme.Proofs.Identity
import SmallScheme.Proofs.ArgumentCount
import SmallScheme.Proofs.Conditional
import SmallScheme.Proofs.Comments
import SmallScheme.Proofs.Partition
import SmallScheme.Proofs.Verbatim
import SmallScheme.Proofs.ReadBack
import SmallScheme.Proofs.History
import SmallScheme.Proofs.Concatenation
import SmallScheme.Proofs.Classification
import SmallScheme.Proofs.WordArithmetic
import SmallScheme.Proofs.FlooredRemainder
import SmallScheme.Proofs.ExitStatus
