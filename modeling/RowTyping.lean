import RowTyping.Logging.Forward
import RowTyping.Main
import RowTyping.Proofs.Infer.Principal
import RowTyping.Proofs.Infer.Sound
import RowTyping.Proofs.Twins
import RowTyping.Proofs.Renaming
import RowTyping.Proofs.Unify.Renaming
import RowTyping.Proofs.Infer.Matching
import RowTyping.Proofs.Infer.BoundNames
import RowTyping.Proofs.Infer.Lockstep
import RowTyping.Proofs.Infer.Inlining
import RowTyping.Proofs.Unify.Lacks
import RowTyping.Proofs.Unify.Termination
import RowTyping.Proofs.Composition
import RowTyping.Proofs.Failures
import RowTyping.Proofs.Unify.Steps
import RowTyping.Proofs.Unify.Equal
import RowTyping.Proofs.Infer.Application
import RowTyping.Proofs.Infer.Records
import RowTyping.Proofs.Infer.Failures
import RowTyping.Proofs.Infer.Generalization
import RowTyping.Proofs.Printing.Types
import RowTyping.Proofs.Printing.Expressions
import RowTyping.Proofs.Unify.Rows
import RowTyping.Proofs.Logging
