import Lustre.Main
import Lustre.Proofs.Token.Tiling
import Lustre.Proofs.Reader.Program
import Lustre.Proofs.Printer.Apart
import Lustre.Proofs.Printer.Expr
import Lustre.Proofs.Tree.Rebuild
import Lustre.Proofs.Reread.Edges
import Lustre.Proofs.Reread.Name
import Lustre.Proofs.Reread.Operator
import Lustre.Proofs.Reader.Alongside
import Lustre.Proofs.Reader.Discipline
import Lustre.Proofs.Reader.Unambiguous
import Lustre.Proofs.Reader.Enclosing
import Lustre.Proofs.Reader.Pointing
import Lustre.Proofs.Reader.ErrorCap
import Lustre.Proofs.Reader.Follows
import Lustre.Proofs.Reader.Joined
import Lustre.Proofs.Reader.Layout
import Lustre.Proofs.Reader.Truncation
import Lustre.Proofs.Reread.StaticArg
import Lustre.Proofs.Reread.Whole
import Lustre.Proofs.Tree.Legible
import Lustre.Proofs.Pool
import Lustre.Proofs.Printer.Kept
import Lustre.Proofs.Reader.Ends
import Lustre.Proofs.Reader.Verbatim
import Lustre.Proofs.Reread.Relexed
import Lustre.Proofs.Source
import Lustre.Proofs.Reader.Nesting
import Lustre.Proofs.Reader.Room
import Lustre.Proofs.Reread.Limit
import Lustre.Proofs.Reread.Slices
import Lustre.Proofs.Reader.Terminating
import Lustre.Proofs.Reader.State
import Lustre.Proofs.Reread.Chain
import Lustre.Proofs.Reread.Tall
import Lustre.Proofs.Reader.Resuming
import Lustre.Proofs.Reader.Sorting
import Lustre.Proofs.Reader.Fenced
import Lustre.Proofs.Reader.Statements
import Lustre.Proofs.Reader.Contained
import Lustre.Proofs.LineIndex
import Lustre.Proofs.Token.Spaced
import Lustre.Proofs.Reread.Pragma
import Lustre.Proofs.Reread.Sound
import Lustre.Proofs.Reread.Program
