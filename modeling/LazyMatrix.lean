import LazyMatrix.Compiler
import LazyMatrix.Expr.Entry
import LazyMatrix.Expr.Sharing
import LazyMatrix.Pattern.Reader
import LazyMatrix.Proofs.Decimal.Reading
import LazyMatrix.Proofs.Decimal.Shortest
import LazyMatrix.Proofs.Dense.Obtained
import LazyMatrix.Proofs.Dense.Product
import LazyMatrix.Proofs.Dense.Relaid
import LazyMatrix.Proofs.Dense.Sizes
import LazyMatrix.Proofs.Expr.Agreement
import LazyMatrix.Proofs.Expr.Announced
import LazyMatrix.Proofs.Expr.Arising
import LazyMatrix.Proofs.Expr.Background
import LazyMatrix.Proofs.Expr.Denotation
import LazyMatrix.Proofs.Expr.Flaws
import LazyMatrix.Proofs.Expr.Lines
import LazyMatrix.Proofs.Expr.Postorder
import LazyMatrix.Proofs.Expr.Reached
import LazyMatrix.Proofs.Expr.Relaid
import LazyMatrix.Proofs.Float.Bits
import LazyMatrix.Proofs.Float.Rounding
import LazyMatrix.Proofs.Float.Zero
import LazyMatrix.Proofs.Names
import LazyMatrix.Proofs.Pass.Parallel
import LazyMatrix.Proofs.Pass.Soundness
import LazyMatrix.Proofs.Pass.Walk
import LazyMatrix.Proofs.Pattern.Instance
import LazyMatrix.Proofs.Pattern.Inverse
import LazyMatrix.Proofs.Pattern.Reprinting
import LazyMatrix.Proofs.Pattern.Traversal
import LazyMatrix.Proofs.Rules.Normal
import LazyMatrix.Proofs.Rules.Scales
import LazyMatrix.Proofs.Rules.Trimming
import LazyMatrix.Proofs.Sexp.Reading
import LazyMatrix.Proofs.Task.Launching
import LazyMatrix.Proofs.Task.Settling
import LazyMatrix.Proofs.Template.Flip
import LazyMatrix.Proofs.Writes
import LazyMatrix.Rules
import LazyMatrix.Template
