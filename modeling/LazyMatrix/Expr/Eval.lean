import LazyMatrix.Expr.Validate
import LazyMatrix.Expr.Wildcards
import LazyMatrix.Literal

/-! Evaluation. Both operands of an operator are evaluated before the values of either are read. A
node marked for background evaluation becomes a promise: what it announces is settled at once,
while its errors and faults are kept until somebody reads it. Of these only a wildcard is refused
on the spot. -/

namespace LazyMatrix

namespace Expr

/-- The promise of an expression's value, where `run` evaluates the expression. It is validated
before it is run, and both an error and a fault are stored. -/
def promiseBy (e : Expr) (run : Unit → Except Fault Literal) : Except Fault Promise :=
  match e.firstWildcard? with
  | some w => .error (.wildcard .evaluate w)
  | none =>
      .ok {
        shape := e.shape
        outcome :=
          match e.validate with
          | .error stop => .error stop.toError
          | .ok () => ((run ()).bind Literal.dense).mapError .background }

def combine (f : Elementwise) (shape : Shape) (left right : Literal) : Except Fault Literal := do
  let right ← right.intoArray
  let left ← left.intoArray
  return .ready (Dense.compact shape (Dense.overlay f.apply left right))

def eval : Expr → Except Fault Literal
  | .leaf _ (.literal d) => .ok (.ready d)
  | .leaf _ (.future f) => .ok (.pending f.pending)
  | .leaf _ (.wildcard w) => .error (.wildcard .evaluate w)
  | .unary _ (.scale k) x => do
      let d ← (← x.eval).dense
      return .ready (← d.map (· * k))
  | .unary _ .transpose x => do
      let d ← (← x.eval).dense
      return .ready (← d.transpose)
  | .unary _ .async x => do return .pending (← x.promiseBy fun _ => x.eval)
  | .binary _ (.elementwise f) l r => do
      let left ← l.eval
      let right ← r.eval
      combine f l.shape left right
  | .binary _ .product l r => do
      let left ← l.eval
      let right ← r.eval
      return .ready (← (← left.dense).gemm (← right.dense))

def promise (e : Expr) : Except Fault Promise := e.promiseBy fun _ => e.eval

/-- Equality of shapes and of values. Different shapes are never evaluated. -/
def equals (a b : Expr) : Except Fault Bool :=
  if a.shape = b.shape then do
    let left ← a.eval
    let right ← b.eval
    left.agrees right
  else .ok false

end Expr

end LazyMatrix
