import LazyMatrix.Expr.Basic

/-! One element of an expression, read without evaluating the rest of it. An element of a product
is a dot product added up from the left, starting from negative zero, which no sum changes. -/

namespace LazyMatrix

def addProducts (left right : Nat → Except Fault Float) :
    (todo i : Nat) → Float → Except Fault Float
  | 0, _, sum => .ok sum
  | todo + 1, i, sum => do
      let x ← left i
      let y ← right i
      addProducts left right todo (i + 1) (sum + x * y)

def Leaf.entry : Leaf → Nat → Nat → Except Fault Float
  | .literal d, r, c => d.entry r c
  | .future f, r, c => f.entry r c
  | .wildcard w, _, _ => .error (.wildcard .read w)

def Expr.entry : Expr → Nat → Nat → Except Fault Float
  | .leaf _ x, r, c => x.entry r c
  | .unary _ (.scale k) x, r, c => do return (← x.entry r c) * k
  | .unary _ .transpose x, r, c => x.entry c r
  | .unary _ .async x, r, c => x.entry r c
  | .binary _ (.elementwise f) a b, r, c => do
      let x ← a.entry r c
      let y ← b.entry r c
      return f.apply x y
  | .binary _ .product a b, r, c =>
      addProducts (fun i => a.entry r i) (fun i => b.entry i c) a.shape.cols 0 (-0.0)

end LazyMatrix
