import LazyMatrix.Expr.Basic

/-! Whether every operator of an expression gets operands of agreeable shapes. The left operand is
judged before the right one and both before the operator. A wildcard cannot be judged at all. -/

namespace LazyMatrix

def BinaryOp.check : BinaryOp → Shape → Shape → Except Error Unit
  | .elementwise _, l, r => if l = r then .ok () else .error (.shapes l r)
  | .product, l, r => if l.cols = r.rows then .ok () else .error (.innerSizes l.cols r.rows)

def Leaf.validate : Leaf → Except (Stop Error) Unit
  | .literal _ => .ok ()
  | .future f => f.validate.mapError .error
  | .wildcard w => .error (.fault (.wildcard .validate w))

def Expr.validate : Expr → Except (Stop Error) Unit
  | .leaf _ x => x.validate
  | .unary _ _ x => x.validate
  | .binary _ op l r => do
      l.validate
      r.validate
      (op.check l.shape r.shape).mapError .error

end LazyMatrix
