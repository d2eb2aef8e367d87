import LazyMatrix.Expr.Build
import Std.Data.TreeMap

/-! Deep copies. What is shared within an expression is shared within its copy. A wildcard is
copied to itself, so a copy of a pattern binds the same wildcards. -/

namespace LazyMatrix

/-- What has become of the nodes met so far, under their handles. -/
abbrev Memo := Std.TreeMap Nat Expr

namespace Expr

def copyLeaf (handle : Nat) : Leaf → Build Expr
  | .literal d => literal d
  | .future f => do future (← f.copy)
  | .wildcard w => return .leaf handle (.wildcard w)

def copyInto : Expr → Memo → Build (Expr × Memo)
  | .leaf h x, memo =>
      match memo[h]? with
      | some done => return (done, memo)
      | none => do
          let e ← copyLeaf h x
          return (e, memo.insert h e)
  | .unary h op x, memo =>
      match memo[h]? with
      | some done => return (done, memo)
      | none => do
          let (y, memo) ← copyInto x memo
          let e ← newUnary op y
          return (e, memo.insert h e)
  | .binary h op l r, memo =>
      match memo[h]? with
      | some done => return (done, memo)
      | none => do
          let (left, memo) ← copyInto l memo
          let (right, memo) ← copyInto r memo
          let e ← newBinary op left right
          return (e, memo.insert h e)

def copy (e : Expr) : Build Expr := return (← copyInto e {}).1

end Expr

end LazyMatrix
