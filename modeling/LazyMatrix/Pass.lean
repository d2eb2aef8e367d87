import LazyMatrix.Expr.Copy

/-! Passes, the steps of a compiler, and how to run one throughout an expression. The operands of
a node come before the node that holds them. Each node is dealt with once however often it is
shared, and a node under which nothing changed and which the pass declines stays the very same. -/

namespace LazyMatrix

structure Pass where
  name : String
  run : Expr → Attempt PassError Expr

namespace Pass

def orKeep (run : Expr → Attempt PassError Expr) (e : Expr) : Attempt PassError Expr :=
  tryCatch (run e) fun
    | .mismatch _ => return e
    | .broken u => throw (.broken u)

/-- Runs on a node whose operands are done, and remembers the result under the node's old handle. -/
def settle (run : Expr → Attempt PassError Expr) (handle : Nat) (rebuilt : Expr) (memo : Memo) :
    Attempt PassError (Expr × Memo) := do
  let e ← orKeep run rebuilt
  return (e, memo.insert handle e)

/-- A node over its new operand. Where that is the old one it is the node itself. -/
def overOperand (handle : Nat) (op : UnaryOp) (old new : Expr) : Build Expr :=
  if new.same old then return .unary handle op old else Expr.newUnary op new

def overOperands (handle : Nat) (op : BinaryOp) (l r left right : Expr) : Build Expr :=
  if left.same l && right.same r then return .binary handle op l r
  else Expr.newBinary op left right

def throughout (run : Expr → Attempt PassError Expr) :
    Expr → Memo → Attempt PassError (Expr × Memo)
  | .leaf h x, memo =>
      match memo[h]? with
      | some done => return (done, memo)
      | none => settle run h (.leaf h x) memo
  | .unary h op x, memo =>
      match memo[h]? with
      | some done => return (done, memo)
      | none => do
          let (y, memo) ← throughout run x memo
          settle run h (← overOperand h op x y) memo
  | .binary h op l r, memo =>
      match memo[h]? with
      | some done => return (done, memo)
      | none => do
          let (left, memo) ← throughout run l memo
          let (right, memo) ← throughout run r memo
          settle run h (← overOperands h op l r left right) memo

/-- Runs a pass at every node, from the leaves up. -/
def everywhere (p : Pass) : Pass where
  name := p.name ++ "-everywhere"
  run e := return (← throughout p.run e {}).1

end Pass

end LazyMatrix
