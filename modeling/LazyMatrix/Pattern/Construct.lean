import LazyMatrix.Expr.Build
import LazyMatrix.Pattern.Bindings

/-! Filling in a pattern. Each wildcard is replaced by what it is bound to, which is shared and not
copied; literals and futures stay the nodes they are, and every operator becomes a new node. -/

namespace LazyMatrix.Expr

def constructLeaf (b : Bindings) (handle : Nat) : Leaf → Attempt Unbound Expr
  | .wildcard w =>
      match b.find? w with
      | some e => return e
      | none => throw ⟨w⟩
  | x => return .leaf handle x

def construct (b : Bindings) : (pattern : Expr) → Attempt Unbound Expr
  | .leaf h x => constructLeaf b h x
  | .unary _ op p => do newUnary op (← construct b p)
  | .binary _ op p q => do
      let l ← construct b p
      let r ← construct b q
      newBinary op l r

end LazyMatrix.Expr
