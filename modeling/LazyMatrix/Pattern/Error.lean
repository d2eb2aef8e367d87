import LazyMatrix.Expr.Text

/-! Why a pattern is refused, does not match, or cannot be filled in. -/

namespace LazyMatrix

inductive MatchError where
  | kind (expected found : Kind)
  | rebinding (w : Wildcard) (bound found : Expr)
  | leaf (expected found : Expr)

def MatchError.message : MatchError → String
  | .kind expected found => s!"expected {expected.symbol} but found {found.symbol}"
  | .rebinding w bound found =>
      s!"wildcard {w.name} is bound to {bound.text} but would also have to match {found.text}"
  | .leaf expected found => s!"pattern leaf {expected.text} is not {found.text}"

structure Unbound where
  wildcard : Wildcard
  deriving DecidableEq, Repr

def Unbound.message (e : Unbound) : String := s!"refers to unbound wildcard {e.wildcard.name}"

/-- Why a pass gives no result: the expression is not one it is for, or the pass itself is broken.
-/
inductive PassError where
  | mismatch (e : MatchError)
  | broken (e : Unbound)

def PassError.message : PassError → String
  | .mismatch e => e.message
  | .broken e => e.message

end LazyMatrix
