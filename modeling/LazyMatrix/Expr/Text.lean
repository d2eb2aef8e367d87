import LazyMatrix.Expr.Basic
import LazyMatrix.Decimal.Style
import LazyMatrix.Sexp.Layout

/-! Expressions as text. Operators are written before their operands and wildcards by name. A
literal shows its shape in square brackets and a future its shape in a list; neither can be read
back. -/

namespace LazyMatrix

def Leaf.toSexp : Leaf → Sexp
  | .literal d => .atom ("[" ++ d.shape.text ++ "]")
  | .future f => .list [.atom Kind.future.symbol, .atom f.shape.text]
  | .wildcard w => .atom w.name

namespace Expr

def toSexp : Expr → Sexp
  | .leaf _ x => x.toSexp
  | .unary _ (.scale c) x =>
      .list [.atom Kind.scale.symbol, .atom (Decimal.write .constant c), x.toSexp]
  | .unary _ .transpose x => .list [.atom Kind.transpose.symbol, x.toSexp]
  | .unary _ .async x => .list [.atom Kind.async.symbol, x.toSexp]
  | .binary _ op l r => .list [.atom op.kind.symbol, l.toSexp, r.toSexp]

def text (e : Expr) : String := e.toSexp.inline

def pretty (e : Expr) (width : Nat) : String := e.toSexp.layout width 1

end Expr

end LazyMatrix
