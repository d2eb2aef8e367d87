import LazyMatrix.Future

/-! Lazy matrix expressions. Each node carries a handle, a number that tells it from every other
node; an expression in which a handle occurs twice is a graph with a shared node, and its tree is
the unfolding of that graph. Nothing is computed here except shapes, which no operator ever
refuses. -/

namespace LazyMatrix

inductive Elementwise where
  | add
  | sub
  | mul
  | div
  deriving DecidableEq, Repr

def Elementwise.apply : Elementwise → Float → Float → Float
  | .add => (· + ·)
  | .sub => (· - ·)
  | .mul => (· * ·)
  | .div => (· / ·)

inductive BinaryOp where
  | elementwise (f : Elementwise)
  | product
  deriving DecidableEq, Repr

inductive UnaryOp where
  | scale (c : Float)
  | transpose
  | async
  deriving Repr

inductive Leaf where
  | literal (d : Dense)
  | future (f : Future)
  | wildcard (w : Wildcard)

inductive Expr where
  | leaf (handle : Nat) (x : Leaf)
  | unary (handle : Nat) (op : UnaryOp) (operand : Expr)
  | binary (handle : Nat) (op : BinaryOp) (left right : Expr)

inductive Kind where
  | literal
  | elementwise (f : Elementwise)
  | product
  | scale
  | transpose
  | async
  | future
  | wildcard
  deriving DecidableEq, Repr

def Kind.symbol : Kind → String
  | .literal => "literal"
  | .elementwise .add => "+"
  | .elementwise .sub => "-"
  | .elementwise .mul => ".*"
  | .elementwise .div => "./"
  | .product => "*"
  | .scale => "scale"
  | .transpose => "t"
  | .async => "async"
  | .future => "future"
  | .wildcard => "wildcard"

def Leaf.kind : Leaf → Kind
  | .literal _ => .literal
  | .future _ => .future
  | .wildcard _ => .wildcard

def UnaryOp.kind : UnaryOp → Kind
  | .scale _ => .scale
  | .transpose => .transpose
  | .async => .async

def BinaryOp.kind : BinaryOp → Kind
  | .elementwise f => .elementwise f
  | .product => .product

def Leaf.shape : Leaf → Shape
  | .literal d => d.shape
  | .future f => f.shape
  | .wildcard _ => ⟨0, 0⟩

def UnaryOp.shape : UnaryOp → Shape → Shape
  | .transpose, s => s.swap
  | _, s => s

/-- The shape that an operator announces. An elementwise one goes by its left operand. -/
def BinaryOp.shape : BinaryOp → Shape → Shape → Shape
  | .elementwise _, l, _ => l
  | .product, l, r => ⟨l.rows, r.cols⟩

namespace Expr

def handle : Expr → Nat
  | .leaf h _ => h
  | .unary h _ _ => h
  | .binary h _ _ _ => h

def kind : Expr → Kind
  | .leaf _ x => x.kind
  | .unary _ op _ => op.kind
  | .binary _ op _ _ => op.kind

def operands : Expr → List Expr
  | .leaf _ _ => []
  | .unary _ _ x => [x]
  | .binary _ _ l r => [l, r]

def isLeaf : Expr → Bool
  | .leaf _ _ => true
  | _ => false

/-- The very same node. Nodes with equal contents are not the same for that. -/
def same (a b : Expr) : Bool := a.handle == b.handle

def shape : Expr → Shape
  | .leaf _ x => x.shape
  | .unary _ op x => op.shape x.shape
  | .binary _ (.elementwise _) l _ => l.shape
  | .binary _ .product l r => ⟨l.shape.rows, r.shape.cols⟩

theorem shape_binary (h : Nat) (op : BinaryOp) (l r : Expr) :
    (binary h op l r).shape = op.shape l.shape r.shape := by cases op <;> rfl

/-- The number of nodes of the tree, shared ones counted each time. -/
def size : Expr → Nat
  | .leaf _ _ => 1
  | .unary _ _ x => x.size + 1
  | .binary _ _ l r => l.size + r.size + 1

end Expr

end LazyMatrix
