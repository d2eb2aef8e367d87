import LazyMatrix.Session
import LazyMatrix.Expr.Eval

/-! Building expressions. Every node built gets a handle of its own; its operands are the nodes
passed in, not copies of them. -/

namespace LazyMatrix

namespace Future

def ready (d : Dense) : Build Future := return { Promise.ready d with cell := ← Session.fresh }

/-- A future of its own that ends as this one does. -/
def copy (f : Future) : Build Future :=
  match f.outcome with
  | .ok d => ready d
  | .error _ => return { f with cell := ← Session.fresh }

end Future

/-- The future that a literal holds. A cell that has no number yet gets one. -/
def Pending.future (p : Pending) : Build Future := do
  match p.cell with
  | some cell => return { p with cell }
  | none => return { p with cell := ← Session.fresh }

namespace Literal

def settle : Literal → Build Literal
  | .ready d => return .ready d
  | .pending p => return .pending (← p.future).pending

def copy : Literal → Build Literal
  | .ready d => return .ready d
  | .pending p => return .pending (← (← p.future).copy).pending

end Literal

namespace Expr

def newLeaf (x : Leaf) : Build Expr := return .leaf (← Session.fresh) x

def newUnary (op : UnaryOp) (x : Expr) : Build Expr := return .unary (← Session.fresh) op x

def newBinary (op : BinaryOp) (l r : Expr) : Build Expr := return .binary (← Session.fresh) op l r

def literal (d : Dense) : Build Expr := newLeaf (.literal d)

def future (f : Future) : Build Expr := newLeaf (.future f)

def wildcard (w : Wildcard) : Build Expr := newLeaf (.wildcard w)

def ofLiteral : Literal → Build Expr
  | .ready d => literal d
  | .pending p => do future (← p.future)

def transpose (x : Expr) : Build Expr := newUnary .transpose x

def async (x : Expr) : Build Expr := newUnary .async x

/-- Multiplies by a constant. The constant of an operand that is scaled already is multiplied in. -/
def scale (c : Float) : Expr → Build Expr
  | .unary _ (.scale old) x => newUnary (.scale (c * old)) x
  | x => newUnary (.scale c) x

def add (l r : Expr) : Build Expr := newBinary (.elementwise .add) l r

def sub (l r : Expr) : Build Expr := newBinary (.elementwise .sub) l r

def mulElem (l r : Expr) : Build Expr := newBinary (.elementwise .mul) l r

def divElem (l r : Expr) : Build Expr := newBinary (.elementwise .div) l r

def mul (l r : Expr) : Build Expr := newBinary .product l r

/-- A new node of the same kind, with the same contents, over what `f` makes of the operands from
left to right. -/
def mapOperands {m : Type → Type} [Monad m] [MonadLiftT Build m] (f : Expr → m Expr) :
    Expr → m Expr
  | .leaf _ x => liftM (newLeaf x)
  | .unary _ op x => do
      let x ← f x
      liftM (newUnary op x)
  | .binary _ op l r => do
      let l ← f l
      let r ← f r
      liftM (newBinary op l r)

def background (e : Expr) : Attempt Fault Future := do
  match e.promise with
  | .ok p => return { p with cell := ← Session.fresh }
  | .error fault => throw fault

end Expr

end LazyMatrix
