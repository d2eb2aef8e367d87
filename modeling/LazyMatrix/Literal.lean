import LazyMatrix.Future
import LazyMatrix.Dense.Kernel
import LazyMatrix.Dense.Text

/-! Literals, the results of evaluation: a matrix at hand, or the promise of one. Writing to a
pending literal first gives it a matrix of its own, so no write is seen through the promise. -/

namespace LazyMatrix

inductive Literal where
  | ready (d : Dense)
  | pending (p : Pending)

namespace Literal

def shape : Literal → Shape
  | .ready d => d.shape
  | .pending p => p.shape

def dense : Literal → Except Fault Dense
  | .ready d => .ok d
  | .pending p => p.wait

def entry (l : Literal) (r c : Nat) : Except Fault Float := do (← l.dense).entry r c

/-- Writes one element. A pending literal is at hand afterwards even if the position is outside of
it; one whose promise failed stays as it is. -/
def set (l : Literal) (r c : Nat) (x : Float) : Literal × Except Fault Unit :=
  match l.dense with
  | .error fault => (l, .error fault)
  | .ok d =>
      match d.set r c x with
      | .error fault => (.ready d, .error fault)
      | .ok d => (.ready d, .ok ())

def toArray (l : Literal) : Except Fault (Array Float) := do (← l.dense).toArray

def intoArray : Literal → Except Fault (Array Float)
  | .ready d => d.intoArray
  | .pending p => p.toArray

def validate : Literal → Except Error Unit
  | .ready _ => .ok ()
  | .pending p => p.validate

def agrees (a b : Literal) : Except Fault Bool := do (← a.dense).agrees (← b.dense)

def text : Literal → Except Fault String
  | .ready d => d.text
  | .pending p => .ok p.text

end Literal

end LazyMatrix
