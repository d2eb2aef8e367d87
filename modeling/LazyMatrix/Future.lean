import LazyMatrix.Dense.Basic

/-! Futures. A promise is what a background evaluation announced when it began, a shape, and what
it ends with, a matrix or an error. A future is a handle to a promise; two futures that share a
cell are the same one. How far a running evaluation has got is not modelled: every read waits for
the end. -/

namespace LazyMatrix

structure Promise where
  shape : Shape
  outcome : Except Error Dense

namespace Promise

def ready (d : Dense) : Promise := ⟨d.shape, .ok d⟩

/-- The result. Reading a failed one is a fault. -/
def wait (p : Promise) : Except Fault Dense :=
  match p.outcome with
  | .ok d => .ok d
  | .error e => .error (.failedFuture e)

def validate (p : Promise) : Except Error Unit :=
  match p.outcome with
  | .ok _ => .ok ()
  | .error e => .error e

def entry (p : Promise) (r c : Nat) : Except Fault Float := do (← p.wait).entry r c

def toArray (p : Promise) : Except Fault (Array Float) := do (← p.wait).toArray

def text (p : Promise) : String :=
  s!"Future \x7b rows: {p.shape.rows}, cols: {p.shape.cols}, ready: true \x7d"

end Promise

structure Future extends Promise where
  cell : Nat

namespace Future

def same (f g : Future) : Bool := f.cell == g.cell

end Future

/-- A promise as a literal holds it, in the cell of a future. One that an evaluation has just made
has its cell to itself, and the cell has no number yet. -/
structure Pending extends Promise where
  cell : Option Nat

instance : Coe Promise Pending := ⟨fun p => { p with cell := none }⟩

def Future.pending (f : Future) : Pending := { f with cell := some f.cell }

@[simp] theorem Future.pending_toPromise (f : Future) : f.pending.toPromise = f.toPromise := rfl

end LazyMatrix
