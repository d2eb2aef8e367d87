import LazyMatrix.Size
import LazyMatrix.Wildcard

/-! What can go wrong with matrices and expressions. An `Error` is a finding about the data,
returned as a value; a `Fault` ends the computation that met it. A background computation turns a
fault into an error, and reading its result turns that error into a fault again, so the two refer
to each other. -/

namespace LazyMatrix

inductive Use where
  | read
  | evaluate
  | validate
  deriving DecidableEq, Repr

def Use.verb : Use → String
  | .read => "read from"
  | .evaluate => "evaluate"
  | .validate => "validate"

inductive SizeOp where
  | add
  | multiply
  deriving DecidableEq, Repr

def SizeOp.verb : SizeOp → String
  | .add => "add"
  | .multiply => "multiply"

mutual

inductive Error where
  | zeroStride
  | strideBelowCols (stride cols : Nat)
  | shortBuffer (size needed : Nat)
  | tooLarge (shape : Shape) (stride : Nat)
  | raggedRow (row size cols : Nat)
  | shapes (left right : Shape)
  | innerSizes (cols rows : Nat)
  | background (fault : Fault)
  deriving DecidableEq, Repr

inductive Fault where
  | element (r c : Nat) (shape : Shape)
  | row (r rows : Nat)
  | bufferIndex (size index : Nat)
  | bufferEnd (size stop : Nat)
  | overflow (op : SizeOp)
  | allocation
  | innerSizes (cols rows : Nat)
  | wildcard (use : Use) (w : Wildcard)
  | failedFuture (error : Error)
  deriving DecidableEq, Repr

end

mutual

def Error.message : Error → String
  | .zeroStride => "invalid stride: 0"
  | .strideBelowCols stride cols => s!"invalid stride: {stride} < cols {cols}"
  | .shortBuffer size needed => s!"invalid data len: {size} < addressable {needed}"
  | .tooLarge shape stride => s!"matrix too large: {shape.text} with stride {stride}"
  | .raggedRow row size cols => s!"ragged rows: row {row} has {size} values, expected {cols}"
  | .shapes l r => s!"dimension mismatch: ({l.rows}, {l.cols}) vs ({r.rows}, {r.cols})"
  | .innerSizes cols rows => s!"inner dimension mismatch: {cols} vs {rows}"
  | .background fault => "background evaluation failed: " ++ fault.message

def Fault.message : Fault → String
  | .element r c shape => s!"index ({r}, {c}) out of range for {shape.text} matrix"
  | .row r rows => s!"row {r} out of range for {rows} rows"
  | .bufferIndex size index => s!"index out of bounds: the len is {size} but the index is {index}"
  | .bufferEnd size stop => s!"range end index {stop} out of range for slice of length {size}"
  | .overflow op => s!"attempt to {op.verb} with overflow"
  | .allocation => "capacity overflow"
  | .innerSizes cols rows =>
      s!"assertion `left == right` failed: gemm: inner dimension mismatch: {cols} vs {rows}\n" ++
        s!"  left: {cols}\n right: {rows}"
  | .wildcard use w =>
      s!"cannot {use.verb} wildcard {w.name}: wildcards only belong in templates"
  | .failedFuture error => "read from a failed future: " ++ error.message

end

/-- How a computation that can find an `ε` or meet a fault ends early. -/
inductive Stop (ε : Type) where
  | error (e : ε)
  | fault (f : Fault)
  deriving Repr

def Stop.toError : Stop Error → Error
  | .error e => e
  | .fault f => .background f

def checkSize (op : SizeOp) (n : Nat) : Except Fault Nat :=
  if n < sizeBound then .ok n else .error (.overflow op)

theorem checkSize_of_lt {op : SizeOp} {n : Nat} (h : n < sizeBound) : checkSize op n = .ok n :=
  if_pos h

/-- Refuses a buffer of more elements than a buffer holds. -/
def allocate (n : Nat) : Except Fault Unit :=
  if bufferBound < n then .error .allocation else .ok ()

theorem allocate_of_le {n : Nat} (h : n ≤ bufferBound) : allocate n = .ok () :=
  if_neg (Nat.not_lt.2 h)

def reserve (shape : Shape) : Except Fault Unit := do
  allocate (← checkSize .multiply shape.area)

theorem reserve_of_le {shape : Shape} (h : shape.area ≤ bufferBound) : reserve shape = .ok () := by
  rw [reserve, checkSize_of_lt (lt_sizeBound_of_le h)]
  exact allocate_of_le h

theorem reserve_of_lt {shape : Shape} (h : bufferBound < shape.area) :
    reserve shape =
      .error (if shape.area < sizeBound then .allocation else .overflow .multiply) := by
  rw [reserve, checkSize]
  split
  · exact if_pos h
  · rfl

theorem reserve_eq_ok_iff {shape : Shape} : reserve shape = .ok () ↔ shape.area ≤ bufferBound := by
  refine ⟨fun room => Nat.le_of_not_lt fun large => ?_, reserve_of_le⟩
  rw [reserve_of_lt large] at room
  cases room

end LazyMatrix
