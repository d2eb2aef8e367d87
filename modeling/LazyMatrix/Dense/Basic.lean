import LazyMatrix.Error

/-! Dense matrices in row-major buffers. Element `(r, c)` lies at `r * stride + c`; a stride above
the number of columns leaves padding after each row, and a buffer may be longer than its matrix.

`Dense` itself is plain data. Every constructor gives well-formed values or none, but no access
relies on that: each checks the sizes that it computes and the place in the buffer. -/

namespace LazyMatrix

structure Dense where
  shape : Shape
  stride : Nat
  data : Array Float
  deriving Repr

namespace Dense

/-- Sizes and buffer keep to their bounds, rows do not overlap, and the buffer covers every
element. -/
structure WellFormed (d : Dense) : Prop where
  rows_lt : d.shape.rows < sizeBound
  stride_lt : d.stride < sizeBound
  size_le_bound : d.data.size ≤ bufferBound
  stride_pos : 0 < d.stride
  cols_le_stride : d.shape.cols ≤ d.stride
  span_lt : d.shape.span d.stride < sizeBound
  span_le_size : d.shape.span d.stride ≤ d.data.size

def compact (shape : Shape) (data : Array Float) : Dense := ⟨shape, max shape.cols 1, data⟩

@[simp] theorem compact_shape (shape : Shape) (data : Array Float) :
    (compact shape data).shape = shape := rfl

@[simp] theorem compact_data (shape : Shape) (data : Array Float) :
    (compact shape data).data = data := rfl

/-- A matrix over a given buffer. The stride is judged before the span, and the span before the
buffer. -/
def ofStrided (shape : Shape) (stride : Nat) (data : Array Float) : Except Error Dense :=
  if stride = 0 then .error .zeroStride
  else if stride < shape.cols then .error (.strideBelowCols stride shape.cols)
  else if sizeBound ≤ shape.span stride then .error (.tooLarge shape stride)
  else if data.size < shape.span stride then .error (.shortBuffer data.size (shape.span stride))
  else .ok ⟨shape, stride, data⟩

def ofArray (shape : Shape) (data : Array Float) : Except Error Dense :=
  ofStrided shape (max shape.cols 1) data

/-- The rows behind each other, or the first of them that has other than `cols` values. -/
def joinRows (cols : Nat) : (row : Nat) → List (Array Float) → Except Error (Array Float)
  | _, [] => .ok #[]
  | row, values :: rest =>
      if values.size ≠ cols then .error (.raggedRow row values.size cols)
      else return values ++ (← joinRows cols (row + 1) rest)

def ofRows (rows : List (Array Float)) : Except Error Dense := do
  let cols := (rows.head?.map Array.size).getD 0
  ofArray ⟨rows.length, cols⟩ (← joinRows cols 0 rows)

def ofFn (shape : Shape) (f : Nat → Nat → Float) : Except Fault Dense := do
  reserve shape
  return compact shape
    (Array.ofFn fun i : Fin shape.area => f (i.val / shape.cols) (i.val % shape.cols))

def fill (shape : Shape) (x : Float) : Except Fault Dense := do
  reserve shape
  return compact shape (Array.replicate shape.area x)

def zeros (shape : Shape) : Except Fault Dense := fill shape 0

def ones (shape : Shape) : Except Fault Dense := fill shape 1

def identity (n : Nat) : Except Fault Dense := ofFn ⟨n, n⟩ fun r c => if r = c then 1 else 0

def isCompact (d : Dense) : Bool :=
  d.stride = d.shape.cols || d.shape.rows ≤ 1 || d.shape.cols = 0

def offset (d : Dense) (r c : Nat) : Except Fault Nat :=
  if r < d.shape.rows ∧ c < d.shape.cols then do
    checkSize .add ((← checkSize .multiply (r * d.stride)) + c)
  else .error (.element r c d.shape)

def entry (d : Dense) (r c : Nat) : Except Fault Float := do
  let i ← d.offset r c
  match d.data[i]? with
  | some x => return x
  | none => throw (.bufferIndex d.data.size i)

def put (data : Array Float) (i : Nat) (x : Float) : Except Fault (Array Float) :=
  if h : i < data.size then .ok (data.set i x h) else .error (.bufferIndex data.size i)

def set (d : Dense) (r c : Nat) (x : Float) : Except Fault Dense := do
  return { d with data := ← put d.data (← d.offset r c) x }

def checkStop (size stop : Nat) : Except Fault Unit :=
  if size < stop then .error (.bufferEnd size stop) else .ok ()

theorem checkStop_of_le {size stop : Nat} (h : stop ≤ size) : checkStop size stop = .ok () :=
  if_neg (Nat.not_lt.2 h)

def rowSpan (d : Dense) (r : Nat) : Except Fault (Nat × Nat) := do
  let start ← checkSize .multiply (r * d.stride)
  let stop ← checkSize .add (start + d.shape.cols)
  checkStop d.data.size stop
  return (start, stop)

def row (d : Dense) (r : Nat) : Except Fault (Array Float) :=
  if d.shape.rows ≤ r then .error (.row r d.shape.rows)
  else if d.shape.cols = 0 then .ok #[]
  else do
    let (start, stop) ← d.rowSpan r
    return d.data.extract start stop

/-- Visits rows `r`, `r + 1`, …, `todo` of them, up to the first fault. -/
def walkRows {β : Type} (visit : β → Nat → Except Fault β) :
    (todo r : Nat) → β → Except Fault β
  | 0, _, b => .ok b
  | todo + 1, r, b => do walkRows visit todo (r + 1) (← visit b r)

def occupied (d : Dense) : Nat := if d.shape.cols = 0 then 0 else d.shape.rows

def toArray (d : Dense) : Except Fault (Array Float) := do
  let size ← checkSize .multiply d.shape.area
  if d.isCompact then
    checkStop d.data.size size
    return d.data.extract 0 size
  else
    allocate size
    walkRows (fun out r => return out ++ (← d.row r)) d.occupied 0 #[]

/-- As `toArray`, but a compact matrix gives up its buffer, cut to size if it is longer. -/
def intoArray (d : Dense) : Except Fault (Array Float) :=
  if d.isCompact then return d.data.extract 0 (← checkSize .multiply d.shape.area) else d.toArray

end Dense

end LazyMatrix
