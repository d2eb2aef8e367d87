import LazyMatrix.Dense.Basic

/-! Whole-matrix operations on dense matrices: elementwise maps, transposition, the product,
equality. Each fixes the order in which it computes, since that order decides the bits of a
result. On a well-formed matrix none of them faults, except that a product faults if its result is
too large for a buffer or its inner sizes differ. -/

namespace LazyMatrix.Dense

/-- What a sweep over a matrix leaves: the matrix and the state of the visiting function as they
stood when it ended, and the fault that ended it early, if one did. -/
structure Sweep (σ : Type) where
  dense : Dense
  state : σ
  fault : Option Fault

section

variable {σ : Type}

def mapSpan (f : σ → Float → Float × σ) : (n i : Nat) → σ → Array Float → Array Float × σ
  | 0, _, s, data => (data, s)
  | n + 1, i, s, data =>
      if h : i < data.size then
        let (x, s) := f s data[i]
        mapSpan f n (i + 1) s (data.set i x h)
      else (data, s)

def sweepRows (f : σ → Float → Float × σ) : (todo r : Nat) → σ → Dense → Sweep σ
  | 0, _, s, d => ⟨d, s, none⟩
  | todo + 1, r, s, d =>
      match d.rowSpan r with
      | .error fault => ⟨d, s, some fault⟩
      | .ok (start, stop) =>
          let (data, s) := mapSpan f (stop - start) start s d.data
          sweepRows f todo (r + 1) s { d with data }

/-- Replaces each element in place, in row-major order. Padding and stride stay as they are. -/
def sweep (f : σ → Float → Float × σ) (s : σ) (d : Dense) : Sweep σ :=
  sweepRows f d.occupied 0 s d

end

def map (f : Float → Float) (d : Dense) : Except Fault Dense :=
  let result := d.sweep (fun _ x => (f x, ())) ()
  match result.fault with
  | some fault => .error fault
  | none => .ok result.dense

/-- `left` with its first elements combined with those of `right`; the size stays that of `left`. -/
def overlay (f : Float → Float → Float) (left right : Array Float) : Array Float :=
  left.mapIdx fun i x => match right[i]? with
    | some y => f x y
    | none => x

@[simp] theorem size_overlay (f : Float → Float → Float) (left right : Array Float) :
    (overlay f left right).size = left.size := by simp [overlay]

/-- Writes the values of one row, from column `j` on, as column `i` of a buffer whose rows are
`width` apart. -/
def scatter (width i : Nat) : (j : Nat) → List Float → Array Float → Except Fault (Array Float)
  | _, [], out => .ok out
  | j, x :: rest, out => do
      let k ← checkSize .add ((← checkSize .multiply (j * width)) + i)
      scatter width i (j + 1) rest (← put out k x)

def transpose (d : Dense) : Except Fault Dense := do
  reserve d.shape
  let blank := Array.replicate d.shape.area (0 : Float)
  let data ← walkRows
    (fun out i => do scatter d.shape.rows i 0 (← d.row i).toList out) d.occupied 0 blank
  return compact d.shape.swap data

def addRows (b : Dense) : (p : Nat) → List Float → Array Float → Except Fault (Array Float)
  | _, [], out => .ok out
  | p, x :: rest, out => do
      addRows b (p + 1) rest (overlay (fun o y => o + x * y) out (← b.row p))

def pushProductRow (size : Nat) (a b : Dense) (out : Array Float) (i : Nat) :
    Except Fault (Array Float) := do
  checkStop size (← checkSize .multiply ((i + 1) * b.shape.cols))
  return out ++ (← addRows b 0 (← a.row i).toList (Array.replicate b.shape.cols 0))

/-- Row `i` of a product is the sum of the rows of the right factor, each times an element of row
`i` of the left factor, added up from zero in order. -/
def gemm (a b : Dense) : Except Fault Dense := do
  let shape : Shape := ⟨a.shape.rows, b.shape.cols⟩
  if a.shape.cols ≠ b.shape.rows then throw (.innerSizes a.shape.cols b.shape.rows)
  reserve shape
  let todo := if shape.cols = 0 then a.occupied else shape.rows
  return compact shape (← walkRows (pushProductRow shape.area a b) todo 0 #[])

def rowsAgree (a b : Dense) : (todo r : Nat) → Except Fault Bool
  | 0, _ => .ok true
  | todo + 1, r => do
      if (← a.row r) == (← b.row r) then rowsAgree a b todo (r + 1) else return false

/-- Equality of shapes and elements, by the equality of floating-point numbers: no NaN equals
itself, and the two zeros are equal. -/
def agrees (a b : Dense) : Except Fault Bool :=
  if a.shape = b.shape then rowsAgree a b a.occupied 0 else .ok false

end LazyMatrix.Dense
