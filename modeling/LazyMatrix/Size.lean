/-! Sizes. Row counts, column counts and strides are natural numbers below `2 ^ 64`, and one buffer
holds at most `2 ^ 63 - 1` bytes, eight to an element. A shape is a pair of sizes; it says nothing
about storage. -/

namespace LazyMatrix

def sizeBound : Nat := Nat.pow 2 64

/-- The most elements that one buffer holds. -/
def bufferBound : Nat := (Nat.pow 2 63 - 1) / 8

theorem lt_sizeBound_of_le {n : Nat} (h : n ≤ bufferBound) : n < sizeBound :=
  Nat.lt_of_le_of_lt h (by decide)

structure Shape where
  rows : Nat
  cols : Nat
  deriving DecidableEq, Repr

namespace Shape

def swap (s : Shape) : Shape := ⟨s.cols, s.rows⟩

@[simp] theorem swap_rows (s : Shape) : s.swap.rows = s.cols := rfl

@[simp] theorem swap_cols (s : Shape) : s.swap.cols = s.rows := rfl

@[simp] theorem swap_swap (s : Shape) : s.swap.swap = s := rfl

def area (s : Shape) : Nat := s.rows * s.cols

/-- How many buffer positions a matrix of this shape spans when its rows start `stride` apart. -/
def span (s : Shape) (stride : Nat) : Nat :=
  if s.rows = 0 ∨ s.cols = 0 then 0 else (s.rows - 1) * stride + s.cols

def text (s : Shape) : String := s!"{s.rows}x{s.cols}"

end Shape

end LazyMatrix
