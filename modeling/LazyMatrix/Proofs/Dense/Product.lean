import LazyMatrix.Proofs.Dense.Obtained
import LazyMatrix.Proofs.Float

/-! Products as textbooks have them. An element of a product is the sum of a row times a column,
term by term from zero in the order of the inner index, however the factors are laid out. The two
factors of a term may change places, so the transposes of two matrices, multiplied in the opposite
order, give the transpose of their product, to the bit. -/

namespace LazyMatrix.Dense

/-- The sum of the first `n` products of `x` and `y`, added up in order. -/
def dot (x y : Nat → Float) : (n : Nat) → Float
  | 0 => 0
  | n + 1 => dot x y n + x n * y n

theorem dot_comm (x y : Nat → Float) (n : Nat) : dot x y n = dot y x n := by
  induction n with
  | zero => rfl
  | succ n ih => rw [dot, dot, ih, float_mul_comm]

theorem foldl_eq_dot (x y : Nat → Float) (n : Nat) :
    (List.range n).foldl (fun sum k => sum + x k * y k) 0 = dot x y n := by
  induction n with
  | zero => rfl
  | succ n ih => rw [List.range_succ, List.foldl_append, ih, List.foldl_cons, List.foldl_nil, dot]

variable {a b : Dense} {s t : Shape} {f g : Nat → Nat → Float}

theorem Holds.gemm_eq_dot (ha : a.Holds s f) (hb : b.Holds t g) (inner : s.cols = t.rows)
    (room : s.rows * t.cols ≤ bufferBound) :
    a.gemm b = .ok (compact ⟨s.rows, t.cols⟩ (Shape.tabulate ⟨s.rows, t.cols⟩ fun r c =>
      dot (f r) (fun k => g k c) s.cols)) := by
  simp only [← foldl_eq_dot]
  exact ha.gemm_eq hb inner room

theorem Holds.gemm_dot (ha : a.Holds s f) (hb : b.Holds t g) (inner : s.cols = t.rows)
    (room : s.rows * t.cols ≤ bufferBound) :
    ∃ d, a.gemm b = .ok d ∧ d.Packed ∧
      d.Holds ⟨s.rows, t.cols⟩ fun r c => dot (f r) (fun k => g k c) s.cols :=
  ⟨_, ha.gemm_eq_dot hb inner room, packed_tabulate _ _,
    holds_compact _ ha.rows_lt hb.cols_lt room⟩

theorem Holds.gemm_transposes (ha : a.Holds s f) (hb : b.Holds t g) (inner : s.cols = t.rows)
    (room : s.rows * t.cols ≤ bufferBound) {d : Dense} (product : a.gemm b = .ok d) :
    ∃ a' b' d', a.transpose = .ok a' ∧ b.transpose = .ok b' ∧ d.transpose = .ok d' ∧
      b'.gemm a' = .ok d' := by
  obtain ⟨d₁, product₁, -, held⟩ := ha.gemm_dot hb inner room
  obtain rfl := Except.ok.inj (product₁.symm.trans product)
  obtain ⟨a', transposedA, ha'⟩ := ha.transpose
  obtain ⟨b', transposedB, hb'⟩ := hb.transpose
  have swapped := hb'.gemm_eq_dot ha' inner.symm (by
    rwa [Shape.swap_rows, Shape.swap_cols, Nat.mul_comm])
  have terms (r c : Nat) :
      dot (fun k => g k r) (fun k => f c k) t.rows = dot (f c) (fun k => g k r) s.cols := by
    rw [dot_comm, inner]
  refine ⟨a', b', _, transposedA, transposedB, held.transpose_eq, ?_⟩
  rw [swapped]
  simp only [Shape.swap_cols, terms]
  rfl

/-- Well-formed factors whose product fits into a buffer are multiplied without fail. The product
has its rows behind each other and nothing else, its elements are added up in index order, and its
transpose is the product of the factors' transposes in the opposite order. -/
theorem gemm_index_order (ha : a.WellFormed) (hb : b.WellFormed)
    (inner : a.shape.cols = b.shape.rows) (room : a.shape.rows * b.shape.cols ≤ bufferBound) :
    ∃ d, a.gemm b = .ok d ∧ d.shape = ⟨a.shape.rows, b.shape.cols⟩ ∧ d.Packed ∧
      (∀ i < a.shape.rows, ∀ j < b.shape.cols,
        d.entry i j = .ok (dot (a.element i) (fun k => b.element k j) a.shape.cols)) ∧
      ∃ a' b' d', a.transpose = .ok a' ∧ b.transpose = .ok b' ∧ d.transpose = .ok d' ∧
        b'.gemm a' = .ok d' := by
  obtain ⟨d, product, packed, held⟩ := ha.holds.gemm_dot hb.holds inner room
  refine ⟨d, product, held.shape_eq, packed, fun i hi j hj => held.entry_eq hi hj, ?_⟩
  exact ha.holds.gemm_transposes hb.holds inner room product

def paddedPair : Dense := ⟨⟨2, 1⟩, 3, #[5, 9, 9, 6]⟩

theorem paddedPair_obtained : paddedPair.Obtained :=
  .made (@Made.strided ⟨2, 1⟩ 3 #[5, 9, 9, 6] _ (by decide) (by decide) (by decide) rfl)

theorem paddedSquare_gemm_index_order : paddedSquare.WellFormed ∧ paddedPair.WellFormed ∧
    ∃ d, paddedSquare.gemm paddedPair = .ok d ∧ d.shape = ⟨2, 1⟩ ∧ d.Packed ∧
      d.entry 1 0 = .ok (0 + 3 * 5 + 4 * 6) ∧
      ∃ a b d', paddedSquare.transpose = .ok a ∧ paddedPair.transpose = .ok b ∧
        d.transpose = .ok d' ∧ b.gemm a = .ok d' := by
  have ha := paddedSquare_obtained.wellFormed
  have hb := paddedPair_obtained.wellFormed
  obtain ⟨d, product, shape, packed, elements, transposes⟩ :=
    gemm_index_order ha hb rfl (by decide)
  exact ⟨ha, hb, d, product, shape, packed, elements 1 (by decide) 0 (by decide), transposes⟩

end LazyMatrix.Dense
