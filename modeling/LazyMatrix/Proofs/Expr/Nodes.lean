import LazyMatrix.Expr.Build
import Mathlib.Data.Set.Function

/-! The nodes there are. A handle belongs to one node at most, and every handle is below the next
free one, so a node that is built differs from all that were there before. -/

namespace LazyMatrix

/-- What can be said of the nodes that exist when `next` is the next free handle. -/
structure Extant (nodes : Set Expr) (next : Nat) : Prop where
  operand_mem : ∀ x ∈ nodes, ∀ y ∈ x.operands, y ∈ nodes
  handle_injOn : nodes.InjOn Expr.handle
  handle_lt : ∀ x ∈ nodes, x.handle < next

theorem extant_empty (next : Nat) : Extant ∅ next := ⟨by simp, by simp, by simp⟩

namespace Extant

variable {nodes : Set Expr} {next : Nat}

theorem eq_of_same (h : Extant nodes next) {x y : Expr} (hx : x ∈ nodes) (hy : y ∈ nodes)
    (same : x.same y = true) : x = y :=
  h.handle_injOn hx hy (by simpa [Expr.same] using same)

theorem mono (h : Extant nodes next) {more : Nat} (le : next ≤ more) : Extant nodes more :=
  ⟨h.operand_mem, h.handle_injOn, fun x hx => (h.handle_lt x hx).trans_le le⟩

theorem insert (h : Extant nodes next) {x : Expr} (fresh : x.handle = next)
    (operands : ∀ y ∈ x.operands, y ∈ nodes) : Extant (insert x nodes) (next + 1) := by
  have new : x ∉ nodes := fun hx => by
    have := h.handle_lt x hx
    omega
  refine ⟨?_, ?_, ?_⟩
  · rintro y (rfl | hy) z hz
    · exact .inr (operands z hz)
    · exact .inr (h.operand_mem y hy z hz)
  · refine (Set.injOn_insert new).2 ⟨h.handle_injOn, ?_⟩
    rintro ⟨y, hy, same⟩
    have := h.handle_lt y hy
    omega
  · rintro y (rfl | hy)
    · omega
    · have := h.handle_lt y hy
      omega

theorem unary_mem (h : Extant nodes next) {i : Nat} {op : UnaryOp} {x : Expr}
    (hx : .unary i op x ∈ nodes) : x ∈ nodes :=
  h.operand_mem _ hx x (by simp [Expr.operands])

theorem binary_mem (h : Extant nodes next) {i : Nat} {op : BinaryOp} {l r : Expr}
    (hx : .binary i op l r ∈ nodes) : l ∈ nodes ∧ r ∈ nodes :=
  ⟨h.operand_mem _ hx l (by simp [Expr.operands]), h.operand_mem _ hx r (by simp [Expr.operands])⟩

end Extant

end LazyMatrix
