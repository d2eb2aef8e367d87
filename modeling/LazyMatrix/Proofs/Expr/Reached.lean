import LazyMatrix.Proofs.Expr.Arising

/-! Which elements can be read one at a time. Reading checks nothing by itself and fails just where a
leaf fails that it comes to. In a product it comes to the leaves once for every index that it sums
over, so that where there is no such index it finds neither the wildcards below nor that it is outside
of the shape. -/

namespace LazyMatrix

theorem Dense.entry_ok_iff {d : Dense} (wf : d.WellFormed) {r c : Nat} :
    (∃ x, d.entry r c = .ok x) ↔ r < d.shape.rows ∧ c < d.shape.cols := by
  refine ⟨fun ⟨x, read⟩ => ?_, fun ⟨hr, hc⟩ => ⟨_, entry_eq wf hr hc⟩⟩
  by_contra outside
  rw [entry_outside outside] at read
  cases read

theorem addProducts_ok_iff {left right : Nat → Except Fault Float} (todo i : Nat) (sum : Float) :
    (∃ x, addProducts left right todo i sum = .ok x) ↔
      ∀ k, i ≤ k → k < i + todo → (∃ x, left k = .ok x) ∧ ∃ y, right k = .ok y := by
  induction todo generalizing i sum with
  | zero => exact iff_of_true ⟨sum, rfl⟩ fun k _ _ => by omega
  | succ todo ih =>
    constructor
    · rintro ⟨total, ran⟩ k above below
      obtain ⟨x, hx, ran⟩ := bind_eq_ok.1 ran
      obtain ⟨y, hy, ran⟩ := bind_eq_ok.1 ran
      obtain rfl | later := above.eq_or_lt
      · exact ⟨⟨x, hx⟩, y, hy⟩
      · exact (ih (i + 1) _).1 ⟨total, ran⟩ k later (by omega)
    · intro terms
      obtain ⟨⟨x, hx⟩, y, hy⟩ := terms i le_rfl (by omega)
      obtain ⟨total, ran⟩ := (ih (i + 1) (sum + x * y)).2 fun k above below =>
        terms k (by omega) (by omega)
      exact ⟨total, by simp only [addProducts, hx, hy, ok_bind, ran]⟩

namespace Expr

def Readable (e : Expr) (r c : Nat) : Prop := ∃ x, e.entry r c = .ok x

variable {e x l r : Expr} {h i j : Nat}

theorem readable_scale {k : Float} : (unary h (.scale k) x).Readable i j ↔ x.Readable i j := by
  simp [Readable, entry, bind_eq_ok]

theorem readable_elementwise {f : Elementwise} :
    (binary h (.elementwise f) l r).Readable i j ↔ l.Readable i j ∧ r.Readable i j := by
  simp [Readable, entry, bind_eq_ok]

theorem readable_product : (binary h .product l r).Readable i j ↔
    ∀ k < l.shape.cols, l.Readable i k ∧ r.Readable k j := by
  simp [Readable, entry, addProducts_ok_iff]

/-- The leaves that reading comes to: all but those below products that sum over nothing. -/
def reached : Expr → List Leaf
  | .leaf _ x => [x]
  | .unary _ _ x => x.reached
  | .binary _ (.elementwise _) l r => l.reached ++ r.reached
  | .binary _ .product l r => if l.shape.cols = 0 then [] else l.reached ++ r.reached

theorem Readable.of_reached (read : e.Readable i j) :
    ∀ y ∈ e.reached, ∃ m n v, y.entry m n = .ok v := by
  induction e generalizing i j with
  | leaf h y => simpa [reached] using ⟨i, j, read⟩
  | unary h op x ih =>
    cases op with
    | scale k => exact ih (readable_scale.1 read)
    | transpose | async => exact ih read
  | binary h op l r ihl ihr =>
    cases op with
    | elementwise f =>
      obtain ⟨readl, readr⟩ := readable_elementwise.1 read
      exact List.forall_mem_append.2 ⟨ihl readl, ihr readr⟩
    | product =>
      rw [reached]
      split
      · simp
      · next inner =>
        obtain ⟨readl, readr⟩ := readable_product.1 read 0 (Nat.pos_of_ne_zero inner)
        exact List.forall_mem_append.2 ⟨ihl readl, ihr readr⟩

mutual

/-- Some leaf is read in the row that is asked for, and so checks it. -/
def ChecksRow : Expr → Prop
  | .leaf _ _ => True
  | .unary _ (.scale _) x => x.ChecksRow
  | .unary _ .transpose x => x.ChecksCol
  | .unary _ .async x => x.ChecksRow
  | .binary _ (.elementwise _) l r => l.ChecksRow ∨ r.ChecksRow
  | .binary _ .product l _ => l.shape.cols ≠ 0 ∧ l.ChecksRow

def ChecksCol : Expr → Prop
  | .leaf _ _ => True
  | .unary _ (.scale _) x => x.ChecksCol
  | .unary _ .transpose x => x.ChecksRow
  | .unary _ .async x => x.ChecksCol
  | .binary _ (.elementwise _) l r => l.ChecksCol ∨ r.ChecksCol
  | .binary _ .product l r => l.shape.cols ≠ 0 ∧ r.ChecksCol

end

/-- Each index is inside of the shape, if it is checked. -/
def Admits (e : Expr) (i j : Nat) : Prop :=
  (e.ChecksRow → i < e.shape.rows) ∧ (e.ChecksCol → j < e.shape.cols)

theorem admits_transpose : (unary h .transpose x).Admits i j ↔ x.Admits j i := and_comm

theorem admits_elementwise {f : Elementwise} (same : l.shape = r.shape) :
    (binary h (.elementwise f) l r).Admits i j ↔ l.Admits i j ∧ r.Admits i j := by
  simp only [Admits, ChecksRow, ChecksCol, shape_binary, BinaryOp.shape, ← same, or_imp]
  exact and_and_and_comm

theorem admits_product (inner : l.shape.cols = r.shape.rows) :
    (binary h .product l r).Admits i j ↔ ∀ k < l.shape.cols, l.Admits i k ∧ r.Admits k j := by
  constructor
  · rintro ⟨row, col⟩ k hk
    have sums : l.shape.cols ≠ 0 := by omega
    exact ⟨⟨fun checks => row ⟨sums, checks⟩, fun _ => hk⟩,
      fun _ => inner ▸ hk, fun checks => col ⟨sums, checks⟩⟩
  · intro all
    have first (sums : l.shape.cols ≠ 0) := all 0 (Nat.pos_of_ne_zero sums)
    exact ⟨fun ⟨sums, checks⟩ => (first sums).1.1 checks,
      fun ⟨sums, checks⟩ => (first sums).2.2 checks⟩

theorem readable_iff (intact : e.Intact) (valid : e.validate = .ok ()) :
    e.Readable i j ↔ e.Admits i j := by
  induction e generalizing i j with
  | leaf h y =>
    simp only [Admits, ChecksRow, ChecksCol, true_imp_iff]
    cases y with
    | literal d => exact Dense.entry_ok_iff intact
    | future f =>
      obtain ⟨d, outcome⟩ := validate_leaf_eq_ok valid
      obtain ⟨wf, shape⟩ := intact d outcome
      have same : (leaf h (.future f)).entry i j = d.entry i j := by
        simp [entry, Leaf.entry, Promise.entry, Promise.wait, outcome]
      rw [Readable, same, Dense.entry_ok_iff wf, shape]
      rfl
    | wildcard w => cases valid
  | unary h op x ih =>
    cases op with
    | scale k => exact readable_scale.trans (ih intact valid)
    | transpose => exact (ih intact valid).trans admits_transpose.symm
    | async => exact ih intact valid
  | binary h op l r ihl ihr =>
    obtain ⟨validl, validr, agree⟩ := validate_binary.1 valid
    cases op with
    | elementwise f =>
      rw [readable_elementwise, ihl intact.1 validl, ihr intact.2 validr,
        admits_elementwise (BinaryOp.check_elementwise_eq_ok.1 agree)]
    | product =>
      simp only [readable_product, ihl intact.1 validl, ihr intact.2 validr,
        admits_product (BinaryOp.check_product_eq_ok.1 agree)]

def Summing : Expr → Prop
  | .leaf _ _ => True
  | .unary _ _ x => x.Summing
  | .binary _ (.elementwise _) l r => l.Summing ∧ r.Summing
  | .binary _ .product l r => l.shape.cols ≠ 0 ∧ l.Summing ∧ r.Summing

theorem Summing.reached_eq (summing : e.Summing) :
    e.reached = e.leaves ∧ e.ChecksRow ∧ e.ChecksCol := by
  induction e with
  | leaf h y => exact ⟨rfl, trivial, trivial⟩
  | unary h op x ih =>
    obtain ⟨leaves, row, col⟩ := ih summing
    cases op with
    | scale k | async => exact ⟨leaves, row, col⟩
    | transpose => exact ⟨leaves, col, row⟩
  | binary h op l r ihl ihr =>
    cases op with
    | elementwise f =>
      obtain ⟨leavesl, rowl, -⟩ := ihl summing.1
      obtain ⟨leavesr, -, colr⟩ := ihr summing.2
      exact ⟨by rw [reached, leaves, leavesl, leavesr], .inl rowl, .inr colr⟩
    | product =>
      obtain ⟨sums, summingl, summingr⟩ := summing
      obtain ⟨leavesl, rowl, -⟩ := ihl summingl
      obtain ⟨leavesr, -, colr⟩ := ihr summingr
      exact ⟨by rw [reached, if_neg sums, leaves, leavesl, leavesr], ⟨sums, rowl⟩, sums, colr⟩

/-- An element is read only if no wildcard is reached, and of an expression that validates just if
each index is inside of the shape as far as it is checked. If every product sums over something, then
every leaf is reached and both indexes are checked. -/
theorem reads_refuse (e : Expr) (i j : Nat) :
    (e.Readable i j → ∀ w, .wildcard w ∉ e.reached) ∧
    (e.Intact → e.validate = .ok () → (e.Readable i j ↔
      (e.ChecksRow → i < e.shape.rows) ∧ (e.ChecksCol → j < e.shape.cols))) ∧
    (e.Summing → e.reached = e.leaves ∧ e.ChecksRow ∧ e.ChecksCol) := by
  refine ⟨fun read w mem => ?_, fun intact valid => readable_iff intact valid, Summing.reached_eq⟩
  obtain ⟨m, n, v, given⟩ := read.of_reached _ mem
  cases given

theorem paddedProduct_reads_refuse : paddedProduct.Intact ∧ paddedProduct.validate = .ok () ∧
    paddedProduct.Summing ∧ paddedProduct.Readable 0 0 ∧ ¬ paddedProduct.Readable 0 1 ∧
    ∀ w, .wildcard w ∉ paddedProduct.leaves := by
  have intact := paddedProduct_intact
  have summing : paddedProduct.Summing := ⟨by decide, trivial, trivial, trivial⟩
  obtain ⟨wildcards, inside, full⟩ := reads_refuse paddedProduct 0 0
  obtain ⟨all, -, col⟩ := full summing
  have read := (inside intact rfl).2 ⟨fun _ => by decide, fun _ => by decide⟩
  refine ⟨intact, rfl, summing, read, fun outside => ?_, all ▸ wildcards read⟩
  obtain ⟨-, bound⟩ := ((reads_refuse paddedProduct 0 1).2.1 intact rfl).1 outside
  exact absurd (bound col) (by decide)

def emptyProduct : Expr :=
  .binary 2 .product (.leaf 0 (.literal ⟨⟨2, 0⟩, 1, #[]⟩)) (.leaf 1 (.literal ⟨⟨0, 1⟩, 1, #[]⟩))

def wildProduct : Expr :=
  .binary 2 .product (.leaf 0 (.wildcard ⟨0, "?a"⟩)) (.leaf 1 (.wildcard ⟨1, "?b"⟩))

theorem emptyProducts_readable :
    (emptyProduct.Intact ∧ emptyProduct.validate = .ok () ∧ emptyProduct.entry 5 5 = .ok (-0.0) ∧
      ¬ 5 < emptyProduct.shape.rows ∧ ¬ 5 < emptyProduct.shape.cols) ∧
    wildProduct.entry 0 0 = .ok (-0.0) ∧ ¬ wildProduct.Ground := by
  have intact : emptyProduct.Intact := by constructor <;> constructor <;> decide
  exact ⟨⟨intact, rfl, rfl, by decide, by decide⟩, rfl, fun ground => ground.1⟩

end Expr

end LazyMatrix
