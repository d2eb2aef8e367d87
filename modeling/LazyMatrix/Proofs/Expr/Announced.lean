import LazyMatrix.Proofs.Expr.Denotation

/-! Shapes that are announced. If the futures in an expression have ended in matrices of the shapes
that they announced, whatever the expression comes to has the shape that it announces itself, and a
future started from it ends in a matrix of the shape announced. It need not validate for that. If
all matrices in it are well formed besides, so is the one that it comes to. -/

namespace LazyMatrix

namespace Dense

variable {d d' : Dense}

theorem sweepRows_shape {σ : Type} (f : σ → Float → Float × σ) (todo r : Nat) (s : σ) (d : Dense) :
    (sweepRows f todo r s d).dense.shape = d.shape := by
  induction todo generalizing r s d with
  | zero => rfl
  | succ todo ih =>
    rw [sweepRows]
    split
    · rfl
    · exact ih _ _ _

theorem map_shape {f : Float → Float} (h : d.map f = .ok d') : d'.shape = d.shape := by
  rw [map] at h
  split at h
  · cases h
  · cases h
    exact sweepRows_shape _ _ _ _ _

theorem transpose_shape (h : d.transpose = .ok d') : d'.shape = d.shape.swap := by
  obtain ⟨-, -, h⟩ := bind_eq_ok.1 h
  obtain ⟨data, -, h⟩ := bind_eq_ok.1 h
  cases h
  rfl

theorem gemm_shape {a b : Dense} (h : a.gemm b = .ok d) :
    d.shape = ⟨a.shape.rows, b.shape.cols⟩ := by
  rw [gemm] at h
  split at h
  · cases h
  · obtain ⟨-, -, h⟩ := bind_eq_ok.1 h
    obtain ⟨data, -, h⟩ := bind_eq_ok.1 h
    cases h
    rfl

end Dense

def Promise.Announced (p : Promise) : Prop := ∀ d, p.outcome = .ok d → d.shape = p.shape

def Leaf.Announced : Leaf → Prop
  | .literal _ => True
  | .future f => f.toPromise.Announced
  | .wildcard _ => True

namespace Expr

/-- Every future in the expression ends in a matrix of the shape announced, or fails. -/
def Announced : Expr → Prop
  | .leaf _ x => x.Announced
  | .unary _ _ x => x.Announced
  | .binary _ _ l r => l.Announced ∧ r.Announced

variable {e : Expr}

theorem Intact.announced (intact : e.Intact) : e.Announced := by
  induction e with
  | leaf h x =>
    cases x with
    | future f => exact fun d outcome => (intact d outcome).2
    | literal | wildcard => trivial
  | unary h op x ih => exact ih intact
  | binary h op l r ihl ihr => exact ⟨ihl intact.1, ihr intact.2⟩

theorem shape_of_value (announced : e.Announced) {d : Dense} (value : e.value = .ok d) :
    d.shape = e.shape := by
  induction e generalizing d with
  | leaf h x =>
    cases x with
    | literal d' =>
      cases value
      rfl
    | future f =>
      exact announced d (Promise.outcome_of_wait value)
    | wildcard w => cases value
  | unary h op x ih =>
    cases op with
    | scale k =>
      obtain ⟨dx, below, mapped⟩ := value_scale value
      exact (Dense.map_shape mapped).trans (ih announced below)
    | transpose =>
      obtain ⟨dx, below, swapped⟩ := value_transpose value
      rw [Dense.transpose_shape swapped, ih announced below]
      rfl
    | async => exact ih announced (value_async value)
  | binary h op l r ihl ihr =>
    cases op with
    | elementwise f =>
      obtain ⟨left, right, xs, ys, -, -, -, -, rfl⟩ := value_elementwise value
      rfl
    | product =>
      obtain ⟨dl, dr, valuel, valuer, multiplied⟩ := value_product value
      rw [Dense.gemm_shape multiplied, ihl announced.1 valuel, ihr announced.2 valuer]
      rfl

theorem pending_of_eval {p : Pending} (ran : e.eval = .ok (.pending p)) :
    (∃ h f, e = .leaf h (.future f) ∧ p = f.pending) ∨
      ∃ h x q, e = .unary h .async x ∧ x.promise = .ok q ∧ p = q := by
  cases e with
  | leaf h x =>
    cases x with
    | literal d => cases ran
    | future f =>
      cases ran
      exact .inl ⟨h, f, rfl, rfl⟩
    | wildcard w => cases ran
  | unary h op x =>
    cases op with
    | scale k | transpose =>
      obtain ⟨lit, -, rest⟩ := bind_eq_ok.1 ran
      obtain ⟨d, -, rest⟩ := bind_eq_ok.1 rest
      obtain ⟨result, -, rest⟩ := bind_eq_ok.1 rest
      cases rest
    | async =>
      rw [eval_async] at ran
      obtain ⟨q, made, rest⟩ := bind_eq_ok.1 ran
      cases rest
      exact .inr ⟨h, x, q, rfl, made, rfl⟩
  | binary h op l r =>
    cases op with
    | elementwise f =>
      obtain ⟨left, -, rest⟩ := bind_eq_ok.1 ran
      obtain ⟨right, -, rest⟩ := bind_eq_ok.1 rest
      obtain ⟨ys, -, rest⟩ := bind_eq_ok.1 rest
      obtain ⟨xs, -, rest⟩ := bind_eq_ok.1 rest
      cases rest
    | product =>
      obtain ⟨left, -, rest⟩ := bind_eq_ok.1 ran
      obtain ⟨right, -, rest⟩ := bind_eq_ok.1 rest
      obtain ⟨dl, -, rest⟩ := bind_eq_ok.1 rest
      obtain ⟨dr, -, rest⟩ := bind_eq_ok.1 rest
      obtain ⟨d, -, rest⟩ := bind_eq_ok.1 rest
      cases rest

theorem shape_of_eval (announced : e.Announced) {lit : Literal} (ran : e.eval = .ok lit) :
    lit.shape = e.shape := by
  cases lit with
  | ready d => exact shape_of_value announced (value_eq_ok ran rfl)
  | pending p =>
    obtain ⟨h, f, rfl, rfl⟩ | ⟨h, x, q, rfl, made, rfl⟩ := pending_of_eval ran
    · rfl
    · exact (shape_of_promise made : q.shape = x.shape)

theorem announced_of_promise {p : Promise} (announced : e.Announced) (made : e.promise = .ok p) :
    p.Announced := by
  intro d outcome
  rw [shape_of_promise made, shape_of_value announced ((outcome_eq_ok made).1 outcome).2]

/-- The matrix comes from an operator that lays out its result anew, whether it is scaled in place
after that or handed on from the background. -/
def Built : Expr → Prop
  | .leaf _ _ => False
  | .unary _ .transpose _ => True
  | .unary _ (.scale _) x => x.Built
  | .unary _ .async x => x.Built
  | .binary _ _ _ _ => True

theorem wellFormed_of_value (intact : e.Intact) {d : Dense} (value : e.value = .ok d) :
    d.WellFormed ∧ (e.Built → d.Packed) := by
  induction e generalizing d with
  | leaf h x =>
    refine ⟨?_, False.elim⟩
    cases x with
    | literal d' =>
      cases value
      exact intact
    | future f => exact (intact d (Promise.outcome_of_wait value)).1
    | wildcard w => cases value
  | unary h op x ih =>
    cases op with
    | scale k =>
      obtain ⟨dx, below, mapped⟩ := value_scale value
      obtain ⟨wf, packed⟩ := ih intact below
      obtain ⟨d', mapped', layout, -⟩ := wf.map_eq (· * k)
      obtain rfl : d' = d := Except.ok.inj (mapped'.symm.trans mapped)
      exact ⟨layout.wellFormed wf, fun built => layout.packed (packed built)⟩
    | transpose =>
      obtain ⟨dx, below, swapped⟩ := value_transpose value
      have held := (ih intact below).1.holds
      rw [held.transpose_eq] at swapped
      cases swapped
      have area : dx.shape.swap.area ≤ bufferBound := dx.shape.area_swap ▸ held.area_le
      exact ⟨(Dense.packed_tabulate _ _).wellFormed held.cols_lt held.rows_lt area,
        fun _ => Dense.packed_tabulate _ _⟩
    | async => exact ih intact (value_async value)
  | binary h op l r ihl ihr =>
    cases op with
    | elementwise f =>
      obtain ⟨left, right, xs, ys, ranl, readl, -, -, rfl⟩ := value_elementwise value
      obtain ⟨dl, denoted, valuel⟩ := value_of_intoArray ranl readl
      have held := (ihl intact.1 valuel).1.holds
      have shape := shape_of_value intact.1.announced valuel
      -- the result is stored under the announced shape, so `xs` has to be as long as it says
      have size : xs.size = l.shape.area := by
        rw [Except.ok.inj (readl.symm.trans (Literal.intoArray_eq denoted held)),
          Shape.size_tabulate, shape]
      have packed : (Dense.compact l.shape (Dense.overlay f.apply xs ys)).Packed :=
        Dense.packed_compact (by rw [Dense.size_overlay, size])
      rw [shape] at held
      exact ⟨packed.wellFormed held.rows_lt held.cols_lt held.area_le, fun _ => packed⟩
    | product =>
      obtain ⟨dl, dr, valuel, valuer, multiplied⟩ := value_product value
      have heldl := (ihl intact.1 valuel).1.holds
      have heldr := (ihr intact.2 valuer).1.holds
      obtain ⟨inner, area⟩ := Dense.of_gemm multiplied
      rw [heldl.gemm_eq heldr inner area] at multiplied
      cases multiplied
      exact ⟨(Dense.packed_tabulate _ _).wellFormed heldl.rows_lt heldr.cols_lt area,
        fun _ => Dense.packed_tabulate _ _⟩

theorem kept_of_promise {p : Promise} (intact : e.Intact) (made : e.promise = .ok p) : p.Kept := by
  intro d outcome
  have value := ((outcome_eq_ok made).1 outcome).2
  exact ⟨(wellFormed_of_value intact value).1,
    announced_of_promise intact.announced made d outcome⟩

end Expr

end LazyMatrix
