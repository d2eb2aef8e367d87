import LazyMatrix.Proofs.Dense.Kernel

/-! Layouts cannot be told apart. Strides, padding and what a buffer holds behind a matrix show in
none of the values that are read from it or computed from it. -/

namespace LazyMatrix.Dense

/-- One matrix, or two well-formed ones that have the same shape and the same elements in whatever
layout. -/
inductive Relaid : Dense → Dense → Prop
  | refl (d : Dense) : Relaid d d
  | layout {a b : Dense} (wf : a.WellFormed) (held : b.Holds a.shape a.element) : Relaid a b

variable {a b c d : Dense}

theorem addRows_congr (rows : b.row = a.row) (p : Nat) (xs : List Float) (out : Array Float) :
    addRows b p xs out = addRows a p xs out := by
  induction xs generalizing p out with
  | nil => rfl
  | cons x xs ih => simp only [addRows, rows, ih]

theorem gemm_congr (shape : b.shape = a.shape) (rows : b.row = a.row) (shape' : d.shape = c.shape)
    (rows' : d.row = c.row) : b.gemm d = a.gemm c := by
  have push (size : Nat) : pushProductRow size b d = pushProductRow size a c := by
    funext out i
    simp only [pushProductRow, rows, shape', addRows_congr rows']
  simp only [gemm, occupied, shape, shape', push]

theorem agrees_congr (shape : b.shape = a.shape) (rows : b.row = a.row) (shape' : d.shape = c.shape)
    (rows' : d.row = c.row) : b.agrees d = a.agrees c := by
  have agree (todo r : Nat) : rowsAgree b d todo r = rowsAgree a c todo r := by
    induction todo generalizing r with
    | zero => rfl
    | succ todo ih => simp only [rowsAgree, rows, rows', ih]
  simp only [agrees, occupied, shape, shape', agree]

namespace Relaid

theorem congr {α : Type} {read : Dense → α} {meaning : Shape → (Nat → Nat → Float) → α}
    (determined : ∀ {d s f}, d.Holds s f → read d = meaning s f) (h : Relaid a b) :
    read b = read a := by
  cases h with
  | refl => rfl
  | layout wf held => rw [determined wf.holds, determined held]

theorem shape_eq (h : Relaid a b) : b.shape = a.shape := h.congr Holds.shape_eq

theorem values_eq (h : Relaid a b) : b.values = a.values := h.congr Holds.values_eq

theorem toArray_eq (h : Relaid a b) : b.toArray = a.toArray := h.congr Holds.toArray_eq

theorem intoArray_eq (h : Relaid a b) : b.intoArray = a.intoArray := h.congr Holds.intoArray_eq

theorem transpose_eq (h : Relaid a b) : b.transpose = a.transpose := h.congr Holds.transpose_eq

theorem row_eq (h : Relaid a b) : b.row = a.row := by
  funext r
  cases h with
  | refl => rfl
  | layout wf held =>
    by_cases hr : r < a.shape.rows
    · rw [wf.holds.row_eq hr, held.row_eq hr]
    · rw [row, row, held.shape_eq, if_pos (Nat.le_of_not_lt hr), if_pos (Nat.le_of_not_lt hr)]

theorem entry_eq (h : Relaid a b) : b.entry = a.entry := by
  funext r c
  cases h with
  | refl => rfl
  | layout wf held =>
    by_cases inside : r < a.shape.rows ∧ c < a.shape.cols
    · rw [wf.holds.entry_eq inside.1 inside.2, held.entry_eq inside.1 inside.2]
    · rw [entry_outside inside, entry_outside (held.shape_eq.symm ▸ inside), held.shape_eq]

theorem gemm_eq (h : Relaid a b) (h' : Relaid c d) : b.gemm d = a.gemm c :=
  gemm_congr h.shape_eq h.row_eq h'.shape_eq h'.row_eq

theorem agrees_eq (h : Relaid a b) (h' : Relaid c d) : b.agrees d = a.agrees c :=
  agrees_congr h.shape_eq h.row_eq h'.shape_eq h'.row_eq

end Relaid

theorem relaid_of_values (wf : a.WellFormed) (wf' : b.WellFormed) (shape : b.shape = a.shape)
    (values : b.values = a.values) : Relaid a b := by
  refine .layout wf ⟨wf', shape, fun r hr c hc => ?_⟩
  have left := a.getElem?_values hr hc
  have right := b.getElem?_values (shape ▸ hr) (shape ▸ hc)
  rw [values, shape, left] at right
  exact (Option.some.inj right).symm

theorem Relaid.sweep (h : Relaid a b) {σ : Type} (f : σ → Float → Float × σ) (s : σ) :
    Relaid (a.sweep f s).dense (b.sweep f s).dense ∧
      (b.sweep f s).state = (a.sweep f s).state ∧ (b.sweep f s).fault = (a.sweep f s).fault := by
  have same := h.values_eq
  cases h with
  | refl => exact ⟨.refl _, rfl, rfl⟩
  | layout wf held =>
    obtain ⟨left, swept, layout, values⟩ := wf.sweep_eq f s
    obtain ⟨right, swept', layout', values'⟩ := held.wellFormed.sweep_eq f s
    rw [same] at swept' values'
    rw [swept, swept']
    refine ⟨?_, rfl, rfl⟩
    apply relaid_of_values (layout.wellFormed wf) (layout'.wellFormed held.wellFormed)
    · rw [layout.shape_eq, layout'.shape_eq, held.shape_eq]
    · rw [values, values']

theorem Relaid.map (h : Relaid a b) (f : Float → Float) :
    Concord Eq Relaid (a.map f) (b.map f) := by
  obtain ⟨dense, -, fault⟩ := h.sweep (fun _ x => (f x, ())) ()
  rw [Dense.map, Dense.map, fault]
  split
  · exact .error rfl
  · exact .ok dense

end LazyMatrix.Dense
