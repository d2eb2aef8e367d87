import LazyMatrix.Dense.Basic
import LazyMatrix.Proofs.Outcome

/-! Elements of a well-formed matrix. Every way to read one (an element at a time, by rows, all of
them at once) gives the same values, whatever the stride and the rest of the buffer, and none of
them faults inside the matrix. -/

namespace LazyMatrix

namespace Shape

def tabulate (s : Shape) (f : Nat → Nat → Float) : Array Float :=
  ((List.range s.rows).flatMap fun r => (List.range s.cols).map (f r)).toArray

theorem tabulate_succ (rows cols : Nat) (f : Nat → Nat → Float) :
    tabulate ⟨rows + 1, cols⟩ f =
      tabulate ⟨rows, cols⟩ f ++ ((List.range cols).map (f rows)).toArray := by
  simp [tabulate, List.range_succ]

@[simp] theorem size_tabulate (s : Shape) (f : Nat → Nat → Float) :
    (s.tabulate f).size = s.area := by
  obtain ⟨rows, cols⟩ := s
  induction rows with
  | zero => simp [tabulate, area]
  | succ rows ih => simp [tabulate_succ, ih, area, Nat.succ_mul]

theorem getElem?_tabulate {s : Shape} {r c : Nat} (f : Nat → Nat → Float) (hr : r < s.rows)
    (hc : c < s.cols) : (s.tabulate f)[r * s.cols + c]? = some (f r c) := by
  obtain ⟨rows, cols⟩ := s
  simp only at hr hc ⊢
  induction rows with
  | zero => omega
  | succ rows ih =>
    rw [tabulate_succ]
    by_cases h : r < rows
    · have below : r * cols + c < rows * cols := by
        have := Nat.mul_le_mul_right cols (show r + 1 ≤ rows by omega)
        rw [Nat.succ_mul] at this
        omega
      rw [Array.getElem?_append_left (by simpa [area] using below)]
      exact ih h
    · have last : r = rows := by omega
      subst last
      rw [Array.getElem?_append_right (by simp [area])]
      simp [area, hc]

theorem area_swap (s : Shape) : s.swap.area = s.area := Nat.mul_comm ..

theorem exists_position {s : Shape} {i : Nat} (hi : i < s.area) :
    ∃ r < s.rows, ∃ c < s.cols, i = r * s.cols + c := by
  have hc : 0 < s.cols := by
    apply Nat.pos_of_ne_zero
    intro h
    simp [area, h] at hi
  refine ⟨i / s.cols, Nat.div_lt_of_lt_mul ?_, i % s.cols, Nat.mod_lt _ hc, ?_⟩
  · rwa [Nat.mul_comm]
  · rw [Nat.mul_comm, Nat.div_add_mod]

theorem eq_tabulate {s : Shape} {data : Array Float} {f : Nat → Nat → Float}
    (size : data.size = s.area)
    (value : ∀ r < s.rows, ∀ c < s.cols, data[r * s.cols + c]? = some (f r c)) :
    data = s.tabulate f := by
  apply Array.ext_getElem?
  intro i
  by_cases hi : i < s.area
  · obtain ⟨r, hr, c, hc, rfl⟩ := exists_position hi
    rw [value r hr c hc, getElem?_tabulate f hr hc]
  · rw [Array.getElem?_eq_none (by omega), Array.getElem?_eq_none (by simp; omega)]

theorem tabulate_congr {s : Shape} {f g : Nat → Nat → Float}
    (h : ∀ r < s.rows, ∀ c < s.cols, f r c = g r c) : s.tabulate f = s.tabulate g :=
  eq_tabulate (by simp) fun r hr c hc => by rw [getElem?_tabulate f hr hc, h r hr c hc]

theorem row_le_span {s : Shape} {r : Nat} (stride : Nat) (hr : r < s.rows) (hc : 0 < s.cols) :
    r * stride + s.cols ≤ s.span stride := by
  have := Nat.mul_le_mul_right stride (show r ≤ s.rows - 1 by omega)
  rw [span, if_neg (by omega)]
  omega

end Shape

namespace Dense

/-- Element `(r, c)`, read without any check. -/
def element (d : Dense) (r c : Nat) : Float := d.data[r * d.stride + c]?.getD 0

/-- A well-formed matrix of this shape with the values of `f`. -/
structure Holds (d : Dense) (s : Shape) (f : Nat → Nat → Float) : Prop where
  wellFormed : d.WellFormed
  shape_eq : d.shape = s
  element_eq : ∀ r < s.rows, ∀ c < s.cols, d.element r c = f r c

theorem WellFormed.holds {d : Dense} (wf : d.WellFormed) : d.Holds d.shape d.element :=
  ⟨wf, rfl, fun _ _ _ _ => rfl⟩

def rowValues (d : Dense) (r : Nat) : List Float := (List.range d.shape.cols).map (d.element r)

@[simp] theorem length_rowValues (d : Dense) (r : Nat) :
    (d.rowValues r).length = d.shape.cols := by simp [rowValues]

def block (d : Dense) (r n : Nat) : List Float := (List.range' r n).flatMap d.rowValues

theorem block_succ (d : Dense) (r n : Nat) :
    d.block r (n + 1) = d.rowValues r ++ d.block (r + 1) n := by
  rw [block, List.range'_succ, List.flatMap_cons]
  rfl

theorem block_congr {d d' : Dense} {r n : Nat}
    (h : ∀ i, r ≤ i → i < r + n → d'.rowValues i = d.rowValues i) : d'.block r n = d.block r n := by
  rw [block, block, List.flatMap, List.flatMap]
  congr 1
  apply List.map_congr_left
  intro i hi
  obtain ⟨above, below⟩ := List.mem_range'_1.1 hi
  exact h i above below

def values (d : Dense) : List Float := d.block 0 d.shape.rows

theorem toArray_values (d : Dense) : d.values.toArray = d.shape.tabulate d.element := by
  rw [values, block, ← List.range_eq_range']
  rfl

theorem getElem?_values (d : Dense) {r c : Nat} (hr : r < d.shape.rows) (hc : c < d.shape.cols) :
    d.values[r * d.shape.cols + c]? = some (d.element r c) := by
  rw [← Shape.getElem?_tabulate d.element hr hc, ← toArray_values, List.getElem?_toArray]

namespace WellFormed

variable {d : Dense} {r c : Nat}

theorem cols_lt (wf : d.WellFormed) : d.shape.cols < sizeBound :=
  Nat.lt_of_le_of_lt wf.cols_le_stride wf.stride_lt

theorem row_le_size (wf : d.WellFormed) (hr : r < d.shape.rows) (hc : 0 < d.shape.cols) :
    r * d.stride + d.shape.cols ≤ d.data.size :=
  Nat.le_trans (Shape.row_le_span d.stride hr hc) wf.span_le_size

theorem row_lt_bound (wf : d.WellFormed) (hr : r < d.shape.rows) (hc : 0 < d.shape.cols) :
    r * d.stride + d.shape.cols < sizeBound :=
  Nat.lt_of_le_of_lt (Shape.row_le_span d.stride hr hc) wf.span_lt

theorem getElem?_data (wf : d.WellFormed) (hr : r < d.shape.rows) (hc : c < d.shape.cols) :
    d.data[r * d.stride + c]? = some (d.element r c) := by
  have := wf.row_le_size hr (by omega)
  have inside : r * d.stride + c < d.data.size := by omega
  simp [element, Array.getElem?_eq_getElem inside]

theorem offset_eq (wf : d.WellFormed) (hr : r < d.shape.rows) (hc : c < d.shape.cols) :
    d.offset r c = .ok (r * d.stride + c) := by
  have := wf.row_lt_bound hr (by omega)
  rw [offset, if_pos ⟨hr, hc⟩, checkSize_of_lt (by omega), ok_bind, checkSize_of_lt (by omega)]

theorem rowSpan_eq (wf : d.WellFormed) (hr : r < d.shape.rows) (hc : 0 < d.shape.cols) :
    d.rowSpan r = .ok (r * d.stride, r * d.stride + d.shape.cols) := by
  have bound := wf.row_lt_bound hr hc
  have size := wf.row_le_size hr hc
  simp only [rowSpan, checkSize_of_lt (show r * d.stride < sizeBound by omega),
    checkSize_of_lt bound, checkStop_of_le size, ok_bind, pure_eq_ok]

theorem extract_row (wf : d.WellFormed) (hr : r < d.shape.rows) (hc : 0 < d.shape.cols) :
    d.data.extract (r * d.stride) (r * d.stride + d.shape.cols) = (d.rowValues r).toArray := by
  have size := wf.row_le_size hr hc
  apply Array.ext_getElem?
  intro c
  by_cases h : c < d.shape.cols
  · rw [Array.getElem?_extract, if_pos (by omega), wf.getElem?_data hr h]
    simp [rowValues, h]
  · rw [Array.getElem?_eq_none (by simp; omega), Array.getElem?_eq_none (by simp; omega)]

end WellFormed

variable {d : Dense} {r c : Nat}

theorem entry_eq (wf : d.WellFormed) (hr : r < d.shape.rows) (hc : c < d.shape.cols) :
    d.entry r c = .ok (d.element r c) := by
  simp [entry, wf.offset_eq hr hc, wf.getElem?_data hr hc]

theorem entry_outside (h : ¬ (r < d.shape.rows ∧ c < d.shape.cols)) :
    d.entry r c = .error (.element r c d.shape) := by
  simp [entry, offset, h]

theorem row_eq (wf : d.WellFormed) (hr : r < d.shape.rows) :
    d.row r = .ok (d.rowValues r).toArray := by
  rw [row, if_neg (by omega)]
  split
  · simp [rowValues, *]
  · have hc : 0 < d.shape.cols := by omega
    rw [wf.rowSpan_eq hr hc, ok_bind]
    exact congrArg Except.ok (wf.extract_row hr hc)

theorem walkRows_ok {β : Type} (visit : β → Nat → Except Fault β) (todo r : Nat) {b : β}
    (inv : Nat → β → Prop) (start : inv r b)
    (step : ∀ i b, r ≤ i → i < r + todo → inv i b → ∃ b', visit b i = .ok b' ∧ inv (i + 1) b') :
    ∃ b', walkRows visit todo r b = .ok b' ∧ inv (r + todo) b' := by
  induction todo generalizing r b with
  | zero => exact ⟨b, rfl, start⟩
  | succ todo ih =>
    obtain ⟨b₁, first, kept⟩ := step r b (by omega) (by omega) start
    obtain ⟨b₂, rest, final⟩ := ih (r + 1) kept fun i b hi ht => step i b (by omega) (by omega)
    refine ⟨b₂, ?_, by simpa [Nat.add_right_comm, Nat.add_assoc] using final⟩
    simpa [walkRows, first] using rest

theorem walkRows_append (visit : Array Float → Nat → Except Fault (Array Float))
    (rows cols : Nat) (f : Nat → Nat → Float)
    (step : ∀ i < rows, ∀ out, visit out i =
      .ok (out ++ ((List.range cols).map (f i)).toArray)) :
    walkRows visit rows 0 #[] = .ok (Shape.tabulate ⟨rows, cols⟩ f) := by
  obtain ⟨out, walk, rfl⟩ := walkRows_ok visit rows 0 (b := #[])
    (fun i out => out = Shape.tabulate ⟨i, cols⟩ f) (by simp [Shape.tabulate])
    (by
      intro i out _ hi h
      exact ⟨_, step i (by omega) out, by rw [h, Shape.tabulate_succ]⟩)
  simpa using walk

theorem occupied_eq (d : Dense) :
    d.occupied = d.shape.rows ∨ d.shape.cols = 0 ∧ d.occupied = 0 := by
  unfold occupied
  split <;> simp_all

theorem area_le_size (wf : d.WellFormed) : d.shape.area ≤ d.data.size := by
  by_cases empty : d.shape.rows = 0 ∨ d.shape.cols = 0
  · obtain h | h := empty <;> simp [Shape.area, h]
  · have last := wf.row_le_size (r := d.shape.rows - 1) (by omega) (by omega)
    have := Nat.mul_le_mul_left (d.shape.rows - 1) wf.cols_le_stride
    calc d.shape.area
      _ = (d.shape.rows - 1) * d.shape.cols + d.shape.cols := by
        rw [← Nat.succ_mul, Nat.succ_eq_add_one, Nat.sub_add_cancel (by omega), Shape.area]
      _ ≤ d.data.size := by omega

theorem extract_area (wf : d.WellFormed) (h : d.isCompact = true) :
    d.data.extract 0 d.shape.area = d.shape.tabulate d.element := by
  have position : ∀ r < d.shape.rows, ∀ c, r * d.stride + c = r * d.shape.cols + c ∨
      d.shape.cols = 0 := by
    intro r hr c
    simp only [isCompact, Bool.or_eq_true, decide_eq_true_eq] at h
    obtain (h | h) | h := h
    · simp [h]
    · simp [show r = 0 by omega]
    · exact .inr h
  have size := area_le_size wf
  apply Shape.eq_tabulate
  · simp [Nat.min_eq_left size]
  · intro r hr c hc
    have inside : r * d.shape.cols + c < d.shape.area := by
      have := Nat.mul_le_mul_right d.shape.cols (show r + 1 ≤ d.shape.rows by omega)
      rw [Nat.succ_mul] at this
      simp only [Shape.area]
      omega
    rw [Array.getElem?_extract, if_pos (by omega), Nat.zero_add]
    rw [← (position r hr c).resolve_right (by omega)]
    exact wf.getElem?_data hr hc

theorem area_le_bound (wf : d.WellFormed) : d.shape.area ≤ bufferBound :=
  Nat.le_trans (area_le_size wf) wf.size_le_bound

theorem checkSize_area (wf : d.WellFormed) :
    checkSize .multiply d.shape.area = .ok d.shape.area :=
  checkSize_of_lt (lt_sizeBound_of_le (area_le_bound wf))

theorem toArray_eq (wf : d.WellFormed) : d.toArray = .ok (d.shape.tabulate d.element) := by
  rw [toArray, checkSize_area wf, ok_bind]
  split
  · next h =>
    rw [checkStop_of_le (area_le_size wf), ok_bind, extract_area wf h]
    rfl
  · have hc : d.shape.cols ≠ 0 := by
      intro h
      simp [isCompact, h] at *
    rw [allocate_of_le (area_le_bound wf), ok_bind, occupied, if_neg hc]
    apply walkRows_append
    intro r hr out
    simp [row_eq wf hr, rowValues]

theorem intoArray_eq (wf : d.WellFormed) : d.intoArray = .ok (d.shape.tabulate d.element) := by
  rw [intoArray]
  split
  · next h =>
    rw [checkSize_area wf, ok_bind, extract_area wf h]
    rfl
  · exact toArray_eq wf

theorem span_compact (s : Shape) : s.span (max s.cols 1) = s.area := by
  unfold Shape.span Shape.area
  split
  · rename_i h
    obtain h | h := h <;> simp [h]
  · rw [Nat.max_eq_left (by omega), ← Nat.succ_mul, Nat.succ_eq_add_one,
      Nat.sub_add_cancel (by omega)]

/-- Rows without padding in a buffer that holds nothing else. -/
structure Packed (d : Dense) : Prop where
  stride_eq : d.stride = max d.shape.cols 1
  size_eq : d.data.size = d.shape.area

theorem packed_compact {s : Shape} {data : Array Float} (size : data.size = s.area) :
    (compact s data).Packed := ⟨rfl, size⟩

theorem packed_tabulate (s : Shape) (f : Nat → Nat → Float) :
    (compact s (s.tabulate f)).Packed := packed_compact (s.size_tabulate f)

theorem Packed.wellFormed (packed : d.Packed) (hr : d.shape.rows < sizeBound)
    (hc : d.shape.cols < sizeBound) (area : d.shape.area ≤ bufferBound) : d.WellFormed where
  rows_lt := hr
  stride_lt := by
    rw [packed.stride_eq]
    exact Nat.max_lt.2 ⟨hc, by decide⟩
  size_le_bound := by rwa [packed.size_eq]
  stride_pos := by
    rw [packed.stride_eq]
    omega
  cols_le_stride := by
    rw [packed.stride_eq]
    exact Nat.le_max_left ..
  span_lt := by
    rw [packed.stride_eq, span_compact]
    exact lt_sizeBound_of_le area
  span_le_size := Nat.le_of_eq (by rw [packed.stride_eq, span_compact, packed.size_eq])

theorem holds_compact {s : Shape} (f : Nat → Nat → Float) (hr : s.rows < sizeBound)
    (hc : s.cols < sizeBound) (area : s.area ≤ bufferBound) :
    (compact s (s.tabulate f)).Holds s f where
  wellFormed := (packed_tabulate s f).wellFormed hr hc area
  shape_eq := rfl
  element_eq r hr c hc := by
    simp [element, compact, Nat.max_eq_left (show 1 ≤ s.cols by omega),
      Shape.getElem?_tabulate f hr hc]

namespace Holds

variable {s : Shape} {f : Nat → Nat → Float}

theorem tabulate_eq (h : d.Holds s f) : d.shape.tabulate d.element = s.tabulate f := by
  rw [h.shape_eq]
  exact Shape.tabulate_congr h.element_eq

theorem values_eq (h : d.Holds s f) : d.values = (s.tabulate f).toList := by
  rw [← h.tabulate_eq, ← toArray_values]

theorem toArray_eq (h : d.Holds s f) : d.toArray = .ok (s.tabulate f) := by
  rw [Dense.toArray_eq h.wellFormed, h.tabulate_eq]

theorem intoArray_eq (h : d.Holds s f) : d.intoArray = .ok (s.tabulate f) := by
  rw [Dense.intoArray_eq h.wellFormed, h.tabulate_eq]

theorem entry_eq (h : d.Holds s f) (hr : r < s.rows) (hc : c < s.cols) :
    d.entry r c = .ok (f r c) := by
  rw [Dense.entry_eq h.wellFormed (h.shape_eq ▸ hr) (h.shape_eq ▸ hc), h.element_eq r hr c hc]

theorem row_eq (h : d.Holds s f) (hr : r < s.rows) :
    d.row r = .ok ((List.range s.cols).map (f r)).toArray := by
  rw [Dense.row_eq h.wellFormed (h.shape_eq ▸ hr), rowValues, h.shape_eq]
  congr 2
  apply List.map_congr_left
  intro c hc
  exact h.element_eq r hr c (List.mem_range.1 hc)

theorem rows_lt (h : d.Holds s f) : s.rows < sizeBound := h.shape_eq ▸ h.wellFormed.rows_lt

theorem cols_lt (h : d.Holds s f) : s.cols < sizeBound := h.shape_eq ▸ h.wellFormed.cols_lt

theorem area_le (h : d.Holds s f) : s.area ≤ bufferBound := by
  rw [← h.shape_eq]
  exact area_le_bound h.wellFormed

end Holds

end Dense

end LazyMatrix
