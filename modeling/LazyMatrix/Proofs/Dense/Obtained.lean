import LazyMatrix.Proofs.Dense.Kernel

/-! The matrices that there are. Every constructor gives well-formed matrices, and whatever changes
a matrix keeps it well formed. So no access to one leaves its buffer, no size computed on the way
is too large, and all accesses read the same elements. -/

namespace LazyMatrix.Dense

variable {d d' : Dense} {shape : Shape} {stride : Nat} {data : Array Float}

theorem wellFormed_of_ofStrided (rows : shape.rows < sizeBound) (below : stride < sizeBound)
    (size : data.size ≤ bufferBound) (made : ofStrided shape stride data = .ok d) :
    d.WellFormed := by
  rw [ofStrided] at made
  by_cases zero : stride = 0
  · simp [zero] at made
  by_cases narrow : stride < shape.cols
  · simp [zero, narrow] at made
  by_cases large : sizeBound ≤ shape.span stride
  · simp [zero, narrow, large] at made
  by_cases short : data.size < shape.span stride
  · simp [zero, narrow, large, short] at made
  rw [if_neg zero, if_neg narrow, if_neg large, if_neg short] at made
  cases made
  exact ⟨rows, below, size, Nat.pos_of_ne_zero zero, Nat.le_of_not_lt narrow,
    Nat.lt_of_not_le large, Nat.le_of_not_lt short⟩

theorem wellFormed_of_ofArray (rows : shape.rows < sizeBound) (cols : shape.cols < sizeBound)
    (size : data.size ≤ bufferBound) (made : ofArray shape data = .ok d) : d.WellFormed :=
  wellFormed_of_ofStrided rows (Nat.max_lt.2 ⟨cols, by decide⟩) size made

theorem toList_of_joinRows {cols row : Nat} {rows : List (Array Float)}
    (joined : joinRows cols row rows = .ok data) : data.toList = rows.flatMap Array.toList := by
  induction rows generalizing row data with
  | nil =>
    cases joined
    rfl
  | cons values rest ih =>
    rw [joinRows] at joined
    split at joined
    · cases joined
    · obtain ⟨below, joinedBelow, result⟩ := bind_eq_ok.1 joined
      cases result
      rw [Array.toList_append, ih joinedBelow, List.flatMap_cons]

theorem wellFormed_of_ofRows {rows : List (Array Float)} (count : rows.length < sizeBound)
    (size : (rows.flatMap Array.toList).length ≤ bufferBound) (made : ofRows rows = .ok d) :
    d.WellFormed := by
  obtain ⟨data, joined, made⟩ := bind_eq_ok.1 made
  have first : (rows.head?.map Array.size).getD 0 ≤ (rows.flatMap Array.toList).length := by
    cases rows <;> simp
  have limit : bufferBound < sizeBound := by decide
  rw [← toList_of_joinRows joined, Array.length_toList] at first size
  exact wellFormed_of_ofArray count (by simp only; omega) size made

theorem packed_of_ofFn {f : Nat → Nat → Float} (made : ofFn shape f = .ok d) :
    d.shape = shape ∧ d.Packed := by
  obtain ⟨-, -, made⟩ := bind_eq_ok.1 made
  cases made
  exact ⟨rfl, packed_compact (Array.size_ofFn)⟩

theorem packed_of_fill {x : Float} (made : fill shape x = .ok d) : d.shape = shape ∧ d.Packed := by
  obtain ⟨-, -, made⟩ := bind_eq_ok.1 made
  cases made
  exact ⟨rfl, packed_compact Array.size_replicate⟩

/-- A new matrix, from sizes and buffers that there can be. Constructors that fill a buffer must find
room for it. -/
inductive Made : Dense → Prop
  | strided {shape : Shape} {stride : Nat} {data : Array Float} {d : Dense}
      (rows : shape.rows < sizeBound) (below : stride < sizeBound) (size : data.size ≤ bufferBound)
      (made : ofStrided shape stride data = .ok d) : Made d
  | array {shape : Shape} {data : Array Float} {d : Dense} (rows : shape.rows < sizeBound)
      (cols : shape.cols < sizeBound) (size : data.size ≤ bufferBound)
      (made : ofArray shape data = .ok d) : Made d
  | rows {rows : List (Array Float)} {d : Dense} (count : rows.length < sizeBound)
      (size : (rows.flatMap Array.toList).length ≤ bufferBound) (made : ofRows rows = .ok d) :
      Made d
  | generated {shape : Shape} {f : Nat → Nat → Float} {d : Dense} (rows : shape.rows < sizeBound)
      (cols : shape.cols < sizeBound) (area : shape.area ≤ bufferBound)
      (made : ofFn shape f = .ok d) : Made d
  | zeros {shape : Shape} {d : Dense} (rows : shape.rows < sizeBound)
      (cols : shape.cols < sizeBound) (area : shape.area ≤ bufferBound)
      (made : zeros shape = .ok d) : Made d
  | ones {shape : Shape} {d : Dense} (rows : shape.rows < sizeBound)
      (cols : shape.cols < sizeBound) (area : shape.area ≤ bufferBound)
      (made : ones shape = .ok d) : Made d
  | identity {n : Nat} {d : Dense} (size : n < sizeBound) (area : n * n ≤ bufferBound)
      (made : identity n = .ok d) : Made d

theorem Made.wellFormed (made : d.Made) : d.WellFormed := by
  cases made with
  | strided rows below size made => exact wellFormed_of_ofStrided rows below size made
  | array rows cols size made => exact wellFormed_of_ofArray rows cols size made
  | rows count size made => exact wellFormed_of_ofRows count size made
  | generated rows cols area made =>
    obtain ⟨rfl, packed⟩ := packed_of_ofFn made
    exact packed.wellFormed rows cols area
  | zeros rows cols area made | ones rows cols area made =>
    obtain ⟨rfl, packed⟩ := packed_of_fill made
    exact packed.wellFormed rows cols area
  | identity size area made =>
    obtain ⟨shape, packed⟩ := packed_of_ofFn made
    exact packed.wellFormed (shape ▸ size) (shape ▸ size) (shape ▸ area)

inductive Change : Dense → Dense → Prop
  | set {d d' : Dense} {r c : Nat} {x : Float} (done : d.set r c x = .ok d') : Change d d'
  | sweep {σ : Type} (d : Dense) (f : σ → Float → Float × σ) (s : σ) :
      Change d (d.sweep f s).dense
  | transpose {d d' : Dense} (done : d.transpose = .ok d') : Change d d'

theorem inside_of_set {r c : Nat} {x : Float} (done : d.set r c x = .ok d') :
    r < d.shape.rows ∧ c < d.shape.cols := by
  obtain ⟨i, found, -⟩ := bind_eq_ok.1 done
  rw [offset] at found
  split at found
  · assumption
  · cases found

theorem Change.wellFormed (change : Change d d') (wf : d.WellFormed) : d'.WellFormed := by
  cases change with
  | @set _ _ r c x done =>
    obtain ⟨hr, hc⟩ := inside_of_set done
    obtain ⟨written, done', layout, -⟩ := wf.set_eq hr hc x
    obtain rfl : written = d' := Except.ok.inj (done'.symm.trans done)
    exact layout.wellFormed wf
  | sweep _ f s =>
    obtain ⟨swept, done, layout, -⟩ := wf.sweep_eq f s
    rw [done]
    exact layout.wellFormed wf
  | transpose done =>
    obtain ⟨transposed, done', held⟩ := wf.holds.transpose
    obtain rfl : transposed = d' := Except.ok.inj (done'.symm.trans done)
    exact held.wellFormed

/-- A new matrix, changed any number of times. A clone is the matrix itself. -/
inductive Obtained : Dense → Prop
  | made {d : Dense} (h : d.Made) : Obtained d
  | changed {d d' : Dense} (h : Obtained d) (change : Change d d') : Obtained d'

theorem Obtained.wellFormed (h : d.Obtained) : d.WellFormed := by
  induction h with
  | made h => exact h.wellFormed
  | changed _ change ih => exact change.wellFormed ih

/-- The arithmetic behind every access: rows do not overlap, the buffer covers the last element, and
the area and the positions of the elements are sizes. -/
structure Addressable (d : Dense) : Prop where
  stride_pos : 1 ≤ d.stride
  cols_le_stride : d.shape.cols ≤ d.stride
  last_lt : 0 < d.shape.rows → 0 < d.shape.cols →
    (d.shape.rows - 1) * d.stride + d.shape.cols < sizeBound
  last_le_size : 0 < d.shape.rows → 0 < d.shape.cols →
    (d.shape.rows - 1) * d.stride + d.shape.cols ≤ d.data.size
  area_lt : d.shape.area < sizeBound
  position_lt : ∀ r < d.shape.rows, ∀ c < d.shape.cols, r * d.stride + c < sizeBound
  position_lt_size : ∀ r < d.shape.rows, ∀ c < d.shape.cols, r * d.stride + c < d.data.size

theorem WellFormed.addressable (wf : d.WellFormed) : d.Addressable where
  stride_pos := wf.stride_pos
  cols_le_stride := wf.cols_le_stride
  last_lt hr hc := wf.row_lt_bound (by omega) hc
  last_le_size hr hc := wf.row_le_size (by omega) hc
  area_lt := lt_sizeBound_of_le wf.holds.area_le
  position_lt r hr c hc := by
    have := wf.row_lt_bound hr (by omega)
    omega
  position_lt_size r hr c hc := by
    have := wf.row_le_size hr (by omega)
    omega

theorem getElem?_rowValues {r c : Nat} (hc : c < d.shape.cols) :
    (d.rowValues r)[c]? = some (d.element r c) := by
  simp [rowValues, hc]

/-- Every access to a matrix that there is succeeds, and each reads the same elements. -/
theorem Obtained.reads_alike (obtained : d.Obtained) :
    d.Addressable ∧
    (∀ {σ : Type} (f : σ → Float → Float × σ) (s : σ), (d.sweep f s).fault = none) ∧
    (∀ other : Dense, other.Obtained → ∃ verdict, d.agrees other = .ok verdict) ∧
    ∃ values transposed, d.toArray = .ok values ∧ d.intoArray = .ok values ∧
      values.size = d.shape.rows * d.shape.cols ∧ d.transpose = .ok transposed ∧
      ∀ r < d.shape.rows, ∃ row, d.row r = .ok row ∧ row.size = d.shape.cols ∧
        ∀ c < d.shape.cols, ∃ x, d.entry r c = .ok x ∧ row[c]? = some x ∧
          values[r * d.shape.cols + c]? = some x ∧ transposed.entry c r = .ok x ∧
          ∀ y, ∃ written, d.set r c y = .ok written ∧ written.entry r c = .ok y := by
  have wf := obtained.wellFormed
  refine ⟨wf.addressable, fun f s => ?_, fun other obtained' => ?_, ?_⟩
  · obtain ⟨swept, done, -⟩ := wf.sweep_eq f s
    rw [done]
  · exact ⟨_, agrees_eq wf obtained'.wellFormed⟩
  · obtain ⟨transposed, done, held⟩ := wf.holds.transpose
    refine ⟨_, transposed, toArray_eq wf, intoArray_eq wf, d.shape.size_tabulate _, done,
      fun r hr => ⟨_, row_eq wf hr, d.length_rowValues r, fun c hc => ?_⟩⟩
    refine ⟨d.element r c, entry_eq wf hr hc, ?_, Shape.getElem?_tabulate _ hr hc,
      held.entry_eq hc hr, fun y => ?_⟩
    · rw [List.getElem?_toArray, getElem?_rowValues hc]
    · obtain ⟨written, done, layout, changed⟩ := wf.set_eq hr hc y
      have read := entry_eq (layout.wellFormed wf) (layout.shape_eq ▸ hr) (layout.shape_eq ▸ hc)
      rw [changed r c hc, if_pos ⟨rfl, rfl⟩] at read
      exact ⟨written, done, read⟩

def paddedSquare : Dense := ⟨⟨2, 2⟩, 3, #[1, 2, 9, 3, 4, 9, 9]⟩

theorem paddedSquare_obtained : paddedSquare.Obtained :=
  .made (@Made.strided ⟨2, 2⟩ 3 #[1, 2, 9, 3, 4, 9, 9] _ (by decide) (by decide) (by decide) rfl)

theorem paddedSquare_reads_alike : paddedSquare.Obtained ∧ paddedSquare.Addressable ∧
    ∃ transposed, paddedSquare.transpose = .ok transposed ∧
      paddedSquare.entry 1 0 = .ok 3 ∧ transposed.entry 0 1 = .ok 3 := by
  have obtained := paddedSquare_obtained
  obtain ⟨addressable, -, -, values, transposed, -, -, -, done, rows⟩ := obtained.reads_alike
  obtain ⟨row, -, -, elements⟩ := rows 1 (by decide)
  obtain ⟨x, read, -, -, swapped, -⟩ := elements 0 (by decide)
  obtain rfl : x = 3 := Except.ok.inj (read.symm.trans rfl)
  exact ⟨obtained, addressable, transposed, done, read, swapped⟩

end LazyMatrix.Dense
