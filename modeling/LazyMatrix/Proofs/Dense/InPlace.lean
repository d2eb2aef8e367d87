import LazyMatrix.Dense.Kernel
import LazyMatrix.Proofs.Dense.Element

/-! Matrices changed in place. A write changes one element, a sweep visits the elements in row-major
order and a map changes each on its own. All of them keep the shape, the stride and the size of the
buffer, and none of them faults inside of a well-formed matrix. -/

namespace LazyMatrix.Dense

variable {d : Dense} {s : Shape} {f : Nat → Nat → Float}

structure SameLayout (d d' : Dense) : Prop where
  shape_eq : d'.shape = d.shape
  stride_eq : d'.stride = d.stride
  size_eq : d'.data.size = d.data.size

theorem SameLayout.trans {d d' d'' : Dense} (h : SameLayout d d') (h' : SameLayout d' d'') :
    SameLayout d d'' :=
  ⟨h'.shape_eq.trans h.shape_eq, h'.stride_eq.trans h.stride_eq, h'.size_eq.trans h.size_eq⟩

theorem SameLayout.wellFormed {d d' : Dense} (h : SameLayout d d') (wf : d.WellFormed) :
    d'.WellFormed := by
  obtain ⟨shape, stride, data⟩ := d'
  obtain ⟨rfl, rfl, size⟩ := h
  simp only at size
  exact { wf with
    size_le_bound := size ▸ wf.size_le_bound
    span_le_size := size ▸ wf.span_le_size }

theorem SameLayout.packed {d d' : Dense} (h : SameLayout d d') (packed : d.Packed) : d'.Packed :=
  ⟨by rw [h.stride_eq, h.shape_eq, packed.stride_eq],
    by rw [h.size_eq, h.shape_eq, packed.size_eq]⟩

theorem WellFormed.rows_apart (wf : d.WellFormed) {i r c : Nat} (hc : c < d.shape.cols)
    (other : i ≠ r) : ¬ (r * d.stride ≤ i * d.stride + c ∧
      i * d.stride + c < r * d.stride + d.shape.cols) := by
  have := wf.cols_le_stride
  rcases Nat.lt_or_gt_of_ne other with before | behind
  · have := Nat.mul_le_mul_right d.stride (show i + 1 ≤ r by omega)
    rw [Nat.succ_mul] at this
    omega
  · have := Nat.mul_le_mul_right d.stride (show r + 1 ≤ i by omega)
    rw [Nat.succ_mul] at this
    omega

theorem WellFormed.set_eq (wf : d.WellFormed) {r c : Nat} (hr : r < d.shape.rows)
    (hc : c < d.shape.cols) (x : Float) :
    ∃ d', d.set r c x = .ok d' ∧ SameLayout d d' ∧ ∀ i, ∀ j < d.shape.cols,
      d'.element i j = if i = r ∧ j = c then x else d.element i j := by
  have room := wf.row_le_size hr (by omega)
  have inside : r * d.stride + c < d.data.size := by omega
  refine ⟨{ d with data := d.data.set (r * d.stride + c) x inside }, ?_,
    ⟨rfl, rfl, Array.size_set inside⟩, fun i j hj => ?_⟩
  · rw [Dense.set, wf.offset_eq hr hc, ok_bind, put, dif_pos inside]
    rfl
  · simp only [element, Array.getElem?_set]
    by_cases here : i = r ∧ j = c
    · obtain ⟨rfl, rfl⟩ := here
      simp
    · have elsewhere : r * d.stride + c ≠ i * d.stride + j := by
        by_cases row : i = r
        · subst row
          omega
        · have := wf.rows_apart hj row
          omega
      rw [if_neg elsewhere, if_neg here]

section

variable {σ : Type} {r : Nat} {ys : List Float}

/-- What a function that keeps a state makes of values that it visits one after the other, and the
state that it ends in. -/
def visitAll (f : σ → Float → Float × σ) : List Float → σ → List Float × σ
  | [], s => ([], s)
  | x :: xs, s =>
      let (y, s) := f s x
      let (ys, s) := visitAll f xs s
      (y :: ys, s)

theorem length_visitAll (f : σ → Float → Float × σ) (xs : List Float) (s : σ) :
    (visitAll f xs s).1.length = xs.length := by
  induction xs generalizing s with
  | nil => rfl
  | cons x xs ih => simp [visitAll, ih]

theorem visitAll_append (f : σ → Float → Float × σ) (xs ys : List Float) (s : σ) :
    visitAll f (xs ++ ys) s =
      ((visitAll f xs s).1 ++ (visitAll f ys (visitAll f xs s).2).1,
        (visitAll f ys (visitAll f xs s).2).2) := by
  induction xs generalizing s with
  | nil => rfl
  | cons x xs ih => simp [visitAll, ih]

theorem visitAll_stateless (h : Float → Float) (xs : List Float) :
    visitAll (fun _ x => (h x, ())) xs () = (xs.map h, ()) := by
  induction xs with
  | nil => rfl
  | cons x xs ih => simp [visitAll, ih]

theorem mapSpan_append (f : σ → Float → Float × σ) (pre xs post : List Float) (s : σ) :
    mapSpan f xs.length pre.length s (pre ++ xs ++ post).toArray =
      ((pre ++ (visitAll f xs s).1 ++ post).toArray, (visitAll f xs s).2) := by
  induction xs generalizing pre s with
  | nil => rfl
  | cons x xs ih =>
    have inside : pre.length < (pre ++ x :: xs ++ post).toArray.size := by simp
    have here : (pre ++ x :: xs ++ post).toArray[pre.length] = x := by simp
    have next (y : Float) : (pre ++ x :: xs ++ post).toArray.set pre.length y =
        (pre ++ [y] ++ xs ++ post).toArray := by simp
    rw [List.length_cons, mapSpan, dif_pos inside]
    simp only [here, next]
    have rest := ih (pre ++ [(f s x).1]) (f s x).2
    rw [List.length_append, List.length_singleton] at rest
    rw [rest]
    simp [visitAll]

theorem WellFormed.split_row (wf : d.WellFormed) (hr : r < d.shape.rows)
    (hc : 0 < d.shape.cols) :
    (d.data.toList.take (r * d.stride) ++ d.rowValues r ++
      d.data.toList.drop (r * d.stride + d.shape.cols)).toArray = d.data := by
  have row : (d.data.toList.drop (r * d.stride)).take d.shape.cols = d.rowValues r := by
    have values := congrArg Array.toList (wf.extract_row hr hc)
    rwa [Array.toList_extract, List.extract_eq_take_drop, Nat.add_sub_cancel_left] at values
  rw [← row, List.append_assoc, ← List.drop_drop, List.take_append_drop, List.take_append_drop]

def withRow (d : Dense) (r : Nat) (ys : List Float) : Dense :=
  { d with data :=
      (d.data.toList.take (r * d.stride) ++ ys ++
        d.data.toList.drop (r * d.stride + d.shape.cols)).toArray }

theorem WellFormed.sameLayout_withRow (wf : d.WellFormed) (hr : r < d.shape.rows)
    (hc : 0 < d.shape.cols) (length : ys.length = d.shape.cols) :
    SameLayout d (d.withRow r ys) where
  shape_eq := rfl
  stride_eq := rfl
  size_eq := by
    have size := wf.row_le_size hr hc
    simp [withRow, length]
    omega

theorem WellFormed.length_before_row (wf : d.WellFormed) (hr : r < d.shape.rows)
    (hc : 0 < d.shape.cols) : (d.data.toList.take (r * d.stride)).length = r * d.stride := by
  have size := wf.row_le_size hr hc
  rw [List.length_take, Array.length_toList]
  omega

theorem WellFormed.getElem?_withRow (wf : d.WellFormed) (hr : r < d.shape.rows)
    (hc : 0 < d.shape.cols) (length : ys.length = d.shape.cols) (k : Nat) :
    (d.withRow r ys).data[k]? =
      if r * d.stride ≤ k ∧ k < r * d.stride + d.shape.cols then ys[k - r * d.stride]?
      else d.data[k]? := by
  have before := wf.length_before_row hr hc
  rw [withRow, List.getElem?_toArray, ← Array.getElem?_toList]
  by_cases first : k < r * d.stride
  · rw [List.append_assoc, List.getElem?_append_left (by omega), List.getElem?_take_of_lt first,
      if_neg (by omega)]
  by_cases here : k < r * d.stride + d.shape.cols
  · rw [List.getElem?_append_left (by rw [List.length_append]; omega),
      List.getElem?_append_right (by omega), before, if_pos (by omega)]
  · rw [List.getElem?_append_right (by rw [List.length_append]; omega), List.length_append, before,
      length, List.getElem?_drop, Nat.add_sub_cancel' (by omega), if_neg (by omega)]

theorem WellFormed.rowValues_withRow (wf : d.WellFormed) (hr : r < d.shape.rows)
    (hc : 0 < d.shape.cols) (length : ys.length = d.shape.cols) (i : Nat) :
    (d.withRow r ys).rowValues i = if i = r then ys else d.rowValues i := by
  have value := wf.getElem?_withRow hr hc length
  by_cases here : i = r
  · subst here
    rw [if_pos rfl]
    apply List.ext_getElem (by simp [withRow, length])
    intro c hc hc'
    have inside : c < d.shape.cols := by omega
    simp only [rowValues, List.getElem_map, List.getElem_range, element]
    change (d.withRow i ys).data[i * d.stride + c]?.getD 0 = ys[c]
    rw [value, if_pos (by omega), Nat.add_sub_cancel_left]
    simp [hc']
  · rw [if_neg here]
    apply List.map_congr_left
    intro c hc
    have apart := wf.rows_apart (List.mem_range.1 hc) here
    simp only [element]
    change (d.withRow r ys).data[i * d.stride + c]?.getD 0 = d.data[i * d.stride + c]?.getD 0
    rw [value, if_neg apart]

theorem WellFormed.mapSpan_row (wf : d.WellFormed) (hr : r < d.shape.rows)
    (hc : 0 < d.shape.cols) (f : σ → Float → Float × σ) (s : σ) :
    mapSpan f d.shape.cols (r * d.stride) s d.data =
      ((d.withRow r (visitAll f (d.rowValues r) s).1).data, (visitAll f (d.rowValues r) s).2) := by
  have before := wf.length_before_row hr hc
  have span := mapSpan_append f (d.data.toList.take (r * d.stride)) (d.rowValues r)
    (d.data.toList.drop (r * d.stride + d.shape.cols)) s
  rwa [wf.split_row hr hc, before, length_rowValues] at span

theorem WellFormed.sweepRows_succ (wf : d.WellFormed) (hr : r < d.shape.rows)
    (hc : 0 < d.shape.cols) (f : σ → Float → Float × σ) (todo : Nat) (s : σ) :
    sweepRows f (todo + 1) r s d =
      sweepRows f todo (r + 1) (visitAll f (d.rowValues r) s).2
        (d.withRow r (visitAll f (d.rowValues r) s).1) := by
  simp only [sweepRows, wf.rowSpan_eq hr hc, Nat.add_sub_cancel_left, wf.mapSpan_row hr hc f s]
  rfl

/-- The rows swept are replaced by what the function makes of their elements in order, and the other
rows stay. -/
theorem WellFormed.sweepRows_eq (wf : d.WellFormed) (hc : 0 < d.shape.cols)
    (f : σ → Float → Float × σ) (todo r : Nat) (rows : r + todo ≤ d.shape.rows) (s : σ) :
    ∃ d', sweepRows f todo r s d = ⟨d', (visitAll f (d.block r todo) s).2, none⟩ ∧
      SameLayout d d' ∧ d'.block r todo = (visitAll f (d.block r todo) s).1 ∧
      ∀ i, i < r ∨ r + todo ≤ i → d'.rowValues i = d.rowValues i := by
  -- each row is replaced before the next is swept, which then leaves it alone
  induction todo generalizing r s d with
  | zero => exact ⟨d, rfl, ⟨rfl, rfl, rfl⟩, rfl, fun _ _ => rfl⟩
  | succ todo ih =>
    have hr : r < d.shape.rows := by omega
    have step := wf.sweepRows_succ hr hc f todo s
    have length : (visitAll f (d.rowValues r) s).1.length = d.shape.cols := by
      rw [length_visitAll, length_rowValues]
    rw [block_succ, visitAll_append]
    generalize visitAll f (d.rowValues r) s = done at step length ⊢
    obtain ⟨ys, s'⟩ := done
    have layout := wf.sameLayout_withRow hr hc length
    have row := wf.rowValues_withRow hr hc length
    have below : (d.withRow r ys).block (r + 1) todo = d.block (r + 1) todo :=
      block_congr fun i hi _ => by rw [row, if_neg (by omega)]
    obtain ⟨d', swept, layout', changed, others⟩ :=
      ih (layout.wellFormed wf) hc (r + 1) (by change r + 1 + todo ≤ d.shape.rows; omega) s'
    rw [below] at swept changed
    refine ⟨d', step.trans swept, layout.trans layout', ?_, ?_⟩
    · rw [block_succ, changed, others r (by omega), row, if_pos rfl]
    · intro i hi
      rw [others i (by omega), row, if_neg (by omega)]

theorem WellFormed.sweep_eq (wf : d.WellFormed) (f : σ → Float → Float × σ) (s : σ) :
    ∃ d', d.sweep f s = ⟨d', (visitAll f d.values s).2, none⟩ ∧ SameLayout d d' ∧
      d'.values = (visitAll f d.values s).1 := by
  by_cases hc : d.shape.cols = 0
  · have nothing : d.values = [] := by simp [values, block, rowValues, hc]
    rw [nothing]
    exact ⟨d, by simp [sweep, occupied, hc, sweepRows, visitAll], ⟨rfl, rfl, rfl⟩, nothing⟩
  · obtain ⟨d', swept, layout, changed, -⟩ :=
      wf.sweepRows_eq (by omega) f d.shape.rows 0 (by omega) s
    refine ⟨d', by simpa [sweep, occupied, hc, values] using swept, layout, ?_⟩
    rw [values, layout.shape_eq]
    exact changed

theorem WellFormed.toArray_sweep (wf : d.WellFormed) (f : σ → Float → Float × σ) (s : σ) :
    ∃ d', d.sweep f s = ⟨d', (visitAll f d.values s).2, none⟩ ∧
      d'.toArray = .ok (visitAll f d.values s).1.toArray := by
  obtain ⟨d', swept, layout, changed⟩ := wf.sweep_eq f s
  refine ⟨d', swept, ?_⟩
  rw [toArray_eq (layout.wellFormed wf), ← toArray_values, changed]

end

theorem WellFormed.map_eq (wf : d.WellFormed) (h : Float → Float) :
    ∃ d', d.map h = .ok d' ∧ SameLayout d d' ∧ d'.values = d.values.map h := by
  obtain ⟨d', swept, layout, changed⟩ := wf.sweep_eq (fun _ x => (h x, ())) ()
  rw [visitAll_stateless] at changed
  exact ⟨d', by rw [Dense.map, swept], layout, changed⟩

theorem Holds.map (hd : d.Holds s f) (h : Float → Float) :
    ∃ d', d.map h = .ok d' ∧ d'.Holds s fun r c => h (f r c) := by
  obtain ⟨wf, rfl, value⟩ := hd
  obtain ⟨d', mapped, layout, changed⟩ := wf.map_eq h
  refine ⟨d', mapped, layout.wellFormed wf, layout.shape_eq, fun r hr c hc => ?_⟩
  have before := d.getElem?_values hr hc
  have after := d'.getElem?_values (layout.shape_eq ▸ hr) (layout.shape_eq ▸ hc)
  rw [changed, layout.shape_eq, List.getElem?_map, before, value r hr c hc] at after
  simpa using after.symm

end LazyMatrix.Dense
