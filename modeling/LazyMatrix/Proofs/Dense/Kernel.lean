import LazyMatrix.Proofs.Dense.InPlace

/-! What operations leave in the elements of a new matrix: an elementwise operator combines those at
the same position, a transpose swaps their indices, and an element of a product is a sum of products
taken in index order. Of these only a product can fault on well-formed matrices, and it does so
exactly if the inner sizes differ or the result exceeds a buffer. -/

namespace LazyMatrix.Dense

variable {d : Dense} {s t : Shape} {f g : Nat → Nat → Float}

theorem overlay_map (h : Float → Float → Float) (n : Nat) (x y : Nat → Float) :
    overlay h ((List.range n).map x).toArray ((List.range n).map y).toArray =
      ((List.range n).map fun i => h (x i) (y i)).toArray := by
  apply Array.ext_getElem?
  intro i
  by_cases hi : i < n <;> simp [overlay, hi]

theorem overlay_tabulate (h : Float → Float → Float) (s : Shape) (f g : Nat → Nat → Float) :
    overlay h (s.tabulate f) (s.tabulate g) = s.tabulate fun r c => h (f r c) (g r c) := by
  apply Shape.eq_tabulate
  · simp
  · intro r hr c hc
    simp [overlay, Shape.getElem?_tabulate _ hr hc]

theorem scatter_eq (width i : Nat) (hi : i < width) (xs : List Float) (j : Nat) (out : Array Float)
    (size : out.size < sizeBound) (inside : (j + xs.length) * width ≤ out.size) :
    ∃ out', scatter width i j xs out = .ok out' ∧ out'.size = out.size ∧
      (∀ k, j ≤ k → k < j + xs.length → out'[k * width + i]? = xs[k - j]?) ∧
      ∀ p, (∀ k, j ≤ k → k < j + xs.length → p ≠ k * width + i) → out'[p]? = out[p]? := by
  induction xs generalizing j out with
  | nil =>
    refine ⟨out, rfl, rfl, fun k hk hk' => ?_, fun p _ => rfl⟩
    simp at hk'
    omega
  | cons x xs ih =>
    simp only [List.length_cons] at inside ⊢
    have room : j * width + i < out.size := by
      have := Nat.mul_le_mul_right width (show j + 1 ≤ j + (xs.length + 1) by omega)
      rw [Nat.succ_mul] at this
      omega
    obtain ⟨out', rest, size', values, others⟩ := ih (j + 1) (out.set (j * width + i) x room)
      (by simpa using size) (by simpa [Nat.add_right_comm, Nat.add_assoc] using inside)
    refine ⟨out', ?_, by simpa using size', fun k hk hk' => ?_, fun p hp => ?_⟩
    · rw [scatter, checkSize_of_lt (by omega), ok_bind, checkSize_of_lt (by omega), ok_bind, put,
        dif_pos room]
      exact rest
    · by_cases first : k = j
      · subst first
        rw [others]
        · simp
        · intro k' hk' _ same
          have := Nat.mul_le_mul_right width (show k + 1 ≤ k' by omega)
          rw [Nat.succ_mul] at this
          omega
      · rw [values k (by omega) (by omega), show k - j = (k - (j + 1)) + 1 by omega,
          List.getElem?_cons_succ]
    · rw [others p fun k hk hk' => hp k (by omega) (by omega)]
      exact Array.getElem?_set_ne room (hp j (by omega) (by omega)).symm

theorem Holds.scatterRow (hd : d.Holds s f) {i : Nat} (hi : i < s.rows) {out : Array Float}
    (size : out.size = s.area)
    (value : ∀ r < i, r < s.rows → ∀ c < s.cols, out[c * s.rows + r]? = some (f r c)) :
    ∃ out', (do scatter s.rows i 0 (← d.row i).toList out) = .ok out' ∧ out'.size = s.area ∧
      ∀ r < i + 1, r < s.rows → ∀ c < s.cols, out'[c * s.rows + r]? = some (f r c) := by
  have bound : s.area < sizeBound := lt_sizeBound_of_le hd.area_le
  obtain ⟨out', scattered, size', new, old⟩ := scatter_eq s.rows i hi
    ((List.range s.cols).map (f i)) 0 out (by omega) (by simp [size, Shape.area, Nat.mul_comm])
  refine ⟨out', by simpa [hd.row_eq hi] using scattered, by omega, ?_⟩
  intro r hr hr' c hc
  by_cases last : r = i
  · subst last
    simpa [hc] using new c (by omega) (by simpa using hc)
  · rw [old]
    · exact value r (by omega) hr' c hc
    · intro k _ _ same
      -- two positions in one row of the result differ in their columns
      apply last
      have := congrArg (· % s.rows) same
      simpa [Nat.mod_eq_of_lt hr', Nat.mod_eq_of_lt hi] using this

theorem Holds.transpose_eq (hd : d.Holds s f) :
    d.transpose = .ok (compact s.swap (s.swap.tabulate fun r c => f c r)) := by
  have area := hd.area_le
  have swapped := s.area_swap
  obtain ⟨out, walk, size, value⟩ := walkRows_ok
    (fun out i => do scatter s.rows i 0 (← d.row i).toList out) d.occupied 0
    (b := Array.replicate s.area (0 : Float))
    (fun i out => out.size = s.area ∧
      ∀ r < i, r < s.rows → ∀ c < s.cols, out[c * s.rows + r]? = some (f r c))
    ⟨by simp, fun r hr => by omega⟩
    (by
      intro i out _ hi ⟨size, value⟩
      have hi : i < s.rows := by
        obtain h | h := occupied_eq d <;> simp [h, hd.shape_eq] at hi
        exact hi
      exact hd.scatterRow hi size value)
  have result : out = s.swap.tabulate fun r c => f c r := by
    apply Shape.eq_tabulate (by omega)
    intro c hc r hr
    apply value r _ hr c hc
    rw [occupied, hd.shape_eq, if_neg (by simp only [Shape.swap_rows] at hc; omega)]
    simpa using hr
  simp only [Dense.transpose, hd.shape_eq, reserve_of_le area, ok_bind]
  rw [walk, ok_bind, result]
  rfl

theorem Holds.transpose (hd : d.Holds s f) :
    ∃ d', d.transpose = .ok d' ∧ d'.Holds s.swap fun r c => f c r := by
  have area : s.swap.area ≤ bufferBound := s.area_swap ▸ hd.area_le
  exact ⟨_, hd.transpose_eq, holds_compact _ hd.cols_lt hd.rows_lt area⟩

theorem addRows_eq (hd : d.Holds s f) (x : Nat → Float) (n p : Nat) (rows : p + n ≤ s.rows)
    (y : Nat → Float) :
    addRows d p ((List.range' p n).map x) ((List.range s.cols).map y).toArray =
      .ok ((List.range s.cols).map fun j =>
        (List.range' p n).foldl (fun sum k => sum + x k * f k j) (y j)).toArray := by
  induction n generalizing p y with
  | zero => rfl
  | succ n ih =>
    simp only [List.range'_succ, List.map_cons, addRows, hd.row_eq (show p < s.rows by omega),
      ok_bind, overlay_map, List.foldl_cons]
    exact ih (p + 1) (by omega) _

theorem pushProductRow_eq {a b : Dense} (ha : a.Holds s f) (hb : b.Holds t g)
    (inner : s.cols = t.rows) (area : s.rows * t.cols < sizeBound) (out : Array Float) {i : Nat}
    (hi : i < s.rows) :
    pushProductRow (s.rows * t.cols) a b out i = .ok (out ++ ((List.range t.cols).map fun c =>
      (List.range s.cols).foldl (fun sum k => sum + f i k * g k c) 0).toArray) := by
  have below := Nat.mul_le_mul_right t.cols (show i + 1 ≤ s.rows by omega)
  have stop : checkStop (s.rows * t.cols) ((i + 1) * t.cols) = .ok () := checkStop_of_le below
  have sums := addRows_eq hb (f i) s.cols 0 (by omega) fun _ => 0
  simp only [List.map_const', List.length_range, List.toArray_replicate,
    ← List.range_eq_range'] at sums
  simp only [pushProductRow, hb.shape_eq, checkSize_of_lt (Nat.lt_of_le_of_lt below area), stop,
    ha.row_eq hi, sums, ok_bind, pure_eq_ok]

theorem Holds.gemm_eq {a b : Dense} (ha : a.Holds s f) (hb : b.Holds t g)
    (inner : s.cols = t.rows) (area : s.rows * t.cols ≤ bufferBound) :
    a.gemm b = .ok (compact ⟨s.rows, t.cols⟩ (Shape.tabulate ⟨s.rows, t.cols⟩ fun r c =>
      (List.range s.cols).foldl (fun sum i => sum + f r i * g i c) 0)) := by
  have bound : s.rows * t.cols < sizeBound := lt_sizeBound_of_le area
  let todo := if t.cols = 0 then a.occupied else s.rows
  have some_rows : todo ≤ s.rows := by
    unfold todo
    split
    · obtain h | h := occupied_eq a <;> simp [h, ha.shape_eq]
    · exact Nat.le_refl _
  have walk := walkRows_append (pushProductRow (s.rows * t.cols) a b) todo t.cols _
    fun i (hi : i < todo) out => pushProductRow_eq ha hb inner bound out (by omega)
  have all_rows : Shape.tabulate ⟨todo, t.cols⟩ = Shape.tabulate ⟨s.rows, t.cols⟩ := by
    funext h
    by_cases hc : t.cols = 0
    · exact Shape.eq_tabulate (by simp [Shape.area, hc]) fun r _ c h => by simp [hc] at h
    · simp [todo, hc]
  rw [all_rows] at walk
  have room : reserve ⟨s.rows, t.cols⟩ = .ok () := reserve_of_le area
  simp only [Dense.gemm, ha.shape_eq, hb.shape_eq, ← inner, room, ne_eq, not_true_eq_false,
    if_false, ok_bind]
  rw [Shape.area, walk]
  rfl

theorem Holds.gemm {a b : Dense} (ha : a.Holds s f) (hb : b.Holds t g) (inner : s.cols = t.rows)
    (area : s.rows * t.cols ≤ bufferBound) :
    ∃ d, a.gemm b = .ok d ∧ d.Holds ⟨s.rows, t.cols⟩ fun r c =>
      (List.range s.cols).foldl (fun sum i => sum + f r i * g i c) 0 :=
  ⟨_, ha.gemm_eq hb inner area, holds_compact _ ha.rows_lt hb.cols_lt area⟩

theorem of_gemm {a b d : Dense} (h : a.gemm b = .ok d) :
    a.shape.cols = b.shape.rows ∧ a.shape.rows * b.shape.cols ≤ bufferBound := by
  rw [gemm] at h
  by_cases inner : a.shape.cols = b.shape.rows
  · rw [if_neg (fun h => h inner)] at h
    obtain ⟨_, room, -⟩ := bind_eq_ok.1 h
    exact ⟨inner, reserve_eq_ok_iff.1 room⟩
  · simp [inner] at h

theorem rowsAgree_eq {a b : Dense} (ha : a.WellFormed) (hb : b.WellFormed)
    (same : a.shape = b.shape) (todo r : Nat) (rows : r + todo ≤ a.shape.rows) :
    rowsAgree a b todo r =
      .ok ((List.range' r todo).all fun i => a.rowValues i == b.rowValues i) := by
  induction todo generalizing r with
  | zero => rfl
  | succ todo ih =>
    have left := row_eq ha (show r < a.shape.rows by omega)
    have right := row_eq hb (show r < b.shape.rows by rw [← same]; omega)
    simp only [rowsAgree, left, right, ok_bind, List.range'_succ, List.all_cons,
      List.beq_toArray, ih (r + 1) (by omega)]
    by_cases equal : (a.rowValues r == b.rowValues r) = true <;> simp [equal]

theorem agrees_eq {a b : Dense} (ha : a.WellFormed) (hb : b.WellFormed) :
    a.agrees b = .ok (decide (a.shape = b.shape) &&
      (List.range a.occupied).all fun i => a.rowValues i == b.rowValues i) := by
  rw [agrees]
  by_cases same : a.shape = b.shape
  · have occupied : a.occupied ≤ a.shape.rows := by
      obtain h | h := occupied_eq a <;> omega
    rw [if_pos same, rowsAgree_eq ha hb same _ _ (by omega), List.range_eq_range']
    simp [same]
  · simp [same]

end LazyMatrix.Dense
