import LazyMatrix.Expr.Entry
import LazyMatrix.Expr.Eval
import LazyMatrix.Proofs.Dense.Kernel
import LazyMatrix.Proofs.Expr.Wildcards

/-! The values of expressions. `den z` is what a tree means, element by element, with the order of
every sum fixed and `z` as the value that products start from. Evaluation computes `den 0` and
reading one element computes `den (-0.0)`; of an expression that validates, neither can fail,
except that an evaluation fails when a product exceeds a buffer. -/

namespace LazyMatrix

def Promise.Kept (p : Promise) : Prop := ∀ d, p.outcome = .ok d → d.WellFormed ∧ d.shape = p.shape

def Leaf.Intact : Leaf → Prop
  | .literal d => d.WellFormed
  | .future f => f.toPromise.Kept
  | .wildcard _ => True

def Leaf.element : Leaf → Nat → Nat → Float
  | .literal d, r, c => d.element r c
  | .future f, r, c => match f.outcome with
    | .ok d => d.element r c
    | .error _ => 0
  | .wildcard _, _, _ => 0

theorem BinaryOp.check_elementwise_eq_ok {f : Elementwise} {l r : Shape} :
    (BinaryOp.elementwise f).check l r = .ok () ↔ l = r := by
  by_cases h : l = r <;> simp [BinaryOp.check, h]

theorem BinaryOp.check_product_eq_ok {l r : Shape} :
    BinaryOp.product.check l r = .ok () ↔ l.cols = r.rows := by
  by_cases h : l.cols = r.rows <;> simp [BinaryOp.check, h]

namespace Expr

/-- Every leaf is intact. -/
def Intact : Expr → Prop
  | .leaf _ x => x.Intact
  | .unary _ _ x => x.Intact
  | .binary _ _ l r => l.Intact ∧ r.Intact

theorem Intact.operands {e : Expr} (intact : e.Intact) : ∀ x ∈ e.operands, x.Intact := by
  cases e with
  | leaf => simp [Expr.operands]
  | unary h op x => simpa [Expr.operands, Intact] using intact
  | binary h op l r => simpa [Expr.operands, Intact] using intact

/-- The result of every product has room in a buffer. -/
def Fits : Expr → Prop
  | .leaf _ _ => True
  | .unary _ _ x => x.Fits
  | .binary _ (.elementwise _) l r => l.Fits ∧ r.Fits
  | .binary _ .product l r => l.Fits ∧ r.Fits ∧ l.shape.rows * r.shape.cols ≤ bufferBound

/-- What the expression means at `(r, c)`. Products are added up from `z` in index order. -/
def den (z : Float) : Expr → Nat → Nat → Float
  | .leaf _ x, r, c => x.element r c
  | .unary _ (.scale k) x, r, c => x.den z r c * k
  | .unary _ .transpose x, r, c => x.den z c r
  | .unary _ .async x, r, c => x.den z r c
  | .binary _ (.elementwise f) a b, r, c => f.apply (a.den z r c) (b.den z r c)
  | .binary _ .product a b, r, c =>
      (List.range a.shape.cols).foldl (fun sum i => sum + a.den z r i * b.den z i c) z

def value (e : Expr) : Except Fault Dense := e.eval >>= Literal.dense

theorem validate_binary {h : Nat} {op : BinaryOp} {l r : Expr} :
    (binary h op l r).validate = .ok () ↔
      l.validate = .ok () ∧ r.validate = .ok () ∧ op.check l.shape r.shape = .ok () := by
  rw [validate]
  cases l.validate <;> cases r.validate <;> simp

theorem validate_leaf_eq_ok {h : Nat} {f : Future}
    (valid : (leaf h (.future f)).validate = .ok ()) : ∃ d, f.outcome = .ok d := by
  cases outcome : f.outcome with
  | ok d => exact ⟨d, rfl⟩
  | error e => simp [validate, Leaf.validate, Promise.validate, outcome] at valid

theorem Ground.no_fault {e : Expr} (ground : e.Ground) (fault : Fault) :
    e.validate ≠ .error (.fault fault) := by
  induction e with
  | leaf h x =>
    cases x with
    | literal d => simp [validate, Leaf.validate]
    | future f =>
      simp only [validate, Leaf.validate]
      cases f.validate <;> simp
    | wildcard w => exact ground.elim
  | unary h op x ih => exact ih ground
  | binary h op l r ihl ihr =>
    have left := ihl ground.1
    have right := ihr ground.2
    rw [validate]
    cases hl : l.validate with
    | error stop => simpa [hl] using left
    | ok _ =>
      cases hr : r.validate with
      | error stop => simpa [hr] using right
      | ok _ => cases h : op.check l.shape r.shape <;> simp

end Expr

theorem Literal.intoArray_eq {lit : Literal} {d : Dense} {s : Shape} {f : Nat → Nat → Float}
    (h : lit.dense = .ok d) (hd : d.Holds s f) : lit.intoArray = .ok (s.tabulate f) := by
  cases lit with
  | ready d' =>
    obtain rfl : d' = d := Except.ok.inj h
    exact hd.intoArray_eq
  | pending p =>
    have read : p.wait = .ok d := h
    simp [intoArray, Promise.toArray, read, hd.toArray_eq]

theorem Promise.outcome_of_wait {p : Promise} {d : Dense} (read : p.wait = .ok d) :
    p.outcome = .ok d := by
  rw [wait] at read
  split at read
  · next outcome =>
    cases read
    exact outcome
  · cases read

namespace Expr

variable {e : Expr}

theorem eval_async (h : Nat) (x : Expr) :
    (unary h .async x).eval = (do return .pending (← x.promise)) := rfl

theorem value_eq_ok {lit : Literal} {d : Dense} (ran : e.eval = .ok lit)
    (read : lit.dense = .ok d) : e.value = .ok d := by simp [value, ran, read]

theorem outcome_eq_ok {x : Expr} {p : Promise} {d : Dense} (made : x.promise = .ok p) :
    p.outcome = .ok d ↔ x.validate = .ok () ∧ x.value = .ok d := by
  simp only [promise, promiseBy] at made
  split at made
  · cases made
  · cases made
    cases valid : x.validate with
    | error stop => simp
    | ok _ => simp [value, bind]

theorem value_of_intoArray {lit : Literal} {a : Array Float} (ran : e.eval = .ok lit)
    (h : lit.intoArray = .ok a) : ∃ d, lit.dense = .ok d ∧ e.value = .ok d := by
  cases lit with
  | ready d => exact ⟨d, rfl, value_eq_ok ran rfl⟩
  | pending p =>
    obtain ⟨d, read, -⟩ := bind_eq_ok.1 h
    exact ⟨d, read, value_eq_ok ran read⟩

section

variable {h : Nat} {x l r : Expr} {d : Dense}

theorem value_scale {k : Float} (value : (unary h (.scale k) x).value = .ok d) :
    ∃ dx, x.value = .ok dx ∧ dx.map (· * k) = .ok d := by
  obtain ⟨lit, ran, read⟩ := bind_eq_ok.1 value
  obtain ⟨below, ranx, rest⟩ := bind_eq_ok.1 ran
  obtain ⟨dx, readx, rest⟩ := bind_eq_ok.1 rest
  obtain ⟨scaled, mapped, rest⟩ := bind_eq_ok.1 rest
  cases rest
  cases read
  exact ⟨dx, value_eq_ok ranx readx, mapped⟩

theorem value_transpose (value : (unary h .transpose x).value = .ok d) :
    ∃ dx, x.value = .ok dx ∧ dx.transpose = .ok d := by
  obtain ⟨lit, ran, read⟩ := bind_eq_ok.1 value
  obtain ⟨below, ranx, rest⟩ := bind_eq_ok.1 ran
  obtain ⟨dx, readx, rest⟩ := bind_eq_ok.1 rest
  obtain ⟨flipped, swapped, rest⟩ := bind_eq_ok.1 rest
  cases rest
  cases read
  exact ⟨dx, value_eq_ok ranx readx, swapped⟩

theorem value_async (value : (unary h .async x).value = .ok d) : x.value = .ok d := by
  obtain ⟨lit, ran, read⟩ := bind_eq_ok.1 value
  rw [eval_async] at ran
  obtain ⟨p, made, rest⟩ := bind_eq_ok.1 ran
  cases rest
  exact ((outcome_eq_ok made).1 (Promise.outcome_of_wait read)).2

theorem value_elementwise {f : Elementwise}
    (value : (binary h (.elementwise f) l r).value = .ok d) :
    ∃ left right xs ys, l.eval = .ok left ∧ left.intoArray = .ok xs ∧ r.eval = .ok right ∧
      right.intoArray = .ok ys ∧ d = .compact l.shape (Dense.overlay f.apply xs ys) := by
  obtain ⟨lit, ran, read⟩ := bind_eq_ok.1 value
  obtain ⟨left, ranl, rest⟩ := bind_eq_ok.1 ran
  obtain ⟨right, ranr, rest⟩ := bind_eq_ok.1 rest
  obtain ⟨ys, readr, rest⟩ := bind_eq_ok.1 rest
  obtain ⟨xs, readl, rest⟩ := bind_eq_ok.1 rest
  cases rest
  cases read
  exact ⟨left, right, xs, ys, ranl, readl, ranr, readr, rfl⟩

theorem value_product (value : (binary h .product l r).value = .ok d) :
    ∃ dl dr, l.value = .ok dl ∧ r.value = .ok dr ∧ dl.gemm dr = .ok d := by
  obtain ⟨lit, ran, read⟩ := bind_eq_ok.1 value
  obtain ⟨left, ranl, rest⟩ := bind_eq_ok.1 ran
  obtain ⟨right, ranr, rest⟩ := bind_eq_ok.1 rest
  obtain ⟨dl, readl, rest⟩ := bind_eq_ok.1 rest
  obtain ⟨dr, readr, rest⟩ := bind_eq_ok.1 rest
  obtain ⟨product, multiplied, rest⟩ := bind_eq_ok.1 rest
  cases rest
  cases read
  exact ⟨dl, dr, value_eq_ok ranl readl, value_eq_ok ranr readr, multiplied⟩

end

theorem shape_of_promise {x : Expr} {p : Promise} (made : x.promise = .ok p) :
    p.shape = x.shape := by
  rw [promise, promiseBy] at made
  split at made
  · cases made
  · cases made
    rfl

theorem promise_eq {x : Expr} (ground : x.Ground) : ∃ p, x.promise = .ok p ∧ p.shape = x.shape := by
  have none := firstWildcard?_eq_none_iff.2 ground
  exact ⟨_, by rw [promise, promiseBy, none], rfl⟩

theorem eval_ok (intact : e.Intact) (ground : e.Ground) (valid : e.validate = .ok ())
    (fits : e.Fits) : ∃ lit d, e.eval = .ok lit ∧ lit.shape = e.shape ∧ lit.dense = .ok d ∧
      d.Holds e.shape (e.den 0) := by
  induction e with
  | leaf h x =>
    cases x with
    | literal d => exact ⟨.ready d, d, rfl, rfl, rfl, Dense.WellFormed.holds intact⟩
    | future f =>
      obtain ⟨d, outcome⟩ := validate_leaf_eq_ok valid
      obtain ⟨wf, shape⟩ := intact d outcome
      refine ⟨.pending f.pending, d, rfl, rfl, by simp [Literal.dense, Promise.wait, outcome], wf,
        shape, fun r _ c _ => ?_⟩
      simp [den, Leaf.element, outcome]
    | wildcard w => exact ground.elim
  | unary h op x ih =>
    obtain ⟨lit, d, ran, -, read, held⟩ := ih intact ground valid fits
    cases op with
    | scale k =>
      obtain ⟨d', mapped, held'⟩ := held.map (· * k)
      exact ⟨.ready d', d', by simp [eval, ran, read, mapped], held'.shape_eq, rfl, held'⟩
    | transpose =>
      obtain ⟨d', swapped, held'⟩ := held.transpose
      exact ⟨.ready d', d', by simp [eval, ran, read, swapped], held'.shape_eq, rfl, held'⟩
    | async =>
      obtain ⟨p, made, shape⟩ := promise_eq (x := x) ground
      have outcome := (outcome_eq_ok made).2 ⟨valid, value_eq_ok ran read⟩
      exact ⟨.pending p, d, by simp [eval_async, made], shape,
        by simp [Literal.dense, Promise.wait, outcome], held⟩
  | binary h op l r ihl ihr =>
    obtain ⟨validl, validr, agree⟩ := validate_binary.1 valid
    cases op with
    | elementwise f =>
      obtain ⟨litl, dl, ranl, -, readl, heldl⟩ := ihl intact.1 ground.1 validl fits.1
      obtain ⟨litr, dr, ranr, -, readr, heldr⟩ := ihr intact.2 ground.2 validr fits.2
      have same := BinaryOp.check_elementwise_eq_ok.1 agree
      rw [← same] at heldr
      refine ⟨.ready _, _, ?_, rfl, rfl,
        Dense.holds_compact _ heldl.rows_lt heldl.cols_lt heldl.area_le⟩
      simp only [eval, ranl, ranr, combine, Literal.intoArray_eq readl heldl,
        Literal.intoArray_eq readr heldr, Dense.overlay_tabulate, ok_bind]
      rfl
    | product =>
      obtain ⟨litl, dl, ranl, -, readl, heldl⟩ := ihl intact.1 ground.1 validl fits.1
      obtain ⟨litr, dr, ranr, -, readr, heldr⟩ := ihr intact.2 ground.2 validr fits.2.1
      have inner := BinaryOp.check_product_eq_ok.1 agree
      obtain ⟨d, product, held⟩ := heldl.gemm heldr inner fits.2.2
      exact ⟨.ready d, d, by simp [eval, ranl, ranr, readl, readr, product], held.shape_eq, rfl,
        held⟩

theorem value_ok (intact : e.Intact) (ground : e.Ground) (valid : e.validate = .ok ())
    (fits : e.Fits) : ∃ d, e.value = .ok d ∧ d.Holds e.shape (e.den 0) := by
  obtain ⟨lit, d, ran, -, read, held⟩ := eval_ok intact ground valid fits
  exact ⟨d, by simp [value, ran, read], held⟩

theorem holds_of_value {d : Dense} (intact : e.Intact) (ground : e.Ground)
    (valid : e.validate = .ok ()) (fits : e.Fits) (h : e.value = .ok d) :
    d.Holds e.shape (e.den 0) := by
  obtain ⟨d', same, held⟩ := value_ok intact ground valid fits
  obtain rfl : d' = d := Except.ok.inj (same.symm.trans h)
  exact held

theorem fits_of_value {d : Dense} (intact : e.Intact) (ground : e.Ground)
    (valid : e.validate = .ok ()) (h : e.value = .ok d) : e.Fits := by
  induction e generalizing d with
  | leaf i x => trivial
  | unary i op x ih =>
    cases op with
    | scale k =>
      obtain ⟨dx, value, -⟩ := value_scale h
      exact ih intact ground valid value
    | transpose =>
      obtain ⟨dx, value, -⟩ := value_transpose h
      exact ih intact ground valid value
    | async => exact ih intact ground valid (value_async h)
  | binary i op l r ihl ihr =>
    obtain ⟨validl, validr, agree⟩ := validate_binary.1 valid
    cases op with
    | elementwise f =>
      obtain ⟨left, right, xs, ys, ranl, readl, ranr, readr, -⟩ := value_elementwise h
      obtain ⟨dl, -, valuel⟩ := value_of_intoArray ranl readl
      obtain ⟨dr, -, valuer⟩ := value_of_intoArray ranr readr
      exact ⟨ihl intact.1 ground.1 validl valuel, ihr intact.2 ground.2 validr valuer⟩
    | product =>
      obtain ⟨dl, dr, valuel, valuer, multiplied⟩ := value_product h
      have fitsl := ihl intact.1 ground.1 validl valuel
      have fitsr := ihr intact.2 ground.2 validr valuer
      refine ⟨fitsl, fitsr, ?_⟩
      have heldl := holds_of_value intact.1 ground.1 validl fitsl valuel
      have heldr := holds_of_value intact.2 ground.2 validr fitsr valuer
      have area := (Dense.of_gemm multiplied).2
      rwa [heldl.shape_eq, heldr.shape_eq] at area

/-- An expression that validates can be evaluated just if its products fit. -/
theorem exists_value_iff (intact : e.Intact) (ground : e.Ground) (valid : e.validate = .ok ()) :
    (∃ d, e.value = .ok d) ↔ e.Fits :=
  ⟨fun ⟨_, h⟩ => fits_of_value intact ground valid h,
    fun fits => (value_ok intact ground valid fits).imp fun _ h => h.1⟩

theorem addProducts_eq {left right : Nat → Except Fault Float} {f g : Nat → Float} (todo i : Nat)
    (hl : ∀ k < i + todo, left k = .ok (f k)) (hr : ∀ k < i + todo, right k = .ok (g k))
    (sum : Float) : addProducts left right todo i sum =
      .ok ((List.range' i todo).foldl (fun sum k => sum + f k * g k) sum) := by
  induction todo generalizing i sum with
  | zero => rfl
  | succ todo ih =>
    simp only [addProducts, hl i (by omega), hr i (by omega), ok_bind, List.range'_succ,
      List.foldl_cons]
    exact ih (i + 1) (fun k hk => hl k (by omega)) (fun k hk => hr k (by omega)) _

theorem entry_ok (intact : e.Intact) (ground : e.Ground) (valid : e.validate = .ok ()) {r c : Nat}
    (hr : r < e.shape.rows) (hc : c < e.shape.cols) : e.entry r c = .ok (e.den (-0.0) r c) := by
  induction e generalizing r c with
  | leaf h x =>
    cases x with
    | literal d => exact Dense.entry_eq intact hr hc
    | future f =>
      obtain ⟨d, outcome⟩ := validate_leaf_eq_ok valid
      obtain ⟨wf, shape⟩ := intact d outcome
      have read := Dense.entry_eq wf (shape ▸ hr : r < d.shape.rows) (shape ▸ hc : c < d.shape.cols)
      simp [entry, Leaf.entry, Promise.entry, Promise.wait, den, Leaf.element, outcome, read]
    | wildcard w => exact ground.elim
  | unary h op x ih =>
    cases op with
    | scale k => simp [entry, den, ih intact ground valid hr hc]
    | transpose => exact ih intact ground valid hc hr
    | async => exact ih intact ground valid hr hc
  | binary h op l r ihl ihr =>
    obtain ⟨validl, validr, agree⟩ := validate_binary.1 valid
    cases op with
    | elementwise f =>
      have same := BinaryOp.check_elementwise_eq_ok.1 agree
      simp [entry, den, ihl intact.1 ground.1 validl hr hc,
        ihr intact.2 ground.2 validr (same ▸ hr) (same ▸ hc)]
    | product =>
      have inner := BinaryOp.check_product_eq_ok.1 agree
      rw [entry, den, List.range_eq_range']
      exact addProducts_eq _ 0 (fun k hk => ihl intact.1 ground.1 validl hr (by omega))
        (fun k hk => ihr intact.2 ground.2 validr (by omega) hc) _

/-- Evaluation and single elements compute the meaning of the tree, and differ in nothing but the
zero that sums start from. -/
theorem computes_den (intact : e.Intact) (ground : e.Ground) (valid : e.validate = .ok ())
    (fits : e.Fits) :
    (∃ lit d, e.eval = .ok lit ∧ lit.shape = e.shape ∧ lit.dense = .ok d ∧ d.shape = e.shape ∧
      ∀ r < e.shape.rows, ∀ c < e.shape.cols, lit.entry r c = .ok (e.den 0 r c)) ∧
    ∀ r < e.shape.rows, ∀ c < e.shape.cols, e.entry r c = .ok (e.den (-0.0) r c) := by
  obtain ⟨lit, d, ran, shape, read, held⟩ := eval_ok intact ground valid fits
  refine ⟨⟨lit, d, ran, shape, read, held.shape_eq, fun r hr c hc => ?_⟩,
    fun r hr c hc => entry_ok intact ground valid hr hc⟩
  simp [Literal.entry, read, held.entry_eq hr hc]

def paddedColumn : Expr := .leaf 0 (.literal ⟨⟨2, 1⟩, 3, #[1, 9, 9, 2]⟩)

def paddedProduct : Expr :=
  .binary 4 .product (.unary 1 .transpose paddedColumn)
    (.unary 3 .async (.binary 2 (.elementwise .add) paddedColumn paddedColumn))

theorem paddedProduct_intact : paddedProduct.Intact := by
  have column : paddedColumn.Intact := by constructor <;> decide
  exact ⟨column, column, column⟩

theorem paddedProduct_fits : paddedProduct.Fits := ⟨trivial, ⟨trivial, trivial⟩, by decide⟩

theorem paddedProduct_computes_den : paddedProduct.Intact ∧ paddedProduct.Ground ∧
    paddedProduct.validate = .ok () ∧ paddedProduct.Fits ∧
    (∃ lit, paddedProduct.eval = .ok lit ∧ lit.entry 0 0 = .ok 10) ∧
    paddedProduct.entry 0 0 = .ok 10 := by
  have ground : paddedProduct.Ground := ⟨trivial, trivial, trivial⟩
  obtain ⟨⟨lit, d, ran, -, -, -, value⟩, entry⟩ :=
    computes_den paddedProduct_intact ground rfl paddedProduct_fits
  refine ⟨paddedProduct_intact, ground, rfl, paddedProduct_fits, ⟨lit, ran, ?_⟩, ?_⟩
  · rw [value 0 (by decide) 0 (by decide)]
    rfl
  · rw [entry 0 (by decide) 0 (by decide)]
    rfl

end Expr

end LazyMatrix
