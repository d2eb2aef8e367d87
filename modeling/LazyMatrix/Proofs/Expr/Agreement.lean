import LazyMatrix.Proofs.Expr.Postorder
import LazyMatrix.Proofs.Float.Zero
import LazyMatrix.Proofs.Pass.Soundness

/-! Where single elements agree with full evaluation. The two start their sums from zeros of
different sign, so the zeros of a product can differ in sign. Every operator but division hands such
a difference on as no more than that. A division turns it into infinities of different sign. -/

namespace LazyMatrix.Expr

/-- Evaluation succeeds, and inside of the shape every element that it gives is the number that is
read without it, or neither is a number. -/
def ReadsAlike (e : Expr) : Prop :=
  ∃ lit, e.eval = .ok lit ∧ ∀ r < e.shape.rows, ∀ c < e.shape.cols, ∃ x y,
    lit.entry r c = .ok x ∧ e.entry r c = .ok y ∧ Agree y x

def Agrees (e : Expr) : Prop :=
  ∀ r < e.shape.rows, ∀ c < e.shape.cols, Agree (e.den (-0.0) r c) (e.den 0 r c)

/-- Wherever `l` is divided by `r`, both readings of the divisor are the same, or there is nothing
but a zero or a NaN to divide. -/
def Divides (l r : Expr) : Prop :=
  ∀ i < l.shape.rows, ∀ j < l.shape.cols,
    r.den (-0.0) i j = r.den 0 i j ∨ IsZero (l.den 0 i j) ∨ (l.den 0 i j).isNaN

/-- No division in the expression shows the sign that a zero got from how a sum was started. -/
def Steady : Expr → Prop
  | .leaf _ _ => True
  | .unary _ _ x => x.Steady
  | .binary _ op l r => l.Steady ∧ r.Steady ∧ (op = .elementwise .div → Divides l r)

theorem readsAlike_iff {e : Expr} (good : e.Good) : e.ReadsAlike ↔ e.Agrees := by
  obtain ⟨⟨lit, d, ran, -, -, -, full⟩, single⟩ :=
    computes_den good.intact good.ground good.valid good.fits
  constructor
  · rintro ⟨lit', ran', alike⟩ r hr c hc
    obtain rfl : lit = lit' := Except.ok.inj (ran.symm.trans ran')
    obtain ⟨x, y, hx, hy, agree⟩ := alike r hr c hc
    obtain rfl := Except.ok.inj ((full r hr c hc).symm.trans hx)
    obtain rfl := Except.ok.inj ((single r hr c hc).symm.trans hy)
    exact agree
  · intro agrees
    exact ⟨lit, ran, fun r hr c hc =>
      ⟨_, _, full r hr c hc, single r hr c hc, agrees r hr c hc⟩⟩

theorem agrees_leaf (h : Nat) (x : Leaf) : (leaf h x).Agrees :=
  fun _ _ _ _ => Agree.refl _

theorem Agrees.unary {x : Expr} (agrees : x.Agrees) (h : Nat) (op : UnaryOp) :
    (unary h op x).Agrees := by
  intro r hr c hc
  cases op with
  | scale k => exact (agrees r hr c hc).mul (Agree.refl k)
  | transpose => exact agrees c hc r hr
  | async => exact agrees r hr c hc

theorem agrees_binary {l r : Expr} {op : BinaryOp} (agreesl : l.Agrees) (agreesr : r.Agrees)
    (agree : op.check l.shape r.shape = .ok ()) (h : Nat) :
    (binary h op l r).Agrees ↔ (op = .elementwise .div → Divides l r) := by
  cases op with
  | elementwise f =>
    have same := BinaryOp.check_elementwise_eq_ok.1 agree
    have right : ∀ i < l.shape.rows, ∀ j < l.shape.cols,
        Agree (r.den (-0.0) i j) (r.den 0 i j) := same ▸ agreesr
    cases f with
    | add => exact iff_of_true (fun i hi j hj => (agreesl i hi j hj).add (right i hi j hj)) nofun
    | sub => exact iff_of_true (fun i hi j hj => (agreesl i hi j hj).sub (right i hi j hj)) nofun
    | mul => exact iff_of_true (fun i hi j hj => (agreesl i hi j hj).mul (right i hi j hj)) nofun
    | div =>
      have quotient (i : Nat) (hi : i < l.shape.rows) (j : Nat) (hj : j < l.shape.cols) :
          Agree (l.den (-0.0) i j / r.den (-0.0) i j) (l.den 0 i j / r.den 0 i j) ↔
            r.den (-0.0) i j = r.den 0 i j ∨ IsZero (l.den 0 i j) ∨ (l.den 0 i j).isNaN := by
        rw [Agree.comm, eq_comm]
        exact agree_div_iff (agreesl i hi j hj).symm (right i hi j hj).symm
      exact ⟨fun agrees _ i hi j hj => (quotient i hi j hj).1 (agrees i hi j hj),
        fun divides i hi j hj => (quotient i hi j hj).2 (divides rfl i hi j hj)⟩
  | product =>
    have inner := BinaryOp.check_product_eq_ok.1 agree
    refine iff_of_true (fun i hi j hj => ?_) nofun
    refine List.foldl_rel (by decide) fun k hk x y sums => ?_
    have hk : k < l.shape.cols := List.mem_range.1 hk
    exact sums.add ((agreesl i hi k hk).mul (agreesr k (inner ▸ hk) j hj))

theorem agrees_iff_steady {e : Expr} (valid : e.validate = .ok ()) :
    (∀ x ∈ e.postorder, x.Agrees) ↔ e.Steady := by
  induction e with
  | leaf h x => simp [agrees_leaf, Steady]
  | unary h op x ih =>
    simp only [mem_postorder_unary, or_imp, forall_and, forall_eq, Steady, ih valid]
    refine and_iff_left_of_imp fun steady => ?_
    exact ((ih valid).2 steady x x.mem_postorder_self).unary h op
  | binary h op l r ihl ihr =>
    obtain ⟨validl, validr, agree⟩ := validate_binary.1 valid
    simp only [mem_postorder_binary, or_imp, forall_and, forall_eq, Steady, ihl validl, ihr validr]
    refine and_congr_right fun steadyl => and_congr_right fun steadyr => ?_
    exact agrees_binary ((ihl validl).2 steadyl l l.mem_postorder_self)
      ((ihr validr).2 steadyr r r.mem_postorder_self) agree h

theorem Good.operands {e : Expr} (good : e.Good) : ∀ x ∈ e.operands, x.Good := by
  cases e with
  | leaf => simp [Expr.operands]
  | unary => simpa [Expr.operands] using good_unary.1 good
  | binary =>
    obtain ⟨goodl, goodr, -⟩ := good_binary.1 good
    simpa [Expr.operands] using ⟨goodl, goodr⟩

/-- Of an expression that can be evaluated, elements read one at a time agree with its value
throughout just if no division shows the sign of a zero that a sum started from. -/
theorem readsAlike_iff_steady {e : Expr} (intact : e.Intact) (ground : e.Ground)
    (valid : e.validate = .ok ()) (value : ∃ d, e.value = .ok d) :
    (∀ x ∈ e.postorder, x.ReadsAlike) ↔ e.Steady := by
  have good : e.Good := ⟨intact, ground, valid, (exists_value_iff intact ground valid).1 value⟩
  rw [← agrees_iff_steady valid]
  exact forall₂_congr fun x hx => readsAlike_iff (of_mem_postorder (fun _ => Good.operands) good hx)

theorem paddedProduct_readsAlike_iff_steady : paddedProduct.Good ∧
    ∀ x ∈ paddedProduct.postorder, x.ReadsAlike := by
  have good := paddedProduct_good
  refine ⟨good, (readsAlike_iff_steady good.intact good.ground good.valid
    ((exists_value_iff good.intact good.ground good.valid).2 good.fits)).2 ?_⟩
  exact ⟨trivial, ⟨trivial, trivial, nofun⟩, nofun⟩

def quotientByProduct : Expr :=
  .binary 4 (.elementwise .div) (.leaf 0 (.literal ⟨⟨1, 1⟩, 1, #[1]⟩))
    (.binary 3 .product (.leaf 1 (.literal ⟨⟨1, 1⟩, 1, #[-1]⟩))
      (.leaf 2 (.literal ⟨⟨1, 1⟩, 1, #[0]⟩)))

theorem quotientByProduct_good : quotientByProduct.Good where
  intact := by refine ⟨?_, ?_, ?_⟩ <;> constructor <;> decide
  ground := ⟨trivial, trivial, trivial⟩
  valid := rfl
  fits := ⟨trivial, trivial, trivial, by decide⟩

theorem quotientByProduct_not_readsAlike : quotientByProduct.Good ∧
    (∃ lit, quotientByProduct.eval = .ok lit ∧ lit.entry 0 0 = .ok (1 / 0)) ∧
    quotientByProduct.entry 0 0 = .ok (-1 / 0) ∧ ¬ quotientByProduct.ReadsAlike := by
  have good := quotientByProduct_good
  obtain ⟨⟨lit, d, ran, -, -, -, full⟩, single⟩ :=
    computes_den good.intact good.ground good.valid good.fits
  refine ⟨good, ⟨lit, ran, ?_⟩, ?_, ?_⟩
  · rw [full 0 (by decide) 0 (by decide)]
    decide
  · rw [single 0 (by decide) 0 (by decide)]
    decide
  · rw [readsAlike_iff good]
    intro agrees
    exact absurd (agrees 0 (by decide) 0 (by decide)) (by decide)

def Sumless : Expr → Prop
  | .leaf _ _ => True
  | .unary _ _ x => x.Sumless
  | .binary _ op l r => op ≠ .product ∧ l.Sumless ∧ r.Sumless

theorem Sumless.den_eq {e : Expr} (sumless : e.Sumless) (z z' : Float) : e.den z = e.den z' := by
  induction e with
  | leaf h x => rfl
  | unary h op x ih =>
    funext r c
    cases op <;> simp [den, ih sumless]
  | binary h op l r ihl ihr =>
    obtain ⟨other, sumlessl, sumlessr⟩ := sumless
    funext i j
    cases op with
    | elementwise f => simp [den, ihl sumlessl, ihr sumlessr]
    | product => exact absurd rfl other

/-- An expression is steady if it divides by nothing that has a product in it. -/
theorem steady_of_sumless_divisors {e : Expr}
    (h : ∀ i l r, binary i (.elementwise .div) l r ∈ e.postorder → r.Sumless) : e.Steady := by
  induction e with
  | leaf i x => trivial
  | unary i op x ih => exact ih fun j l r mem => h j l r (mem_postorder_unary.2 (.inl mem))
  | binary i op l r ihl ihr =>
    refine ⟨ihl fun j a b mem => h j a b (mem_postorder_binary.2 (.inl mem)),
      ihr fun j a b mem => h j a b (mem_postorder_binary.2 (.inr (.inl mem))), ?_⟩
    rintro rfl m _ n _
    have sumless := h i l r (mem_postorder_self _)
    exact .inl (by rw [sumless.den_eq])

end LazyMatrix.Expr
