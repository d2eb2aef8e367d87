import LazyMatrix.Proofs.Pass.Lifting
import Mathlib.Data.List.Basic

/-! Sound passes. A pass is sound if what it makes of an expression that validates and can be
evaluated is as good and has the same shape and the same elements. Running a sound pass throughout
an expression is sound, and so is a compiler made of sound passes. -/

namespace LazyMatrix

namespace Expr

/-- An expression that validates and whose value can be had. -/
structure Good (e : Expr) : Prop where
  intact : e.Intact
  ground : e.Ground
  valid : e.validate = .ok ()
  fits : e.Fits

theorem good_unary {h : Nat} {op : UnaryOp} {x : Expr} : (unary h op x).Good ↔ x.Good :=
  ⟨fun g => ⟨g.intact, g.ground, g.valid, g.fits⟩, fun g => ⟨g.intact, g.ground, g.valid, g.fits⟩⟩

theorem fits_binary {h : Nat} {op : BinaryOp} {l r : Expr} :
    (binary h op l r).Fits ↔
      l.Fits ∧ r.Fits ∧ (op = .product → l.shape.rows * r.shape.cols ≤ bufferBound) := by
  cases op <;> simp [Fits]

theorem good_binary {h : Nat} {op : BinaryOp} {l r : Expr} :
    (binary h op l r).Good ↔ l.Good ∧ r.Good ∧ op.check l.shape r.shape = .ok () ∧
      (op = .product → l.shape.rows * r.shape.cols ≤ bufferBound) := by
  constructor
  · intro g
    obtain ⟨validl, validr, agree⟩ := validate_binary.1 g.valid
    obtain ⟨fitsl, fitsr, room⟩ := fits_binary.1 g.fits
    exact ⟨⟨g.intact.1, g.ground.1, validl, fitsl⟩, ⟨g.intact.2, g.ground.2, validr, fitsr⟩, agree,
      room⟩
  · rintro ⟨gl, gr, agree, room⟩
    exact ⟨⟨gl.intact, gr.intact⟩, ⟨gl.ground, gr.ground⟩,
      validate_binary.2 ⟨gl.valid, gr.valid, agree⟩, fits_binary.2 ⟨gl.fits, gr.fits, room⟩⟩

structure Alike (x y : Expr) : Prop where
  shape_eq : y.shape = x.shape
  den_eq : ∀ r < x.shape.rows, ∀ c < x.shape.cols, y.den 0 r c = x.den 0 r c

theorem alike_refl (x : Expr) : Alike x x := ⟨rfl, fun _ _ _ _ => rfl⟩

theorem Alike.trans {x y z : Expr} (h : Alike x y) (h' : Alike y z) : Alike x z := by
  refine ⟨h'.shape_eq.trans h.shape_eq, fun r hr c hc => ?_⟩
  rw [h'.den_eq r (h.shape_eq ▸ hr) c (h.shape_eq ▸ hc), h.den_eq r hr c hc]

theorem Alike.unary {x y : Expr} (h h' : Nat) (op : UnaryOp) (a : Alike x y) :
    Alike (.unary h op x) (.unary h' op y) := by
  refine ⟨by simp [shape, a.shape_eq], fun r hr c hc => ?_⟩
  cases op with
  | scale k => simp [den, a.den_eq r hr c hc]
  | transpose => exact a.den_eq c hc r hr
  | async => exact a.den_eq r hr c hc

theorem Alike.binary {l r l' r' : Expr} (h h' : Nat) {op : BinaryOp} (al : Alike l l')
    (ar : Alike r r') (agree : op.check l.shape r.shape = .ok ()) :
    Alike (.binary h op l r) (.binary h' op l' r') := by
  refine ⟨by simp [shape_binary, al.shape_eq, ar.shape_eq], fun i hi j hj => ?_⟩
  cases op with
  | elementwise f =>
    have same := BinaryOp.check_elementwise_eq_ok.1 agree
    rw [den, den, al.den_eq i hi j hj, ar.den_eq i (same ▸ hi) j (same ▸ hj)]
  | product =>
    have inner := BinaryOp.check_product_eq_ok.1 agree
    rw [den, den, al.shape_eq]
    refine List.foldl_ext _ _ _ fun sum k hk => ?_
    have hk : k < l.shape.cols := List.mem_range.1 hk
    rw [al.den_eq i hi k hk, ar.den_eq k (inner ▸ hk) j hj]

/-- `y` can take the place of `x` wherever `x` can be evaluated. -/
structure Refines (x y : Expr) : Prop where
  intact : x.Intact → y.Intact
  good : x.Good → y.Good
  alike : x.Good → Alike x y

theorem refines_congruence : Congruence Refines where
  refl x := ⟨id, id, fun _ => alike_refl x⟩
  trans h h' := ⟨h'.intact ∘ h.intact, h'.good ∘ h.good,
    fun g => (h.alike g).trans (h'.alike (h.good g))⟩
  unary i i' op h := by
    refine ⟨h.intact, fun g => good_unary.2 (h.good (good_unary.1 g)), fun g => ?_⟩
    exact (h.alike (good_unary.1 g)).unary i i' op
  binary i i' op hl hr := by
    refine ⟨fun g => ⟨hl.intact g.1, hr.intact g.2⟩, fun g => ?_, fun g => ?_⟩
    · obtain ⟨gl, gr, agree, room⟩ := good_binary.1 g
      have al := hl.alike gl
      have ar := hr.alike gr
      exact good_binary.2 ⟨hl.good gl, hr.good gr, by rwa [al.shape_eq, ar.shape_eq],
        by rwa [al.shape_eq, ar.shape_eq]⟩
    · obtain ⟨gl, gr, agree, -⟩ := good_binary.1 g
      exact (hl.alike gl).binary i i' (hr.alike gr) agree

/-- `y` has no wildcard, validates, has the shape of `x` and evaluates to the elements of `x`. -/
structure Preserved (x y : Expr) : Prop where
  ground : y.Ground
  valid : y.validate = .ok ()
  shape_eq : y.shape = x.shape
  value_eq : ∃ d d', x.value = .ok d ∧ y.value = .ok d' ∧ d'.shape = d.shape ∧
    ∀ r < x.shape.rows, ∀ c < x.shape.cols, ∃ v, d.entry r c = .ok v ∧ d'.entry r c = .ok v

theorem good_of_value {x : Expr} {d : Dense} (intact : x.Intact) (ground : x.Ground)
    (valid : x.validate = .ok ()) (h : x.value = .ok d) : x.Good :=
  ⟨intact, ground, valid, fits_of_value intact ground valid h⟩

theorem Good.preserved {x y : Expr} (gx : x.Good) (gy : y.Good) (a : Alike x y) :
    Preserved x y := by
  obtain ⟨d, dx, hx⟩ := value_ok gx.intact gx.ground gx.valid gx.fits
  obtain ⟨d', dy, hy⟩ := value_ok gy.intact gy.ground gy.valid gy.fits
  refine ⟨gy.ground, gy.valid, a.shape_eq, d, d', dx, dy, ?_, fun r hr c hc => ?_⟩
  · rw [hy.shape_eq, hx.shape_eq, a.shape_eq]
  · rw [a.shape_eq] at hy
    exact ⟨_, hx.entry_eq hr hc, by rw [hy.entry_eq hr hc, a.den_eq r hr c hc]⟩

theorem Preserved.alike {x y : Expr} (p : Preserved x y) (gx : x.Good) (intact : y.Intact) :
    y.Good ∧ Alike x y := by
  obtain ⟨d, d', dx, dy, -, same⟩ := p.value_eq
  have gy := good_of_value intact p.ground p.valid dy
  have hx := holds_of_value gx.intact gx.ground gx.valid gx.fits dx
  have hy := holds_of_value gy.intact gy.ground gy.valid gy.fits dy
  rw [p.shape_eq] at hy
  refine ⟨gy, p.shape_eq, fun r hr c hc => ?_⟩
  obtain ⟨v, hv, hv'⟩ := same r hr c hc
  rw [hx.entry_eq hr hc] at hv
  rw [hy.entry_eq hr hc] at hv'
  exact Except.ok.inj (hv'.trans hv.symm)

theorem paddedProduct_good : paddedProduct.Good where
  intact := paddedProduct_intact
  ground := ⟨trivial, trivial, trivial⟩
  valid := rfl
  fits := paddedProduct_fits

end Expr

namespace Pass

variable {base : Set Expr} {p : Pass}

/-- What holds of every pass because handles are identities and matrices are well formed by
construction: the pass uses the nodes it is given, those of `base` and nodes that it builds, and it
puts no malformed matrix into them. -/
def Honest (base : Set Expr) (p : Pass) : Prop :=
  Keeps base (fun x y => x.Intact → y.Intact) p.run

/-- Whatever a sound pass makes of an expression that can be evaluated has the same value. -/
def Sound (base : Set Expr) (p : Pass) : Prop :=
  ∀ (nodes : Set Expr) (s : Session) (x y : Expr), base ⊆ nodes → Extant nodes s.next → x ∈ nodes →
    x.Intact → x.Ground → x.validate = .ok () → (∃ d, x.value = .ok d) →
      (s.run (p.run x).run).1 = .ok y → x.Preserved y

theorem keeps_refines (honest : p.Honest base) (sound : p.Sound base) :
    Keeps base Expr.Refines p.run := by
  intro nodes x hb hx s extant
  obtain ⟨more, le, extant', made⟩ := honest nodes x hb hx s extant
  refine ⟨more, le, extant', fun y ok => ?_⟩
  obtain ⟨hy, intact⟩ := made y ok
  have kept (g : x.Good) : y.Good ∧ x.Alike y := by
    have value := (Expr.exists_value_iff g.intact g.ground g.valid).2 g.fits
    exact (sound nodes s x y hb extant hx g.intact g.ground g.valid value ok).alike g
      (intact g.intact)
  exact ⟨hy, intact, fun g => (kept g).1, fun g => (kept g).2⟩

theorem Keeps.honest (h : Keeps base Expr.Refines p.run) : p.Honest base :=
  h.mono fun _ _ r => r.intact

theorem Keeps.sound (h : Keeps base Expr.Refines p.run) : p.Sound base := by
  intro nodes s x y hb extant hx intact ground valid ⟨d, value⟩ ok
  obtain ⟨more, -, -, made⟩ := h nodes x hb hx s extant
  have g := Expr.good_of_value intact ground valid value
  have r := (made y ok).2
  exact g.preserved (r.good g) (r.alike g)

end Pass

/-- Sound passes stay sound throughout an expression, to any depth, and make sound compilers. -/
theorem soundness_lifts (base : Set Expr) :
    (∀ p : Pass, p.Honest base → p.Sound base → ∀ n,
      (Pass.everywhere^[n] p).Honest base ∧ (Pass.everywhere^[n] p).Sound base) ∧
    ∀ c : Compiler, (∀ p ∈ c.passes, p.Honest base ∧ p.Sound base) →
      ∀ (nodes : Set Expr) (s : Session) (e out : Expr), base ⊆ nodes → Extant nodes s.next →
        e ∈ nodes → e.Intact → e.Ground → e.validate = .ok () → (∃ d, e.value = .ok d) →
          (s.run (c.compile e).run).1 = .ok out → e.Preserved out := by
  refine ⟨fun p honest sound n => ?_, fun c hc nodes s e out hb extant he intact ground valid => ?_⟩
  · have keeps := (Pass.keeps_refines honest sound).iterate Expr.refines_congruence n
    exact ⟨keeps.honest, keeps.sound⟩
  · rintro ⟨d, value⟩ ok
    have keeps (p : Pass) (hp : p ∈ c.passes) : Pass.Keeps base Expr.Refines p.run :=
      Pass.keeps_refines (hc p hp).1 (hc p hp).2
    obtain ⟨more, -, -, made⟩ :=
      Compiler.compile_spec Expr.refines_congruence keeps hb he s extant
    have g := Expr.good_of_value intact ground valid value
    have r := (made out ok).2
    exact g.preserved (r.good g) (r.alike g)

def twiceTransposed : Pass := ⟨"twice-transposed", fun e => do Expr.transpose (← Expr.transpose e)⟩

theorem twiceTransposed_keeps : Pass.Keeps ∅ Expr.Refines twiceTransposed.run := by
  intro nodes x _ hx
  refine attempts_bind (attempts_lift (Expr.builds_newUnary .transpose hx)) ?_
  rintro more _ - ⟨hy, h, rfl⟩
  refine (attempts_lift (Expr.builds_newUnary .transpose hy)).mono ?_
  rintro most _ - ⟨hz, h', rfl⟩
  exact ⟨hz, id, fun g => Expr.good_unary.2 (Expr.good_unary.2 g),
    fun _ => ⟨rfl, fun _ _ _ _ => rfl⟩⟩

theorem twiceTransposed_unbroken : Pass.Unbroken twiceTransposed.run := by
  intro s e u
  have succeeds : Succeeds (twiceTransposed.run e) :=
    succeeds_bind (succeeds_lift _) fun _ => succeeds_lift _
  obtain ⟨y, ran⟩ := succeeds s
  simp [ran]

theorem paddedProduct_extant : ∃ nodes, Extant nodes 5 ∧ Expr.paddedProduct ∈ nodes := by
  have column : Extant {Expr.paddedColumn} 1 := by
    simpa using (extant_empty 0).insert (x := Expr.paddedColumn) rfl
      (by simp [Expr.operands, Expr.paddedColumn])
  have flipped := column.insert (x := .unary 1 .transpose Expr.paddedColumn) rfl
    (by simp [Expr.operands])
  have sum := flipped.insert
    (x := .binary 2 (.elementwise .add) Expr.paddedColumn Expr.paddedColumn) rfl
    (by simp [Expr.operands])
  have later := sum.insert (x := .unary 3 .async
    (.binary 2 (.elementwise .add) Expr.paddedColumn Expr.paddedColumn)) rfl
    (by simp [Expr.operands])
  have product := later.insert (x := Expr.paddedProduct) rfl
    (by simp [Expr.operands, Expr.paddedProduct])
  exact ⟨_, product, Set.mem_insert _ _⟩

theorem twiceTransposed_soundness_lifts :
    (Pass.everywhere^[2] twiceTransposed).Sound ∅ ∧
    ∃ out, (({ next := 5 } : Session).run
      ((⟨[twiceTransposed.everywhere, twiceTransposed.everywhere], false⟩ : Compiler).compile
        Expr.paddedProduct).run).1 = .ok out ∧ Expr.paddedProduct.Preserved out := by
  obtain ⟨lifted, compiled⟩ := soundness_lifts ∅
  have honest := twiceTransposed_keeps.honest
  have sound := twiceTransposed_keeps.sound
  have made := lifted twiceTransposed honest sound 1
  refine ⟨(lifted twiceTransposed honest sound 2).2, ?_⟩
  obtain ⟨nodes, extant, mem⟩ := paddedProduct_extant
  obtain ⟨out, ran⟩ := Compiler.compile_succeeds
    (c := ⟨[twiceTransposed.everywhere, twiceTransposed.everywhere], false⟩) rfl
    (by simpa using Pass.everywhere_succeeds twiceTransposed_unbroken) Expr.paddedProduct
    { next := 5 }
  refine ⟨out, ran, ?_⟩
  have good := Expr.paddedProduct_good
  exact compiled _ (by simpa using made) nodes _ _ out (Set.empty_subset _) extant mem good.intact
    good.ground good.valid ((Expr.exists_value_iff good.intact good.ground good.valid).2 good.fits)
    ran

end LazyMatrix
