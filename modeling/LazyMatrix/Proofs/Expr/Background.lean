import LazyMatrix.Proofs.Expr.Announced
import LazyMatrix.Proofs.Expr.Postorder
import LazyMatrix.Proofs.Pass.Soundness

/-! Evaluation in the background is transparent. What an expression announces, whether it validates
and what its elements are do not depend on which nodes are marked for the background, nor on which
parts of it were started before and stand there as futures. -/

namespace LazyMatrix.Expr

variable {x y : Expr}

def synchronous : Expr → Expr
  | .leaf h x => .leaf h x
  | .unary _ .async x => x.synchronous
  | .unary h (.scale k) x => .unary h (.scale k) x.synchronous
  | .unary h .transpose x => .unary h .transpose x.synchronous
  | .binary h op l r => .binary h op l.synchronous r.synchronous

theorem synchronous_shape (e : Expr) : e.synchronous.shape = e.shape := by
  induction e with
  | leaf h x => rfl
  | unary h op x ih =>
    cases op with
    | async => exact ih
    | scale k => exact ih
    | transpose => exact congrArg Shape.swap ih
  | binary h op l r ihl ihr => rw [synchronous, shape_binary, shape_binary, ihl, ihr]

theorem synchronous_validate (e : Expr) : e.synchronous.validate = e.validate := by
  induction e with
  | leaf h x => rfl
  | unary h op x ih => cases op <;> exact ih
  | binary h op l r ihl ihr =>
    rw [synchronous, validate, validate, ihl, ihr, l.synchronous_shape, r.synchronous_shape]

theorem synchronous_entry (e : Expr) (r c : Nat) : e.synchronous.entry r c = e.entry r c := by
  induction e generalizing r c with
  | leaf h x => rfl
  | unary h op x ih =>
    cases op with
    | async => exact ih r c
    | scale k => simp only [synchronous, entry, ih]
    | transpose => exact ih c r
  | binary h op a b iha ihb =>
    cases op with
    | elementwise f => simp only [synchronous, entry, iha, ihb]
    | product => simp only [synchronous, entry, iha, ihb, a.synchronous_shape]

theorem background_eq {s : Session} {f : Future} (started : (s.run x.background.run).1 = .ok f) :
    x.promise = .ok f.toPromise := by
  rw [background] at started
  cases made : x.promise with
  | error fault => simp [made] at started
  | ok p =>
    rw [made] at started
    cases started
    rfl

theorem background_ok (ground : x.Ground) (s : Session) :
    ∃ f, (s.run x.background.run).1 = .ok f ∧ f.shape = x.shape := by
  obtain ⟨p, made, shape⟩ := promise_eq ground
  rw [background, made]
  exact ⟨_, rfl, shape⟩

theorem outcome_of_invalid {p : Promise} {error : Error} (made : x.promise = .ok p)
    (invalid : x.validate = .error (.error error)) : p.outcome = .error error := by
  rw [promise, promiseBy, invalid] at made
  split at made
  · cases made
  · cases made
    rfl

/-- `y` announces what `x` does and, if the products of `x` fit, validates just as `x` does and has
the same elements if it does. -/
structure Transparent (x y : Expr) : Prop where
  shape_eq : y.shape = x.shape
  intact : x.Intact → y.Intact
  ground : x.Ground → y.Ground
  fits : x.Fits → y.Fits
  validate_eq : x.Intact → x.Ground → x.Fits → y.validate = x.validate
  alike : x.Good → Alike x y

theorem Transparent.good (t : Transparent x y) (g : x.Good) : y.Good where
  intact := t.intact g.intact
  ground := t.ground g.ground
  valid := (t.validate_eq g.intact g.ground g.fits).trans g.valid
  fits := t.fits g.fits

theorem transparent_congruence : Congruence Transparent where
  refl x := ⟨rfl, id, id, id, fun _ _ _ => rfl, fun _ => alike_refl x⟩
  trans h h' :=
    { shape_eq := h'.shape_eq.trans h.shape_eq
      intact := h'.intact ∘ h.intact
      ground := h'.ground ∘ h.ground
      fits := h'.fits ∘ h.fits
      validate_eq := fun i g f =>
        (h'.validate_eq (h.intact i) (h.ground g) (h.fits f)).trans (h.validate_eq i g f)
      alike := fun g => (h.alike g).trans (h'.alike (h.good g)) }
  unary i i' op h :=
    { shape_eq := congrArg op.shape h.shape_eq
      intact := h.intact
      ground := h.ground
      fits := h.fits
      validate_eq := h.validate_eq
      alike := fun g => (h.alike (good_unary.1 g)).unary i i' op }
  binary i i' op hl hr :=
    { shape_eq := by rw [shape_binary, shape_binary, hl.shape_eq, hr.shape_eq]
      intact := fun a => ⟨hl.intact a.1, hr.intact a.2⟩
      ground := fun a => ⟨hl.ground a.1, hr.ground a.2⟩
      fits := fun a => by
        obtain ⟨fitsl, fitsr, room⟩ := fits_binary.1 a
        rw [fits_binary, hl.shape_eq, hr.shape_eq]
        exact ⟨hl.fits fitsl, hr.fits fitsr, room⟩
      validate_eq := fun a g f => by
        obtain ⟨fitsl, fitsr, -⟩ := fits_binary.1 f
        rw [validate, validate, hl.validate_eq a.1 g.1 fitsl, hr.validate_eq a.2 g.2 fitsr,
          hl.shape_eq, hr.shape_eq]
      alike := fun g => by
        obtain ⟨gl, gr, agree, -⟩ := good_binary.1 g
        exact (hl.alike gl).binary i i' (hr.alike gr) agree }

theorem transparent_async (h : Nat) (x : Expr) : Transparent x (.unary h .async x) :=
  ⟨rfl, id, id, id, fun _ _ _ => rfl, fun _ => ⟨rfl, fun _ _ _ _ => rfl⟩⟩

theorem transparent_of_async (h : Nat) (x : Expr) : Transparent (.unary h .async x) x :=
  ⟨rfl, id, id, id, fun _ _ _ => rfl, fun _ => ⟨rfl, fun _ _ _ _ => rfl⟩⟩

theorem transparent_future (h : Nat) {f : Future} (made : x.promise = .ok f.toPromise) :
    Transparent x (.leaf h (.future f)) where
  shape_eq := shape_of_promise made
  intact a := kept_of_promise a made
  ground _ := trivial
  fits _ := trivial
  validate_eq a g fits := by
    rw [validate, Leaf.validate, Promise.validate]
    cases valid : x.validate with
    | ok _ =>
      obtain ⟨d, value, -⟩ := value_ok a g valid fits
      rw [(outcome_eq_ok made).2 ⟨valid, value⟩]
      rfl
    | error stop =>
      cases stop with
      | fault fault => exact absurd valid (g.no_fault fault)
      | error error =>
        rw [outcome_of_invalid made valid]
        rfl
  alike g := by
    obtain ⟨d, value, held⟩ := value_ok g.intact g.ground g.valid g.fits
    refine ⟨shape_of_promise made, fun r hr c hc => ?_⟩
    rw [den, Leaf.element, (outcome_eq_ok made).2 ⟨g.valid, value⟩]
    exact held.element_eq r hr c hc

/-- `y` comes from `x` by marking nodes for the background, by taking such marks away and by putting
futures in the place of parts that they were started from, anywhere and any number of times. -/
inductive Rescheduled : Expr → Expr → Prop
  | refl (x : Expr) : Rescheduled x x
  | trans {x y z : Expr} : Rescheduled x y → Rescheduled y z → Rescheduled x z
  | mark (h : Nat) (x : Expr) : Rescheduled x (.unary h .async x)
  | unmark (h : Nat) (x : Expr) : Rescheduled (.unary h .async x) x
  | start (h : Nat) {x : Expr} {s : Session} {f : Future}
      (started : (s.run x.background.run).1 = .ok f) : Rescheduled x (.leaf h (.future f))
  | unary (h h' : Nat) (op : UnaryOp) {x y : Expr} :
      Rescheduled x y → Rescheduled (.unary h op x) (.unary h' op y)
  | binary (h h' : Nat) (op : BinaryOp) {l r l' r' : Expr} :
      Rescheduled l l' → Rescheduled r r' → Rescheduled (.binary h op l r) (.binary h' op l' r')

theorem rescheduled_synchronous (e : Expr) : Rescheduled e e.synchronous := by
  induction e with
  | leaf h x => exact .refl _
  | unary h op x ih =>
    cases op with
    | async => exact .trans (.unmark h x) ih
    | scale k => exact .unary h h _ ih
    | transpose => exact .unary h h _ ih
  | binary h op l r ihl ihr => exact .binary h h op ihl ihr

theorem Rescheduled.transparent (h : Rescheduled x y) : Transparent x y := by
  induction h with
  | refl x => exact transparent_congruence.refl x
  | trans _ _ ih ih' => exact transparent_congruence.trans ih ih'
  | mark i x => exact transparent_async i x
  | unmark i x => exact transparent_of_async i x
  | start i started => exact transparent_future i (background_eq started)
  | unary i i' op _ ih => exact transparent_congruence.unary i i' op ih
  | binary i i' op _ _ ihl ihr => exact transparent_congruence.binary i i' op ihl ihr

theorem Ground.operands {e : Expr} (ground : e.Ground) : ∀ x ∈ e.operands, x.Ground := by
  cases e with
  | leaf => simp [Expr.operands]
  | unary => simpa [Expr.operands, Ground] using ground
  | binary => simpa [Expr.operands, Ground] using ground

/-- Marks for the background change nothing that can be seen without evaluating. Where no product
exceeds a buffer, every part can be started beforehand, and however an expression is rescheduled it
validates as before, with the same error if there is one, and has the same elements if it does. -/
theorem background_transparent (e : Expr) :
    (Rescheduled e e.synchronous ∧ e.synchronous.shape = e.shape ∧
      e.synchronous.validate = e.validate ∧ ∀ r c, e.synchronous.entry r c = e.entry r c) ∧
    (e.Intact → e.Ground → e.Fits →
      (∀ x ∈ e.postorder, ∀ s : Session,
        ∃ f, (s.run x.background.run).1 = .ok f ∧ f.shape = x.shape) ∧
      ∀ y, Rescheduled e y →
        y.validate = e.validate ∧ (e.validate = .ok () → e.Preserved y)) := by
  refine ⟨⟨rescheduled_synchronous e, e.synchronous_shape, e.synchronous_validate,
    e.synchronous_entry⟩, fun intact ground fits => ⟨fun x hx s => ?_, fun y rescheduled => ?_⟩⟩
  · exact background_ok (of_mem_postorder (fun _ => Ground.operands) ground hx) s
  · have t := rescheduled.transparent
    refine ⟨t.validate_eq intact ground fits, fun valid => ?_⟩
    have g : e.Good := ⟨intact, ground, valid, fits⟩
    exact g.preserved (t.good g) (t.alike g)

theorem paddedProduct_background_transparent : paddedProduct.Intact ∧ paddedProduct.Ground ∧
    paddedProduct.Fits ∧ ∃ f : Future, paddedProduct.Preserved
      (.unary 7 .async (.binary 6 .product (.unary 1 .transpose paddedColumn)
        (.leaf 5 (.future f)))) := by
  have good := paddedProduct_good
  obtain ⟨starts, same⟩ :=
    (background_transparent paddedProduct).2 good.intact good.ground good.fits
  obtain ⟨f, started, -⟩ := starts (.unary 3 .async
    (.binary 2 (.elementwise .add) paddedColumn paddedColumn)) (by simp [paddedProduct])
      { next := 5 }
  refine ⟨good.intact, good.ground, good.fits, f, (same _ ?_).2 good.valid⟩
  exact .trans (.binary 4 6 .product (.refl _) (.start 5 started)) (.mark 7 _)

end LazyMatrix.Expr
