import LazyMatrix.Proofs.Float
import LazyMatrix.Proofs.Pass.Soundness
import LazyMatrix.Proofs.Rules.Forms
import LazyMatrix.Proofs.Template

/-! The built-in rules are sound, and more than that: whether an expression validates is not changed
by them, nor is its shape, even if it does not validate. Run throughout an expression they cannot
fail. -/

namespace LazyMatrix

namespace Expr

/-- `y` can take the place of `x`, and is no better than `x` if `x` cannot be evaluated. -/
structure Exchange (x y : Expr) : Prop extends Refines x y where
  shape_eq : y.shape = x.shape
  valid_iff : y.validate = .ok () ↔ x.validate = .ok ()
  ground_of : x.Ground → y.Ground

theorem exchange_congruence : Congruence Exchange where
  refl x := ⟨refines_congruence.refl x, rfl, Iff.rfl, id⟩
  trans h h' := ⟨refines_congruence.trans h.toRefines h'.toRefines, h'.shape_eq.trans h.shape_eq,
    h'.valid_iff.trans h.valid_iff, h'.ground_of ∘ h.ground_of⟩
  unary i i' op h := by
    refine ⟨refines_congruence.unary i i' op h.toRefines, ?_, h.valid_iff, h.ground_of⟩
    simp [shape, h.shape_eq]
  binary i i' op hl hr := by
    refine ⟨refines_congruence.binary i i' op hl.toRefines hr.toRefines, ?_, ?_, ?_⟩
    · simp [shape_binary, hl.shape_eq, hr.shape_eq]
    · rw [validate_binary, validate_binary, hl.valid_iff, hr.valid_iff, hl.shape_eq, hr.shape_eq]
    · exact fun g => ⟨hl.ground_of g.1, hr.ground_of g.2⟩

variable {a b c d : Expr} {f : Elementwise} {i₁ i₂ i₃ i₄ i₅ i₆ i₇ : Nat}

theorem exchange_hoist :
    Exchange (.binary i₁ (.elementwise f) (.unary i₂ .transpose a) (.unary i₃ .transpose b))
      (.unary i₄ .transpose (.binary i₅ (.elementwise f) a b)) := by
  have agree : (BinaryOp.elementwise f).check a.shape b.shape = .ok () ↔
      (BinaryOp.elementwise f).check a.shape.swap b.shape.swap = .ok () := by
    rw [BinaryOp.check_elementwise_eq_ok, BinaryOp.check_elementwise_eq_ok]
    exact ⟨congrArg Shape.swap, congrArg Shape.swap⟩
  have valid : (unary i₄ .transpose (.binary i₅ (.elementwise f) a b)).validate = .ok () ↔
      (binary i₁ (.elementwise f) (.unary i₂ .transpose a) (.unary i₃ .transpose b)).validate =
        .ok () := by
    rw [validate, validate_binary, validate_binary, agree]
    rfl
  exact ⟨⟨id, fun g => ⟨g.intact, g.ground, valid.2 g.valid, g.fits⟩,
    fun _ => ⟨rfl, fun _ _ _ _ => rfl⟩⟩, rfl, valid, id⟩

theorem exchange_product :
    Exchange (.binary i₁ .product (.unary i₂ .transpose a) (.unary i₃ .transpose b))
      (.unary i₄ .transpose (.binary i₅ .product b a)) := by
  have valid : (unary i₄ .transpose (.binary i₅ .product b a)).validate = .ok () ↔
      (binary i₁ .product (.unary i₂ .transpose a) (.unary i₃ .transpose b)).validate = .ok () := by
    rw [validate, validate_binary, validate_binary, BinaryOp.check_product_eq_ok,
      BinaryOp.check_product_eq_ok]
    constructor
    · rintro ⟨hb, ha, inner⟩
      exact ⟨ha, hb, inner.symm⟩
    · rintro ⟨ha, hb, inner⟩
      exact ⟨hb, ha, inner.symm⟩
  refine ⟨⟨And.symm, fun g => ⟨g.intact.symm, g.ground.symm, valid.2 g.valid, ?_⟩,
    fun g => ⟨rfl, ?_⟩⟩, rfl, valid, And.symm⟩
  · obtain ⟨fitsa, fitsb, room⟩ := g.fits
    exact ⟨fitsb, fitsa, by rwa [Nat.mul_comm]⟩
  · intro r hr c hc
    have inner : a.shape.rows = b.shape.cols :=
      BinaryOp.check_product_eq_ok.1 (validate_binary.1 g.valid).2.2
    change (List.range b.shape.cols).foldl (fun sum k => sum + b.den 0 c k * a.den 0 k r) 0 =
      (List.range a.shape.rows).foldl (fun sum k => sum + a.den 0 k r * b.den 0 c k) 0
    rw [inner]
    exact List.foldl_ext _ _ _ fun sum k _ => by rw [float_mul_comm]

theorem exchange_double : Exchange (.unary i₁ .transpose (.unary i₂ .transpose a)) a :=
  ⟨⟨id, fun g => good_unary.1 (good_unary.1 g), fun _ => ⟨rfl, fun _ _ _ _ => rfl⟩⟩, rfl, Iff.rfl,
    id⟩

theorem exchange_async : Exchange a (.unary i₁ .async a) :=
  ⟨⟨id, good_unary.2, fun _ => ⟨rfl, fun _ _ _ _ => rfl⟩⟩, rfl, Iff.rfl, id⟩

end Expr

namespace Rules

variable {source target : Expr}

/-- A rule that brings transposes towards the root, at work: the expression that it is applied to and
what becomes of it. -/
inductive Hoisted : Expr → Expr → Prop where
  | hoist {f : Elementwise} {a b : Expr} {i₁ i₂ i₃ i₄ i₅ : Nat} :
      Hoisted (.binary i₁ (.elementwise f) (.unary i₂ .transpose a) (.unary i₃ .transpose b))
        (.unary i₄ .transpose (.binary i₅ (.elementwise f) a b))
  | product {a b : Expr} {i₁ i₂ i₃ i₄ i₅ : Nat} :
      Hoisted (.binary i₁ .product (.unary i₂ .transpose a) (.unary i₃ .transpose b))
        (.unary i₄ .transpose (.binary i₅ .product b a))
  | double {a : Expr} {i₁ i₂ : Nat} :
      Hoisted (.unary i₁ .transpose (.unary i₂ .transpose a)) a

theorem Hoisting.hoisted (h : Hoisting source target) {σ : Bindings} {x y : Expr}
    (hx : source.Filled σ x) (hy : target.Filled σ y) : Hoisted x y := by
  cases h with
  | hoist f =>
    obtain ⟨_, _, _, rfl, ⟨_, a, rfl, ha⟩, _, b, rfl, hb⟩ := hx
    obtain ⟨_, _, rfl, _, a', b', rfl, ha', hb'⟩ := hy
    obtain rfl : a = a' := Option.some.inj (ha.symm.trans ha')
    obtain rfl : b = b' := Option.some.inj (hb.symm.trans hb')
    exact .hoist
  | product =>
    obtain ⟨_, _, _, rfl, ⟨_, a, rfl, ha⟩, _, b, rfl, hb⟩ := hx
    obtain ⟨_, _, rfl, _, b', a', rfl, hb', ha'⟩ := hy
    obtain rfl : a = a' := Option.some.inj (ha.symm.trans ha')
    obtain rfl : b = b' := Option.some.inj (hb.symm.trans hb')
    exact .product
  | double =>
    obtain ⟨_, _, rfl, _, a, rfl, ha⟩ := hx
    obtain rfl : a = y := Option.some.inj (ha.symm.trans hy)
    exact .double

inductive Detached (f : Elementwise) : Expr → Expr → Prop where
  | products {a b c d : Expr} {i j j' i' k k' l l' : Nat} :
      Detached f (.binary i (.elementwise f) (.binary j .product a b) (.binary j' .product c d))
        (.binary i' (.elementwise f) (.unary k .async (.binary l .product a b))
          (.unary k' .async (.binary l' .product c d)))

theorem Splitting.detached {f : Elementwise} (h : Splitting f source target) {σ : Bindings}
    {x y : Expr} (hx : source.Filled σ x) (hy : target.Filled σ y) : Detached f x y := by
  cases h with
  | split =>
    obtain ⟨_, _, _, rfl, ⟨_, a, b, rfl, ha, hb⟩, _, c, d, rfl, hc, hd⟩ := hx
    obtain ⟨_, _, _, rfl, ⟨_, _, rfl, _, a', b', rfl, ha', hb'⟩, _, _, rfl, _, c', d', rfl, hc',
      hd'⟩ := hy
    obtain rfl : a = a' := Option.some.inj (ha.symm.trans ha')
    obtain rfl : b = b' := Option.some.inj (hb.symm.trans hb')
    obtain rfl : c = c' := Option.some.inj (hc.symm.trans hc')
    obtain rfl : d = d' := Option.some.inj (hd.symm.trans hd')
    exact .products

theorem Hoisted.exchange {x y : Expr} (h : Hoisted x y) : x.Exchange y := by
  cases h with
  | hoist => exact Expr.exchange_hoist
  | product => exact Expr.exchange_product
  | double => exact Expr.exchange_double

theorem Detached.exchange {f : Elementwise} {x y : Expr} (h : Detached f x y) : x.Exchange y := by
  have product (i i' k : Nat) (a b : Expr) : Expr.Exchange (.binary i .product a b)
      (.unary k .async (.binary i' .product a b)) :=
    Expr.exchange_congruence.trans
      (Expr.exchange_congruence.binary i i' .product (Expr.exchange_congruence.refl a)
        (Expr.exchange_congruence.refl b)) Expr.exchange_async
  cases h with
  | products => exact Expr.exchange_congruence.binary _ _ _ (product ..) (product ..)

theorem Form.exchange (h : Form source target) (σ : Bindings) (x y : Expr)
    (hx : source.Filled σ x) (hy : target.Filled σ y) : x.Exchange y := by
  cases h with
  | hoisting h => exact (h.hoisted hx hy).exchange
  | split f differ => exact ((Splitting.split differ).detached hx hy).exchange

theorem Form.wild (h : Form source target) : source.Wild ∧ target.Wild ∧ source.Unscaled := by
  rcases h with ⟨_ | _ | _⟩ | _ <;> simp [Expr.Wild, Expr.Unscaled, UnaryOp.kind]

theorem Form.closed (h : Form source target) :
    ∀ w ∈ target.wildcardLeaves, w ∈ source.wildcardLeaves := by
  rcases h with ⟨_ | _ | _⟩ | _ <;> simp [Expr.wildcardLeaves]

theorem Formed.keeps_of_law {t : Template} (h : Formed t) {R : Expr → Expr → Prop}
    (law : ∀ σ x y, t.source.erase.Filled σ x → t.target.erase.Filled σ y → R x y) :
    Pass.Keeps ∅ R t.toPass.run := by
  obtain ⟨source, target, unscaled⟩ := h.wild
  rw [Expr.wild_erase] at source target
  rw [Expr.unscaled_erase] at unscaled
  refine Template.keeps source.rooted target.rooted unscaled fun σ x y hx hy => ?_
  exact law σ x y (source.filled_erase.2 hx) (target.filled_erase.2 hy)

theorem Formed.keeps_exchange {t : Template} (h : Formed t) : Pass.Keeps ∅ Expr.Exchange t.toPass.run :=
  h.keeps_of_law h.exchange

theorem Formed.closed {t : Template} (h : Formed t) : t.Closed := by
  simpa [Template.Closed] using Form.closed h

def BuiltIn (t : Template) : Prop :=
  ∃ s : Session, t ∈ (s.run transposeRules).1 ∨ t ∈ (s.run concurrentProducts).1

/-- A built-in rule as a pass, for the root or throughout. -/
def Drawn (p : Pass) : Prop := ∃ t, BuiltIn t ∧ (p = t.toPass ∨ p = t.everywhere)

def Throughout (p : Pass) : Prop := ∃ t, BuiltIn t ∧ p = t.everywhere

theorem BuiltIn.formed {t : Template} (h : BuiltIn t) : Formed t := by
  obtain ⟨s, listed | listed⟩ := h
  · exact (hoists_transposeRules s t listed).formed
  · exact formed_concurrentProducts s t listed

theorem Drawn.keeps_exchange {p : Pass} (h : Drawn p) : Pass.Keeps ∅ Expr.Exchange p.run := by
  obtain ⟨t, builtIn, rfl | rfl⟩ := h
  · exact builtIn.formed.keeps_exchange
  · exact builtIn.formed.keeps_exchange.everywhere Expr.exchange_congruence

theorem Throughout.drawn {p : Pass} (h : Throughout p) : Drawn p := by
  obtain ⟨t, builtIn, rfl⟩ := h
  exact ⟨t, builtIn, .inr rfl⟩

theorem Throughout.succeeds {p : Pass} (h : Throughout p) (e : Expr) : Succeeds (p.run e) := by
  obtain ⟨t, builtIn, rfl⟩ := h
  exact Pass.everywhere_succeeds (Template.unbroken builtIn.formed.closed) e

theorem validates_serial (s : Session) : (s.run serial).1.validates = false := by
  rw [serial, Session.run_bind, Compiler.run_pushAll]
  rfl

theorem passes_serial (s : Session) :
    (s.run serial).1.passes = (s.run transposeRules).1.map Template.everywhere := by
  rw [serial, Session.run_bind, Compiler.run_pushAll]
  simp only [Compiler.empty, List.nil_append]

theorem throughout_serial (s : Session) :
    (s.run serial).1.validates = false ∧ ∀ p ∈ (s.run serial).1.passes, Throughout p := by
  rw [passes_serial, List.forall_mem_map]
  exact ⟨validates_serial s, fun t ht => ⟨t, ⟨s, .inl ht⟩, rfl⟩⟩

theorem validates_concurrent (s : Session) : (s.run concurrent).1.validates = false := by
  have unvalidated := validates_serial s
  rw [concurrent, Session.run_bind, Session.run_bind, Compiler.run_pushAll]
  generalize s.run serial = made at *
  exact unvalidated

theorem passes_concurrent (s : Session) :
    ∃ s' : Session, (s.run concurrent).1.passes =
      (s.run serial).1.passes ++ (s'.run concurrentProducts).1.map Template.everywhere := by
  rw [concurrent, Session.run_bind, Session.run_bind, Compiler.run_pushAll]
  generalize s.run serial = made
  exact ⟨made.2, rfl⟩

theorem throughout_concurrent (s : Session) :
    (s.run concurrent).1.validates = false ∧ ∀ p ∈ (s.run concurrent).1.passes, Throughout p := by
  obtain ⟨s', passes⟩ := passes_concurrent s
  rw [passes, List.forall_mem_append, List.forall_mem_map]
  exact ⟨validates_concurrent s, (throughout_serial s).2, fun t ht => ⟨t, ⟨s', .inr ht⟩, rfl⟩⟩

/-- What compilers made of built-in rules do to an expression without wildcards. Whatever comes out
validates just if the expression does, and then has the same shape and the same elements. With rules
that run throughout something always comes out, unless validation is asked for and refuses what went
in. -/
theorem builtIn_sound :
    (∀ c : Compiler, (∀ p ∈ c.passes, Drawn p) →
      ∀ (nodes : Set Expr) (s : Session) (e out : Expr), Extant nodes s.next → e ∈ nodes →
        e.Ground → (s.run ((c.withValidation false).compile e).run).1 = .ok out →
          out.Ground ∧ out.shape = e.shape ∧ (out.validate = .ok () ↔ e.validate = .ok ()) ∧
          (e.Intact → e.validate = .ok () → (∃ d, e.value = .ok d) → e.Preserved out)) ∧
    (∀ c : Compiler, (∀ p ∈ c.passes, Throughout p) →
      ∀ (nodes : Set Expr) (s : Session) (e : Expr), Extant nodes s.next → e ∈ nodes → e.Ground →
        (∃ out, (s.run ((c.withValidation false).compile e).run).1 = .ok out) ∧
        ∀ stop, (s.run ((c.withValidation true).compile e).run).1 = .error stop ↔
          ∃ x, e.validate = .error (.error x) ∧ stop = .error (.invalid x)) ∧
    ∀ s : Session,
      ((s.run serial).1.validates = false ∧ ∀ p ∈ (s.run serial).1.passes, Throughout p) ∧
      (s.run concurrent).1.validates = false ∧
        ∀ p ∈ (s.run concurrent).1.passes, Throughout p := by
  refine ⟨fun c drawn nodes s e out extant he ground ok => ?_,
    fun c throughout nodes s e extant he ground => ⟨?_, fun stop => ?_⟩,
    fun s => ⟨throughout_serial s, throughout_concurrent s⟩⟩
  · have keeps (p : Pass) (hp : p ∈ c.passes) := (drawn p hp).keeps_exchange
    obtain ⟨more, -, -, made⟩ := Compiler.compile_spec (c := c.withValidation false)
      Expr.exchange_congruence keeps (Set.empty_subset nodes) he s extant
    have exchange := (made out ok).2
    refine ⟨exchange.ground_of ground, exchange.shape_eq, exchange.valid_iff, ?_⟩
    intro intact valid ⟨d, value⟩
    have good := Expr.good_of_value intact ground valid value
    exact good.preserved (exchange.good good) (exchange.alike good)
  · exact Compiler.compile_succeeds (c := c.withValidation false) rfl
      (fun p hp => (throughout p hp).succeeds) e s
  · exact Compiler.compile_error_iff (c := c.withValidation true) rfl Expr.exchange_congruence
      (fun x y h => h.valid_iff.2) (fun p hp => (throughout p hp).succeeds)
      (fun p hp => (throughout p hp).drawn.keeps_exchange) (Set.empty_subset nodes) extant he ground

def flippedProduct : Expr := .unary 6 .transpose (.unary 5 .transpose Expr.paddedProduct)

theorem flippedProduct_good : flippedProduct.Good :=
  Expr.good_unary.2 (Expr.good_unary.2 Expr.paddedProduct_good)

theorem flippedProduct_extant : ∃ nodes, Extant nodes 7 ∧ flippedProduct ∈ nodes := by
  obtain ⟨nodes, extant, mem⟩ := paddedProduct_extant
  have once := extant.insert (x := .unary 5 .transpose Expr.paddedProduct) rfl
    (by simpa [Expr.operands] using mem)
  have twice := once.insert (x := flippedProduct) rfl (by simp [Expr.operands, flippedProduct])
  exact ⟨_, twice, Set.mem_insert _ _⟩

theorem flippedProduct_builtIn_sound :
    ∃ out, (({ next := 7 } : Session).run
      ((((({} : Session).run concurrent).1.withValidation false).compile flippedProduct)).run).1 =
        .ok out ∧ flippedProduct.Preserved out := by
  obtain ⟨drawn, throughout, listed⟩ := builtIn_sound
  obtain ⟨nodes, extant, mem⟩ := flippedProduct_extant
  have good := flippedProduct_good
  have passes := (listed {}).2.2
  obtain ⟨out, ok⟩ :=
    (throughout _ passes nodes { next := 7 } flippedProduct extant mem good.ground).1
  have value := (Expr.exists_value_iff good.intact good.ground good.valid).2 good.fits
  have sound := drawn _ (fun p hp => (passes p hp).drawn) nodes { next := 7 } flippedProduct out
    extant mem good.ground ok
  exact ⟨out, ok, sound.2.2.2 good.intact good.valid value⟩

end Rules

end LazyMatrix
