import LazyMatrix.Proofs.Expr.Postorder
import LazyMatrix.Proofs.Rules.Soundness
import Mathlib.Algebra.Order.Group.Multiset

/-! What the rules that bring transposes towards the root do to a tree. Each of them takes one or two
transposes away and has every other operator and every operand as often as before, so a pass that
changes anything leaves fewer transposes, and one that does not leaves the very same node. Nodes are
counted as evaluation meets them, a shared one at each of its places. -/

namespace LazyMatrix

namespace Expr

def total {M : Type} [AddCommMonoid M] (weight : Expr → M) (e : Expr) : M :=
  (e.postorder.map weight).sum

def occurrences (k : Kind) : Expr → Nat := total fun x => if x.kind = k then 1 else 0

def constants : Expr → Multiset Float := total fun
  | .unary _ (.scale c) _ => {c}
  | _ => 0

def leafNodes : Expr → Multiset Expr := total fun
  | .leaf h x => {.leaf h x}
  | _ => 0

section

variable {M : Type} [AddCommMonoid M] (weight : Expr → M)

@[simp] theorem total_unary (h : Nat) (op : UnaryOp) (x : Expr) :
    (unary h op x).total weight = x.total weight + weight (.unary h op x) := by
  simp [total, postorder]

@[simp] theorem total_binary (h : Nat) (op : BinaryOp) (l r : Expr) :
    (binary h op l r).total weight =
      l.total weight + r.total weight + weight (.binary h op l r) := by
  simp [total, postorder, add_assoc]

variable {weight}

theorem occurrences_unary (k : Kind) (h : Nat) (op : UnaryOp) (x : Expr) :
    (unary h op x).occurrences k = x.occurrences k + if op.kind = k then 1 else 0 :=
  total_unary ..

theorem occurrences_binary (k : Kind) (h : Nat) (op : BinaryOp) (l r : Expr) :
    (binary h op l r).occurrences k =
      l.occurrences k + r.occurrences k + if op.kind = k then 1 else 0 :=
  total_binary ..

/-- A weight that is nothing for a transpose, and that depends on the operator alone for another
node that has operands. -/
structure Blind (weight : Expr → M) : Prop where
  transpose : ∀ h x, weight (.unary h .transpose x) = 0
  unary : ∀ h h' op x x', weight (.unary h op x) = weight (.unary h' op x')
  binary : ∀ h h' op l r l' r', weight (.binary h op l r) = weight (.binary h' op l' r')

theorem blind_kind {k : Kind} (other : k ≠ .transpose) :
    Blind fun x => if x.kind = k then 1 else 0 where
  transpose _ _ := if_neg other.symm
  unary _ _ _ _ _ := rfl
  binary _ _ _ _ _ _ _ := rfl

/-- `y` is `x` with some transposes taken away, or is `x` itself. -/
structure Trims (x y : Expr) : Prop where
  total_eq : ∀ {M : Type} [AddCommMonoid M] {weight : Expr → M}, Blind weight →
    y.total weight = x.total weight
  le : y.occurrences .transpose ≤ x.occurrences .transpose
  eq_of_eq : y.occurrences .transpose = x.occurrences .transpose → y = x

end

theorem trims_refl (x : Expr) : Trims x x := ⟨fun _ => rfl, le_rfl, fun _ => rfl⟩

theorem Trims.trans {x y z : Expr} (h : Trims x y) (h' : Trims y z) : Trims x z where
  total_eq blind := (h'.total_eq blind).trans (h.total_eq blind)
  le := h'.le.trans h.le
  eq_of_eq same := by
    have le := h.le
    have le' := h'.le
    rw [h'.eq_of_eq (by omega), h.eq_of_eq (by omega)]

theorem Trims.of_renewed {x z : Expr} (h : Renewed Trims x z) : Trims x z := by
  cases h with
  | leaf h x => exact trims_refl _
  | @unary h h' op x y operand kept =>
    refine ⟨fun blind => ?_, ?_, fun same => ?_⟩
    · rw [total_unary, total_unary, operand.total_eq blind, blind.unary]
    · rw [occurrences_unary, occurrences_unary]
      exact Nat.add_le_add_right operand.le _
    · rw [occurrences_unary, occurrences_unary] at same
      obtain rfl := operand.eq_of_eq (Nat.add_right_cancel same)
      rw [kept rfl]
  | @binary h h' op l r l' r' left right kept =>
    have le := left.le
    have le' := right.le
    refine ⟨fun blind => ?_, ?_, fun same => ?_⟩
    · rw [total_binary, total_binary, left.total_eq blind, right.total_eq blind, blind.binary]
    · rw [occurrences_binary, occurrences_binary]
      omega
    · rw [occurrences_binary, occurrences_binary] at same
      obtain rfl := left.eq_of_eq (by omega)
      obtain rfl := right.eq_of_eq (by omega)
      rw [kept rfl rfl]

theorem trims_renewal : Renewal Trims := ⟨trims_refl, Trims.trans, Trims.of_renewed⟩

end Expr

namespace Rules

theorem Hoisted.total_eq {x y : Expr} (h : Hoisted x y) {M : Type} [AddCommMonoid M]
    {weight : Expr → M} (blind : Expr.Blind weight) : y.total weight = x.total weight := by
  cases h with
  | hoist =>
    simp only [Expr.total_unary, Expr.total_binary, blind.transpose, add_zero]
    rw [blind.binary]
  | @product a b =>
    simp only [Expr.total_unary, Expr.total_binary, blind.transpose, add_zero]
    rw [add_comm (b.total weight), blind.binary]
  | double => simp only [Expr.total_unary, blind.transpose, add_zero]

theorem Hoisted.occurrences_lt {x y : Expr} (h : Hoisted x y) :
    y.occurrences .transpose < x.occurrences .transpose := by
  cases h <;>
    simp only [Expr.occurrences_unary, Expr.occurrences_binary, UnaryOp.kind, BinaryOp.kind,
      reduceCtorEq, if_true, if_false] <;> omega

theorem Hoisted.trims {x y : Expr} (h : Hoisted x y) : Expr.Trims x y :=
  ⟨h.total_eq, h.occurrences_lt.le, fun same => absurd same h.occurrences_lt.ne⟩

theorem Hoists.keeps_trims {t : Template} (h : Hoists t) : Pass.Keeps ∅ Expr.Trims t.everywhere.run := by
  have once := h.formed.keeps_of_law fun σ x y hx hy => (Hoisting.hoisted h hx hy).trims
  exact (once.settles Expr.trims_renewal).everywhere

theorem serial_keeps (s : Session) :
    ∀ p ∈ (s.run serial).1.passes, Pass.Keeps ∅ Expr.Trims p.run := by
  rw [passes_serial, List.forall_mem_map]
  exact fun t ht => (hoists_transposeRules s t ht).keeps_trims

/-- The serial compiler takes transposes away and does nothing else: it leaves as many of them only
if it gives back the very node it was given. Every other operator is met as often as before, with
the same constants for scales, and so is every leaf. -/
theorem serial_takes_transposes_away (s s' : Session) (nodes : Set Expr) (e : Expr)
    (extant : Extant nodes s'.next) (he : e ∈ nodes) :
    ∃ out, (s'.run ((s.run serial).1.compile e).run).1 = .ok out ∧
      out.occurrences .transpose ≤ e.occurrences .transpose ∧
      (out.occurrences .transpose = e.occurrences .transpose ↔ out.same e = true) ∧
      (∀ k ≠ .transpose, out.occurrences k = e.occurrences k) ∧
      out.constants = e.constants ∧ out.leafNodes = e.leafNodes := by
  have succeeds (p : Pass) (hp : p ∈ (s.run serial).1.passes) : ∀ e, Succeeds (p.run e) :=
    ((throughout_serial s).2 p hp).succeeds
  obtain ⟨out, ok⟩ := Compiler.compile_succeeds (validates_serial s) succeeds e s'
  obtain ⟨more, le, extant', made⟩ := Compiler.compile_keeps (c := (s.run serial).1)
    Expr.trims_renewal (serial_keeps s) (Set.empty_subset nodes) he s' extant
  obtain ⟨mem, trims⟩ := made out ok
  refine ⟨out, ok, trims.le, ⟨fun same => ?_, fun same => ?_⟩,
    fun k other => trims.total_eq (Expr.blind_kind other), trims.total_eq ?_, trims.total_eq ?_⟩
  · simp [trims.eq_of_eq same, Expr.same]
  · rw [extant'.eq_of_same mem (le he) same]
  · refine ⟨fun _ _ => rfl, fun _ _ op _ _ => ?_, fun _ _ _ _ _ _ _ => rfl⟩
    cases op <;> rfl
  · exact ⟨fun _ _ => rfl, fun _ _ _ _ _ => rfl, fun _ _ _ _ _ _ _ => rfl⟩

theorem flippedProduct_takes_transposes_away :
    flippedProduct.occurrences .transpose = 3 ∧
    ∃ out, (({ next := 7 } : Session).run
      ((({} : Session).run serial).1.compile flippedProduct).run).1 = .ok out ∧
      out.occurrences .transpose ≤ 3 ∧ out.occurrences .product = 1 ∧
      out.leafNodes = {Expr.paddedColumn, Expr.paddedColumn, Expr.paddedColumn} := by
  obtain ⟨nodes, extant, mem⟩ := flippedProduct_extant
  obtain ⟨out, ok, le, -, others, -, leaves⟩ :=
    serial_takes_transposes_away {} { next := 7 } nodes flippedProduct extant mem
  exact ⟨rfl, out, ok, le, others .product (by decide), leaves⟩

end Rules

end LazyMatrix
