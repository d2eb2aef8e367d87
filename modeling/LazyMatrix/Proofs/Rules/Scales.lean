import LazyMatrix.Proofs.Rules.Normal
import Mathlib.Algebra.Ring.Parity

/-! Where constants meet. Multiplying by a constant takes in the constant of an operand that is
scaled already, so the algebra alone never puts one over another. The rules rebuild nodes and keep
the constants they find: once a double transpose between two of them is gone, one is right over the
other. Whether that happens is told beforehand by the transposes between constants, of which the
rules keep the parity. -/

namespace LazyMatrix

namespace Expr

/-- Made of leaves by the operations of the algebra alone, each called in whatever session. -/
inductive Composed : Expr → Prop where
  | leaf (h : Nat) (x : Leaf) : Composed (.leaf h x)
  | unary (s : Session) {method : Expr → Build Expr} {x : Expr} (h : method ∈ [transpose, async])
      (hx : Composed x) : Composed (s.run (method x)).1
  | scale (s : Session) (c : Float) {x : Expr} (hx : Composed x) : Composed (s.run (x.scale c)).1
  | binary (s : Session) {method : Expr → Expr → Build Expr} {x y : Expr}
      (h : method ∈ [add, sub, mulElem, divElem, mul]) (hx : Composed x) (hy : Composed y) :
      Composed (s.run (method x y)).1

variable {x y : Expr} {h h' : Nat} {c : Float}

theorem exists_scale_of_kind (h : x.kind = .scale) : ∃ i c a, x = .unary i (.scale c) a := by
  cases x with
  | leaf i a => cases a <;> cases h
  | binary i op l r => cases op <;> cases h
  | unary i op a =>
    cases op with
    | scale c => exact ⟨i, c, a, rfl⟩
    | _ => cases h

theorem isOver_scale_iff : x.IsOver .scale [.scale] ↔
    ∃ i c j d a, x = .unary i (.scale c) (.unary j (.scale d) a) := by
  constructor
  · rintro ⟨own, below⟩
    obtain ⟨i, c, y, rfl⟩ := exists_scale_of_kind own
    obtain ⟨j, d, a, rfl⟩ := exists_scale_of_kind (List.singleton_injective below)
    exact ⟨i, c, j, d, a, rfl⟩
  · rintro ⟨i, c, j, d, a, rfl⟩
    exact ⟨rfl, rfl⟩

theorem lacks_scale (lacks : x.Lacks .scale [.scale]) (s : Session) :
    (s.run (x.scale c)).1.Lacks .scale [.scale] := by
  rw [scale.eq_def]
  split
  · have folded := lacks_unary.1 lacks
    exact lacks_unary.2 folded
  · next other =>
    -- The operand is no constant, or it would have been taken in.
    refine lacks_unary.2 ⟨lacks, ?_⟩
    rintro ⟨-, below⟩
    obtain ⟨i, d, a, rfl⟩ := exists_scale_of_kind (List.singleton_injective below)
    exact other i d a rfl

theorem Composed.lacks (h : Composed x) : x.Lacks .scale [.scale] := by
  induction h with
  | leaf h a => simp [Lacks, IsOver, operands]
  | unary s h _ ih =>
    simp only [List.mem_cons, List.not_mem_nil, or_false] at h
    obtain rfl | rfl := h
    all_goals exact lacks_unary.2 ⟨ih, by simp [UnaryOp.kind]⟩
  | scale s c _ ih => exact lacks_scale ih s
  | binary s h _ _ ihx ihy =>
    simp only [List.mem_cons, List.not_mem_nil, or_false] at h
    obtain rfl | rfl | rfl | rfl | rfl := h
    all_goals exact lacks_binary.2 ⟨ihx, ihy, by simp [BinaryOp.kind]⟩

/-- How many transposes stand over a constant, one right over the other and nothing else on it. -/
def scaleDepth? : Expr → Option Nat
  | .unary _ (.scale _) _ => some 0
  | .unary _ .transpose x => x.scaleDepth?.map (· + 1)
  | _ => none

theorem scaleDepth?_eq_zero : x.scaleDepth? = some 0 ↔ x.kind = .scale := by
  cases x with
  | leaf i a => cases a <;> simp [scaleDepth?, kind, Leaf.kind]
  | unary i op a => cases op <;> simp [scaleDepth?, kind, UnaryOp.kind]
  | binary i op l r => cases op <;> simp [scaleDepth?, kind, BinaryOp.kind]

theorem scaleDepth?_eq_succ {n : Nat} : x.scaleDepth? = some (n + 1) ↔
    ∃ i y, x = .unary i .transpose y ∧ y.scaleDepth? = some n := by
  cases x with
  | unary i op a => cases op <;> simp [scaleDepth?]
  | _ => simp [scaleDepth?]

/-- A constant over a constant, with an even number of transposes between them and nothing else. -/
def IsRescaling : Expr → Prop
  | .unary _ (.scale _) x => ∃ n, x.scaleDepth? = some n ∧ Even n
  | _ => False

theorem isRescaling_iff : x.IsRescaling ↔
    ∃ i c y, x = .unary i (.scale c) y ∧ ∃ n, y.scaleDepth? = some n ∧ Even n := by
  cases x with
  | unary i op y => cases op <;> simp [IsRescaling]
  | _ => simp [IsRescaling]

def Rescales (e : Expr) : Prop := ∃ x ∈ e.postorder, x.IsRescaling

def scaleParity (x : Expr) : Option Nat := x.scaleDepth?.map (· % 2)

@[simp] theorem scaleParity_leaf {a : Leaf} : (leaf h a).scaleParity = none := rfl

@[simp] theorem scaleParity_scale : (unary h (.scale c) x).scaleParity = some 0 := rfl

@[simp] theorem scaleParity_transpose :
    (unary h .transpose x).scaleParity = x.scaleParity.map fun n => (n + 1) % 2 := by
  simp [scaleParity, scaleDepth?, Function.comp_def]

theorem scaleParity_double :
    (unary h .transpose (unary h' .transpose x)).scaleParity = x.scaleParity := by
  simp [scaleParity, scaleDepth?, Function.comp_def, Nat.add_assoc]

@[simp] theorem scaleParity_async : (unary h .async x).scaleParity = none := rfl

@[simp] theorem scaleParity_binary {op : BinaryOp} : (binary h op x y).scaleParity = none := rfl

theorem scaleParity_eq_zero : x.scaleParity = some 0 ↔ ∃ n, x.scaleDepth? = some n ∧ Even n := by
  simp [scaleParity, Nat.even_iff]

theorem not_rescales_leaf {a : Leaf} : ¬ (leaf h a).Rescales := by simp [Rescales, IsRescaling]

theorem rescales_unary {op : UnaryOp} : (unary h op x).Rescales ↔
    x.Rescales ∨ op.kind = .scale ∧ x.scaleParity = some 0 := by
  have own : (unary h op x).IsRescaling ↔ op.kind = .scale ∧ x.scaleParity = some 0 := by
    cases op <;> simp [IsRescaling, UnaryOp.kind, scaleParity_eq_zero]
  simp [Rescales, or_and_right, exists_or, own]

theorem rescales_binary {op : BinaryOp} :
    (binary h op x y).Rescales ↔ x.Rescales ∨ y.Rescales := by
  simp [Rescales, or_and_right, exists_or, IsRescaling]

/-- `y` has constants over constants just where `x` has them, so far as parity tells. -/
structure SameScales (x y : Expr) : Prop where
  parity_eq : y.scaleParity = x.scaleParity
  rescales_iff : y.Rescales ↔ x.Rescales

theorem sameScales_congruence : Congruence SameScales where
  refl x := ⟨rfl, Iff.rfl⟩
  trans h h' := ⟨h'.parity_eq.trans h.parity_eq, h'.rescales_iff.trans h.rescales_iff⟩
  unary i i' op h := by
    refine ⟨?_, by rw [rescales_unary, rescales_unary, h.rescales_iff, h.parity_eq]⟩
    cases op <;> simp [h.parity_eq]
  binary i i' op hl hr :=
    ⟨rfl, by rw [rescales_binary, rescales_binary, hl.rescales_iff, hr.rescales_iff]⟩

theorem scaleDepth?_le_one (lacks : x.Lacks .transpose [.transpose]) {n : Nat}
    (h : x.scaleDepth? = some n) : n ≤ 1 := by
  by_contra more
  obtain ⟨m, rfl⟩ : ∃ m, n = m + 2 := ⟨n - 2, by omega⟩
  obtain ⟨i, y, rfl, below⟩ := scaleDepth?_eq_succ.1 h
  obtain ⟨j, a, rfl, -⟩ := scaleDepth?_eq_succ.1 below
  exact lacks _ (mem_postorder_self _) (isOver_transpose_iff.2 ⟨i, j, a, rfl⟩)

theorem rescales_iff_not_lacks (lacks : x.Lacks .transpose [.transpose]) :
    x.Rescales ↔ ¬ x.Lacks .scale [.scale] := by
  simp only [Rescales, Lacks, not_forall, not_not, exists_prop]
  refine exists_congr fun y => and_congr_right fun hy => ⟨fun rescaling => ?_, fun place => ?_⟩
  · obtain ⟨i, c, a, rfl, n, depth, even⟩ := isRescaling_iff.1 rescaling
    have below : a ∈ x.postorder := mem_postorder_operand hy (by simp [operands])
    have lacks' : a.Lacks .transpose [.transpose] :=
      fun z hz => lacks z (mem_postorder_trans hz below)
    obtain rfl : n = 0 := by
      have le := scaleDepth?_le_one lacks' depth
      obtain ⟨m, rfl⟩ := even
      omega
    exact ⟨rfl, by simp [operands, scaleDepth?_eq_zero.1 depth]⟩
  · obtain ⟨i, c, j, d, a, rfl⟩ := isOver_scale_iff.1 place
    exact isRescaling_iff.2 ⟨i, c, _, rfl, 0, rfl, .zero⟩

end Expr

namespace Rules

open LazyMatrix.Expr

theorem Hoisted.sameScales {x y : Expr} (h : Hoisted x y) : SameScales x y := by
  cases h with
  | hoist => exact ⟨by simp, by simp [rescales_unary, rescales_binary, UnaryOp.kind]⟩
  | product => exact ⟨by simp, by simp [rescales_unary, rescales_binary, UnaryOp.kind, or_comm]⟩
  | double => exact ⟨scaleParity_double.symm, by simp [rescales_unary, UnaryOp.kind]⟩

theorem Detached.sameScales {f : Elementwise} {x y : Expr} (h : Detached f x y) :
    SameScales x y := by
  cases h with
  | products => exact ⟨by simp, by simp [rescales_unary, rescales_binary, UnaryOp.kind]⟩

theorem Form.sameScales {source target : Expr} (h : Form source target) (σ : Bindings) (x y : Expr)
    (hx : source.Filled σ x) (hy : target.Filled σ y) : SameScales x y := by
  cases h with
  | hoisting h => exact (h.hoisted hx hy).sameScales
  | split f differ => exact ((Splitting.split differ).detached hx hy).sameScales

theorem Throughout.keeps_scales {p : Pass} (h : Throughout p) : Pass.Keeps ∅ SameScales p.run := by
  obtain ⟨t, builtIn, rfl⟩ := h
  have formed : Formed t := builtIn.formed
  exact (formed.keeps_of_law (Form.sameScales formed)).everywhere sameScales_congruence

variable {nodes : Set Expr} {e : Expr}

theorem run_meets {ps : List Pass} (throughout : ∀ p ∈ ps, Throughout p) (he : e ∈ nodes)
    (double : Attempts nodes (Compiler.run ps e) fun more y =>
      y ∈ more ∧ y.Lacks .transpose [.transpose]) :
    Attempts nodes (Compiler.run ps e) fun more y =>
      y ∈ more ∧ (¬ y.Lacks .scale [.scale] ↔ e.Rescales) := by
  have same : Attempts nodes (Compiler.run ps e) fun more y => y ∈ more ∧ SameScales e y :=
    Compiler.run_spec sameScales_congruence.renewal (fun p hp => (throughout p hp).keeps_scales)
      (Set.empty_subset nodes) he
  refine (same.and (double.mono fun _ _ _ made => made.2)).mono ?_
  rintro more y - ⟨⟨hy, same⟩, lacks⟩
  exact ⟨hy, by rw [← rescales_iff_not_lacks lacks, same.rescales_iff]⟩

theorem compile_meets {c : Compiler} (unvalidated : c.validates = false)
    (throughout : ∀ p ∈ c.passes, Throughout p)
    (double : ∀ nodes : Set Expr, e ∈ nodes →
      Attempts nodes (Compiler.run c.passes e) fun more y =>
        y ∈ more ∧ y.Lacks .transpose [.transpose])
    {s : Session} (extant : Extant nodes s.next) (he : e ∈ nodes) :
    ∃ out after, s.run (c.compile e).run = (.ok out, after) ∧
      (¬ out.Lacks .scale [.scale] ↔ e.Rescales) := by
  have ran (nodes : Set Expr) (he : e ∈ nodes) := run_meets throughout he (double nodes he)
  obtain ⟨out, after, compiled, meets, -⟩ := compile_of_run unvalidated throughout ran extant he
  exact ⟨out, after, compiled, meets⟩

theorem serial_meets (s s' : Session) (extant : Extant nodes s'.next) (he : e ∈ nodes) :
    ∃ out after, s'.run ((s.run serial).1.compile e).run = (.ok out, after) ∧
      (¬ out.Lacks .scale [.scale] ↔ e.Rescales) := by
  obtain ⟨unvalidated, throughout⟩ := throughout_serial s
  exact compile_meets unvalidated throughout (fun _ => serial_lacks s) extant he

theorem concurrent_meets (s s' : Session) (extant : Extant nodes s'.next) (he : e ∈ nodes) :
    ∃ out after, s'.run ((s.run concurrent).1.compile e).run = (.ok out, after) ∧
      (¬ out.Lacks .scale [.scale] ↔ e.Rescales) := by
  obtain ⟨unvalidated, throughout⟩ := throughout_concurrent s
  exact compile_meets unvalidated throughout (fun _ => concurrent_lacks_double s) extant he

/-- Nothing that the algebra composes has a constant right over a constant. What the compilers make
of an expression has one just if the expression has two constants with nothing between them but an
even number of transposes. -/
theorem scales_meet_iff (s s' : Session) (nodes : Set Expr) (e : Expr)
    (extant : Extant nodes s'.next) (he : e ∈ nodes) :
    (e.Composed → e.Lacks .scale [.scale]) ∧
    (∃ out after, s'.run ((s.run serial).1.compile e).run = (.ok out, after) ∧
      (¬ out.Lacks .scale [.scale] ↔ e.Rescales)) ∧
    ∃ out after, s'.run ((s.run concurrent).1.compile e).run = (.ok out, after) ∧
      (¬ out.Lacks .scale [.scale] ↔ e.Rescales) :=
  ⟨Composed.lacks, serial_meets s s' extant he, concurrent_meets s s' extant he⟩

def flips : Nat → Expr
  | 0 => .unary 1 (.scale 2) (.leaf 0 (.wildcard ⟨0, "?x"⟩))
  | n + 1 => .unary (n + 2) .transpose (flips n)

def scaledFlips (n : Nat) : Expr := .unary (n + 2) (.scale 3) (flips n)

theorem flips_composed (n : Nat) : (flips n).Composed := by
  induction n with
  | zero => exact .scale { next := 1 } 2 (.leaf 0 _)
  | succ n ih => exact .unary { next := n + 2 } (.head _) ih

theorem scaledFlips_composed (n : Nat) : (scaledFlips (n + 1)).Composed :=
  .scale { next := n + 3 } 3 (flips_composed (n + 1))

theorem flips_extant (n : Nat) : ∃ nodes, Extant nodes (n + 2) ∧ flips n ∈ nodes := by
  induction n with
  | zero =>
    have leaf := (extant_empty 0).insert (x := .leaf 0 (.wildcard ⟨0, "?x"⟩)) rfl
      (by simp [Expr.operands])
    exact ⟨_, leaf.insert (x := flips 0) rfl (by simp [Expr.operands, flips]), .inl rfl⟩
  | succ n ih =>
    obtain ⟨nodes, extant, mem⟩ := ih
    exact ⟨_, extant.insert (x := flips (n + 1)) rfl (by simpa [Expr.operands, flips] using mem),
      .inl rfl⟩

theorem scaledFlips_extant (n : Nat) : ∃ nodes, Extant nodes (n + 3) ∧ scaledFlips n ∈ nodes := by
  obtain ⟨nodes, extant, mem⟩ := flips_extant n
  exact ⟨_, extant.insert (x := scaledFlips n) rfl
    (by simpa [Expr.operands, scaledFlips] using mem), .inl rfl⟩

theorem scaleDepth?_flips (n : Nat) : (flips n).scaleDepth? = some n := by
  induction n with
  | zero => rfl
  | succ n ih => simp [flips, scaleDepth?, ih]

theorem not_rescales_flips (n : Nat) : ¬ (flips n).Rescales := by
  induction n with
  | zero => simp [flips, rescales_unary, not_rescales_leaf]
  | succ n ih => simpa [flips, rescales_unary, UnaryOp.kind] using ih

theorem rescales_scaledFlips {n : Nat} : (scaledFlips n).Rescales ↔ Even n := by
  simp [scaledFlips, rescales_unary, UnaryOp.kind, not_rescales_flips, scaleParity_eq_zero,
    scaleDepth?_flips]

theorem threeFlips_scales_meet_iff :
    (scaledFlips 3).Composed ∧ (scaledFlips 3).Lacks .scale [.scale] ∧
    (∃ out after, ({ next := 6 } : Session).run
        ((({} : Session).run serial).1.compile (scaledFlips 3)).run = (.ok out, after) ∧
      out.Lacks .scale [.scale]) ∧
    ∃ out after, ({ next := 6 } : Session).run
        ((({} : Session).run concurrent).1.compile (scaledFlips 3)).run = (.ok out, after) ∧
      out.Lacks .scale [.scale] := by
  obtain ⟨nodes, extant, mem⟩ := scaledFlips_extant 3
  have composed := scaledFlips_composed 2
  have apart : ¬ (scaledFlips 3).Rescales := by
    rw [rescales_scaledFlips]
    decide
  obtain ⟨lacks, ⟨out, after, compiled, meets⟩, out', after', compiled', meets'⟩ :=
    scales_meet_iff {} { next := 6 } nodes (scaledFlips 3) extant mem
  exact ⟨composed, lacks composed, ⟨out, after, compiled, not_not.1 (mt meets.1 apart)⟩, out',
    after', compiled', not_not.1 (mt meets'.1 apart)⟩

theorem twoFlips_scales_meet :
    (scaledFlips 2).Composed ∧ (∃ nodes, Extant nodes 5 ∧ scaledFlips 2 ∈ nodes) ∧
    (∃ out after, ({ next := 5 } : Session).run
        ((({} : Session).run serial).1.compile (scaledFlips 2)).run = (.ok out, after) ∧
      ¬ out.Lacks .scale [.scale]) ∧
    ∃ out after, ({ next := 5 } : Session).run
        ((({} : Session).run concurrent).1.compile (scaledFlips 2)).run = (.ok out, after) ∧
      ¬ out.Lacks .scale [.scale] := by
  obtain ⟨nodes, extant, mem⟩ := scaledFlips_extant 2
  have rescales : (scaledFlips 2).Rescales := rescales_scaledFlips.2 even_two
  obtain ⟨out, after, compiled, meets⟩ := serial_meets {} { next := 5 } extant mem
  obtain ⟨out', after', compiled', meets'⟩ := concurrent_meets {} { next := 5 } extant mem
  exact ⟨scaledFlips_composed 1, ⟨nodes, extant, mem⟩, ⟨out, after, compiled, meets.2 rescales⟩,
    out', after', compiled', meets'.2 rescales⟩

end Rules

end LazyMatrix
