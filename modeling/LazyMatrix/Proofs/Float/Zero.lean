import Mathlib
import LazyMatrix.Expr.Basic

/-! Floats up to the sign of zero. Sums, differences and products of numbers that differ at most in
the sign of a zero differ in no more than that. A quotient shows the sign of a zero divisor, unless
the dividend is zero or not a number itself. -/

namespace LazyMatrix

open Float.Model Float.Model.UnpackedFloat

/-- Equal as numbers, or neither of them a number. -/
def Agree (x y : Float) : Prop := x == y ∨ x.isNaN ∧ y.isNaN

def IsZero (x : Float) : Prop := x = 0 ∨ x = -0

theorem agree_iff {x y : Float} : Agree x y ↔ x = y ∨ IsZero x ∧ IsZero y := by
  have positive : (0 : Float) ≠ Float.nan := by decide
  have negative : (-0 : Float) ≠ Float.nan := by decide
  simp only [Agree, IsZero, Float.beq_iff_ne_nan_and_eq, Float.isNaN_eq_decide_eq_nan,
    decide_eq_true_eq]
  grind

theorem eq_of_isNaN {x y : Float} (hx : x.isNaN) (hy : y.isNaN) : x = y := by
  rw [Float.isNaN_eq_decide_eq_nan, decide_eq_true_eq] at hx hy
  exact hx.trans hy.symm

instance (x y : Float) : Decidable (Agree x y) :=
  inferInstanceAs (Decidable (x == y ∨ x.isNaN ∧ y.isNaN))

namespace Agree

variable {x y z : Float}

theorem refl (x : Float) : Agree x x := agree_iff.2 (.inl rfl)

theorem symm (h : Agree x y) : Agree y x := by
  rw [agree_iff] at h ⊢
  exact h.imp Eq.symm And.symm

theorem comm : Agree x y ↔ Agree y x := ⟨symm, symm⟩

theorem trans (h : Agree x y) (h' : Agree y z) : Agree x z := by
  rw [agree_iff] at h h' ⊢
  obtain rfl | ⟨hx, hy⟩ := h
  · exact h'
  · exact .inr ⟨hx, h'.elim (fun same => same ▸ hy) And.right⟩

end Agree

theorem unpack_pack_zero (s : Sign) : (Float.Model.pack (.zero s)).unpack = .zero s :=
  unpack_packedZero

theorem ofModel_pack_unpack (x : Float) : Float.ofModel (.pack x.toModel.unpack) = x := by
  obtain ⟨⟨⟨bits⟩, valid⟩⟩ := x
  simp only [Float.Model.pack, Float.Model.unpack, pack_unpack_of_valid valid]

theorem isNaN_iff_unpack {x : Float} : x.isNaN ↔ x.toModel.unpack = .notANumber := isNaN_iff

theorem isZero_iff {x : Float} : IsZero x ↔ ∃ s, x.toModel.unpack = .zero s := by
  constructor
  · rintro (rfl | rfl)
    · exact ⟨.positive, unpack_pack_zero .positive⟩
    · exact ⟨.negative, unpack_pack_zero .negative⟩
  · rintro ⟨s, zero⟩
    rw [← ofModel_pack_unpack x, zero]
    cases s with
    | positive => exact .inl rfl
    | negative => exact .inr rfl

def ZeroAlike (a b : UnpackedFloat) : Prop := a = b ∨ (∃ s, a = .zero s) ∧ ∃ t, b = .zero t

theorem agree_iff_zeroAlike {x y : Float} :
    Agree x y ↔ ZeroAlike x.toModel.unpack y.toModel.unpack := by
  rw [agree_iff, ZeroAlike, isZero_iff, isZero_iff]
  refine or_congr_left ⟨fun h => h ▸ rfl, fun same => ?_⟩
  rw [← ofModel_pack_unpack x, same, ofModel_pack_unpack]

namespace ZeroAlike

variable {a a' b b' : UnpackedFloat}

theorem refl (a : UnpackedFloat) : ZeroAlike a a := .inl rfl

theorem zeros (s t : Sign) : ZeroAlike (.zero s) (.zero t) := .inr ⟨⟨s, rfl⟩, t, rfl⟩

theorem agree (h : ZeroAlike a b) : Agree (.ofModel (.pack a)) (.ofModel (.pack b)) := by
  obtain rfl | ⟨⟨s, rfl⟩, t, rfl⟩ := h
  · exact Agree.refl _
  · refine agree_iff_zeroAlike.2 ?_
    rw [unpack_pack_zero, unpack_pack_zero]
    exact zeros s t

theorem map₂ {g : UnpackedFloat → UnpackedFloat → UnpackedFloat}
    (both : ∀ s t, ∃ u, g (.zero s) (.zero t) = .zero u)
    (left : ∀ s t b, (∀ u, b ≠ .zero u) → ZeroAlike (g (.zero s) b) (g (.zero t) b))
    (right : ∀ a s t, (∀ u, a ≠ .zero u) → ZeroAlike (g a (.zero s)) (g a (.zero t)))
    (ha : ZeroAlike a a') (hb : ZeroAlike b b') : ZeroAlike (g a b) (g a' b') := by
  obtain rfl | ⟨⟨s, rfl⟩, t, rfl⟩ := ha <;> obtain rfl | ⟨⟨s', rfl⟩, t', rfl⟩ := hb
  · exact refl _
  · by_cases zero : ∃ u, a = .zero u
    · obtain ⟨u, rfl⟩ := zero
      exact .inr ⟨both u s', both u t'⟩
    · exact right a s' t' (not_exists.1 zero)
  · by_cases zero : ∃ u, b = .zero u
    · obtain ⟨u, rfl⟩ := zero
      exact .inr ⟨both s u, both t u⟩
    · exact left s t b (not_exists.1 zero)
  · exact .inr ⟨both s s', both t t'⟩

variable {f : Format}

theorem add (ha : ZeroAlike a a') (hb : ZeroAlike b b') :
    ZeroAlike (UnpackedFloat.add f a b) (UnpackedFloat.add f a' b') := by
  refine map₂ (fun s t => ?_) (fun s t b other => ?_) (fun a s t other => ?_) ha hb
  · cases s <;> cases t <;> exact ⟨_, rfl⟩
  · cases b with
    | zero u => exact absurd rfl (other u)
    | notANumber | infinity | finite => exact refl _
  · cases a with
    | zero u => exact absurd rfl (other u)
    | notANumber | infinity | finite => exact refl _

theorem sub (ha : ZeroAlike a a') (hb : ZeroAlike b b') :
    ZeroAlike (UnpackedFloat.sub f a b) (UnpackedFloat.sub f a' b') := by
  refine map₂ (fun s t => ?_) (fun s t b other => ?_) (fun a s t other => ?_) ha hb
  · cases s <;> cases t <;> exact ⟨_, rfl⟩
  · cases b with
    | zero u => exact absurd rfl (other u)
    | notANumber | infinity | finite => exact refl _
  · cases a with
    | zero u => exact absurd rfl (other u)
    | notANumber | infinity | finite => exact refl _

theorem mul (ha : ZeroAlike a a') (hb : ZeroAlike b b') :
    ZeroAlike (UnpackedFloat.mul f a b) (UnpackedFloat.mul f a' b') := by
  refine map₂ (fun s t => ⟨_, rfl⟩) (fun s t b _ => ?_) (fun a s t _ => ?_) ha hb
  · cases b with
    | zero | finite => exact zeros _ _
    | notANumber | infinity => exact refl _
  · cases a with
    | zero | finite => exact zeros _ _
    | notANumber | infinity => exact refl _

theorem div_left (ha : ZeroAlike a a') :
    ZeroAlike (UnpackedFloat.div f a b) (UnpackedFloat.div f a' b) := by
  obtain rfl | ⟨⟨s, rfl⟩, t, rfl⟩ := ha
  · exact refl _
  · cases b with
    | infinity | finite => exact zeros _ _
    | notANumber | zero => exact refl _

end ZeroAlike

namespace Agree

variable {x x' y y' : Float}

theorem add (hx : Agree x x') (hy : Agree y y') : Agree (x + y) (x' + y') :=
  (ZeroAlike.add (agree_iff_zeroAlike.1 hx) (agree_iff_zeroAlike.1 hy)).agree

theorem sub (hx : Agree x x') (hy : Agree y y') : Agree (x - y) (x' - y') :=
  (ZeroAlike.sub (agree_iff_zeroAlike.1 hx) (agree_iff_zeroAlike.1 hy)).agree

theorem mul (hx : Agree x x') (hy : Agree y y') : Agree (x * y) (x' * y') :=
  (ZeroAlike.mul (agree_iff_zeroAlike.1 hx) (agree_iff_zeroAlike.1 hy)).agree

theorem div (hx : Agree x x') (y : Float) : Agree (x / y) (x' / y) :=
  (ZeroAlike.div_left (agree_iff_zeroAlike.1 hx)).agree

end Agree

theorem div_zero_cases (f : Format) (a : UnpackedFloat) :
    ((a = .notANumber ∨ ∃ u, a = .zero u) ∧ ∀ s, UnpackedFloat.div f a (.zero s) = .notANumber) ∨
      ¬ (a = .notANumber ∨ ∃ u, a = .zero u) ∧
        ∃ u : Sign, ∀ s, UnpackedFloat.div f a (.zero s) = .infinity (u / s) := by
  cases a with
  | notANumber => exact .inl ⟨.inl rfl, fun _ => rfl⟩
  | zero u => exact .inl ⟨.inr ⟨u, rfl⟩, fun _ => rfl⟩
  | infinity u | finite u => exact .inr ⟨by simp, u, fun _ => rfl⟩

theorem not_agree_infinities (u : Sign) {s t : Sign} (other : s ≠ t) :
    ¬ Agree (.ofModel (.pack (.infinity (u / s)))) (.ofModel (.pack (.infinity (u / t)))) := by
  cases s <;> cases t
  case positive.positive | negative.negative => exact absurd rfl other
  all_goals cases u <;> decide

theorem agree_div_iff {x x' y y' : Float} (hx : Agree x x') (hy : Agree y y') :
    Agree (x / y) (x' / y') ↔ y = y' ∨ IsZero x ∨ x.isNaN := by
  have right : Agree (x / y) (x' / y') ↔ Agree (x / y) (x / y') :=
    ⟨fun h => h.trans (hx.div y').symm, fun h => h.trans (hx.div y')⟩
  rw [right]
  obtain rfl | ⟨zero, zero'⟩ := agree_iff.1 hy
  · simp [Agree.refl]
  obtain ⟨s, hs⟩ := isZero_iff.1 zero
  obtain ⟨t, ht⟩ := isZero_iff.1 zero'
  have quotient (z : Float) (v : Sign) (hz : z.toModel.unpack = .zero v) :
      x / z = .ofModel (.pack (UnpackedFloat.div .binary64 x.toModel.unpack (.zero v))) := by
    rw [← hz]
    rfl
  rw [quotient y s hs, quotient y' t ht, isZero_iff, isNaN_iff_unpack]
  obtain ⟨none, nan⟩ | ⟨some, u, infinite⟩ := div_zero_cases .binary64 x.toModel.unpack
  · rw [nan, nan]
    exact iff_of_true (Agree.refl _) (.inr none.symm)
  · rw [infinite, infinite]
    by_cases same : s = t
    · have : y = y' := by rw [← ofModel_pack_unpack y, hs, same, ← ht, ofModel_pack_unpack]
      simp [same, this, Agree.refl]
    · have : y ≠ y' := by
        rintro rfl
        exact same (UnpackedFloat.zero.inj (hs.symm.trans ht))
      refine iff_of_false (not_agree_infinities u same) ?_
      rintro (h | h)
      · exact this h
      · exact some h.symm

end LazyMatrix
