import Mathlib
import LazyMatrix.Decimal.Shortest
import LazyMatrix.Proofs.Float.Rounding
import LazyMatrix.Proofs.Float.Zero

/-! The bits of a float: its sign, its exponent and its fraction. The last two together number the
magnitudes from zero to infinity, and past infinity there is no number. -/

namespace LazyMatrix

namespace Binary64

open Float.Model Float.Model.UnpackedFloat

theorem toNat_append {a b : ℕ} (u : BitVec a) (v : BitVec b) :
    (u ++ v).toNat = u.toNat * 2 ^ b + v.toNat := by
  rw [BitVec.toNat_append, ← Nat.shiftLeft_add_eq_or_of_lt v.isLt, Nat.shiftLeft_eq]

def fields (s : Sign) (e : BitVec 11) (m : BitVec 52) : BitVec 64 := packComponents .binary64 s e m

/-- Exponent and fraction as one number, which grows with the magnitude of the float. -/
def magnitude (e : BitVec 11) (m : BitVec 52) : ℕ := e.toNat * 2 ^ 52 + m.toNat

variable {s : Sign} {e : BitVec 11} {m : BitVec 52}

theorem toNat_fields : (fields s e m).toNat = s.toBitVec.toNat * 2 ^ 63 + magnitude e m := by
  rw [fields, packComponents, toNat_append, toNat_append, magnitude]
  ring

theorem exists_fields (b : BitVec 64) : ∃ s e m, b = fields s e m :=
  ⟨_, _, _, (@packComponents_unpackSign_unpackExponent_unpackMantissa .binary64 b).symm⟩

theorem magnitude_lt_iff : magnitude e m < 2047 * 2 ^ 52 ↔ e ≠ -1#11 := by
  have low := m.isLt
  have top : e = -1#11 ↔ e.toNat = 2047 := by
    rw [← BitVec.toNat_inj]
    rfl
  rw [ne_eq, top, magnitude]
  omega

theorem ofBits_magnitude : Dyadic.ofBits (magnitude e m) =
    if e = 0#11 then ⟨m.toNat, -1074⟩ else ⟨2 ^ 52 + m.toNat, e.toNat - 1075⟩ := by
  have low := m.isLt
  have high := e.isLt
  have fraction : magnitude e m % 2 ^ 52 = m.toNat := by
    rw [magnitude]
    omega
  have biased : magnitude e m / 2 ^ 52 % 2 ^ 11 = e.toNat := by
    rw [magnitude]
    omega
  have least : e = 0#11 ↔ e.toNat = 0 := by
    rw [← BitVec.toNat_inj]
    rfl
  simp only [Dyadic.ofBits, Nat.pow_eq, fraction, biased, least]

theorem unpack_fields_infinite (h : magnitude e m = 2047 * 2 ^ 52) :
    UnpackedFloat.unpack .binary64 (fields s e m) = .infinity s := by
  have top : e = -1#11 := by
    by_contra other
    exact absurd h (magnitude_lt_iff.2 other).ne
  subst top
  have none : m = 0#52 := by
    have : (-1#11).toNat = 2047 := rfl
    rw [magnitude, this] at h
    rw [← BitVec.toNat_inj]
    simpa using h
  subst none
  cases s <;> rfl

theorem unpack_fields_finite {x : Dyadic} (small : magnitude e m < 2047 * 2 ^ 52)
    (h : Dyadic.ofBits (magnitude e m) = x) (pos : 0 < x.mantissa) :
    UnpackedFloat.unpack .binary64 (fields s e m) = .finite s x.mantissa x.exponent pos := by
  have finite := magnitude_lt_iff.1 small
  rw [ofBits_magnitude] at h
  rw [UnpackedFloat.unpack, fields]
  simp only [unpackExponent_packComponents, unpackMantissa_packComponents, unpackSign_packComponents,
    Sign.ofBitVec_toBitVec]
  rw [if_neg finite]
  split at h
  · next least =>
    subst h least
    have other : m ≠ 0#52 := by
      rintro rfl
      exact absurd pos (lt_irrefl 0)
    rw [if_pos rfl, dif_neg other]
    rfl
  · next other =>
    subst h
    rw [if_neg other]
    simp only [toNat_append]
    rfl

theorem unpack_fields_zero (small : magnitude e m < 2047 * 2 ^ 52)
    (h : (Dyadic.ofBits (magnitude e m)).mantissa = 0) :
    UnpackedFloat.unpack .binary64 (fields s e m) = .zero s := by
  rw [ofBits_magnitude] at h
  split at h
  · next least =>
    have none : m = 0#52 := BitVec.toNat_inj.1 h
    subst least none
    cases s <;> rfl
  · simp at h

theorem pack_unpack_fields (number : magnitude e m ≤ 2047 * 2 ^ 52) :
    UnpackedFloat.pack .binary64 (UnpackedFloat.unpack .binary64 (fields s e m)) = fields s e m := by
  refine pack_unpack_of_valid ⟨fun top other => ?_⟩
  rw [fields, unpackExponent_packComponents] at top
  rw [fields, unpackMantissa_packComponents] at other
  have : m.toNat ≠ 0 := fun none => other (BitVec.toNat_inj.1 none)
  have : (-1#11).toNat = 2047 := rfl
  rw [magnitude, top, this] at number
  omega

theorem neg_unpack_fields (number : magnitude e m ≤ 2047 * 2 ^ 52) :
    (UnpackedFloat.unpack .binary64 (fields .positive e m)).neg =
      UnpackedFloat.unpack .binary64 (fields .negative e m) := by
  obtain small | infinite := number.lt_or_eq
  · obtain zero | pos := Nat.eq_zero_or_pos (Dyadic.ofBits (magnitude e m)).mantissa
    · rw [unpack_fields_zero small zero, unpack_fields_zero small zero]
      rfl
    · rw [unpack_fields_finite small rfl pos, unpack_fields_finite small rfl pos]
      rfl
  · rw [unpack_fields_infinite infinite, unpack_fields_infinite infinite]
    rfl

def ofFields (s : Sign) (e : BitVec 11) (m : BitVec 52) : Float :=
  .ofModel (.pack (UnpackedFloat.unpack .binary64 (fields s e m)))

theorem exists_ofFields (x : Float) :
    ∃ s e m, x = ofFields s e m ∧ x.toBits.toNat = (fields s e m).toNat := by
  obtain ⟨s, e, m, same⟩ := exists_fields x.toModel.toBits.toBitVec
  refine ⟨s, e, m, ?_, congrArg BitVec.toNat same⟩
  rw [ofFields, ← same]
  exact (ofModel_pack_unpack x).symm

theorem neg_ofFields (number : magnitude e m ≤ 2047 * 2 ^ 52) :
    -ofFields .positive e m = ofFields .negative e m := by
  change Float.ofModel (.pack (UnpackedFloat.unpack .binary64 (UnpackedFloat.pack .binary64
    (UnpackedFloat.unpack .binary64 (fields .positive e m)))).neg) = _
  rw [pack_unpack_fields number, neg_unpack_fields number]
  rfl

theorem isNaN_ofFields (large : 2047 * 2 ^ 52 < magnitude e m) : (ofFields s e m).isNaN := by
  have top : e = -1#11 := by
    by_contra other
    exact large.not_gt (magnitude_lt_iff.2 other)
  have other : m ≠ 0#52 := by
    rintro rfl
    subst top
    exact large.ne rfl
  have none : UnpackedFloat.unpack .binary64 (fields s e m) = .notANumber := by
    rw [UnpackedFloat.unpack, fields]
    simp only [unpackExponent_packComponents, unpackMantissa_packComponents]
    rw [if_pos top, if_neg other]
  rw [isNaN_iff_unpack, ofFields, none]
  exact unpack_packedNaN

end Binary64

namespace Dyadic

theorem normal_ofBits {bits : ℕ} (pos : 0 < (ofBits bits).mantissa) : (ofBits bits).Normal := by
  simp only [ofBits, Nat.pow_eq] at pos ⊢
  split
  · next least =>
    rw [if_pos least] at pos
    exact ⟨pos, by simp; omega, by simp, by simp⟩
  · exact ⟨by simp, by simp; omega, by simp; omega, by simp⟩

theorem exponent_ofBits_le {bits : ℕ} (small : bits < 2047 * 2 ^ 52) :
    (ofBits bits).exponent ≤ 971 := by
  simp only [ofBits, Nat.pow_eq]
  split
  · simp
  · simp
    omega

end Dyadic

end LazyMatrix
