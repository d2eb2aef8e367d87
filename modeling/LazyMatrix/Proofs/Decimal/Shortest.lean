import Mathlib
import LazyMatrix.Decimal.Shortest
import LazyMatrix.Proofs.Float.Rounding

/-! The shortest decimal rounds to the number it was made from. What is compared in natural numbers
is compared in units of a quarter of the last place, and a grid that is finer than half of the last
place has a multiple in the interval; the search gets there. -/

namespace LazyMatrix

def Decimal.rat (d : Decimal) : ℚ := d.digits * 10 ^ d.exponent

theorem zpow_eq_div {b : ℚ} (hb : b ≠ 0) (a : ℤ) : b ^ a = b ^ a.toNat / b ^ (-a).toNat := by
  rw [← zpow_natCast, ← zpow_natCast, ← zpow_sub₀ hb]
  congr 1
  omega

namespace Dyadic

variable {x : Dyadic} {k : ℤ} {c : ℕ}

theorem quarter_pos (x : Dyadic) (k : ℤ) : 0 < (x.quarter k).2 := by
  simp only [quarter, Nat.pow_eq]
  positivity

theorem quarter_eq (x : Dyadic) (k : ℤ) :
    ((x.quarter k).1 : ℚ) * 10 ^ k = 2 ^ (x.exponent - 2) * (x.quarter k).2 := by
  simp only [quarter, Nat.pow_eq]
  push_cast
  rw [zpow_eq_div two_ne_zero, zpow_eq_div (by norm_num : (10 : ℚ) ≠ 0), neg_sub]
  field_simp

theorem compare_quarters (x : Dyadic) (k : ℤ) (a b : ℕ) :
    ((a : ℚ) * 2 ^ (x.exponent - 2) ≤ b * 10 ^ k ↔ a * (x.quarter k).1 ≤ b * (x.quarter k).2) ∧
    ((b : ℚ) * 10 ^ k ≤ a * 2 ^ (x.exponent - 2) ↔ b * (x.quarter k).2 ≤ a * (x.quarter k).1) := by
  have unit := x.quarter_eq k
  have den : (0 : ℚ) < (x.quarter k).2 := by exact_mod_cast x.quarter_pos k
  have ten : (0 : ℚ) < 10 ^ k := by positivity
  have left : (a : ℚ) * 2 ^ (x.exponent - 2) * (x.quarter k).2 = a * (x.quarter k).1 * 10 ^ k := by
    rw [mul_assoc, ← unit, mul_assoc]
  have right : (b : ℚ) * 10 ^ k * (x.quarter k).2 = b * (x.quarter k).2 * 10 ^ k := by ring
  constructor
  · rw [← mul_le_mul_iff_left₀ den, left, right, mul_le_mul_iff_left₀ ten]
    norm_cast
  · rw [← mul_le_mul_iff_left₀ den, left, right, mul_le_mul_iff_left₀ ten]
    norm_cast

theorem owns_iff (pos : 0 < x.mantissa) : x.owns k c = true ↔ x.Owns (c * 10 ^ k) := by
  have gap := x.lowerGap_le
  have low := compare_quarters x k (4 * x.mantissa - x.lowerGap) c
  have high := compare_quarters x k (4 * x.mantissa + 2) c
  rw [Nat.cast_sub (by omega)] at low
  push_cast at low high
  simp only [owns]
  obtain even | odd := Nat.mod_two_eq_zero_or_one x.mantissa
  · rw [if_pos even, Bool.and_eq_true, decide_eq_true_eq, decide_eq_true_eq, ← low.1, ← high.2]
    exact ⟨fun h => ⟨h.1, h.2, by omega⟩, fun h => ⟨h.low, h.high⟩⟩
  · rw [if_neg (by omega), Bool.and_eq_true, decide_eq_true_eq, decide_eq_true_eq,
      ← not_le, ← not_le, ← low.2, ← high.1, not_le, not_le]
    exact ⟨fun h => ⟨h.1.le, h.2.le, fun _ => h⟩, fun h => h.odd odd⟩

theorem owns_of_onGrid? (h : x.onGrid? k = some c) : x.owns k c = true := by
  simp only [onGrid?] at h
  split at h
  · split at h <;> cases h <;> assumption
  · cases h
    assumption
  · cases h
    assumption
  · cases h

theorem onGrid?_isSome (pos : 0 < x.mantissa) (fine : (10 : ℚ) ^ k < 2 ^ (x.exponent - 1)) :
    (x.onGrid? k).isSome := by
  have den := x.quarter_pos k
  generalize hb : 4 * x.mantissa * (x.quarter k).1 / (x.quarter k).2 = below
  have le : below * (x.quarter k).2 ≤ 4 * x.mantissa * (x.quarter k).1 := hb ▸ Nat.div_mul_le_self _ _
  have lt : 4 * x.mantissa * (x.quarter k).1 < (below + 1) * (x.quarter k).2 :=
    (Nat.div_lt_iff_lt_mul den).1 (hb ▸ Nat.lt_succ_self _)
  have above : x.owns k (below + 1) = true := by
    rw [owns_iff pos]
    have under := (compare_quarters x k (4 * x.mantissa) below).2.2 le
    have beyond := (compare_quarters x k (4 * x.mantissa) (below + 1)).2.not.2 (not_le.2 lt)
    have half : (2 : ℚ) ^ (x.exponent - 1) = 2 * 2 ^ (x.exponent - 2) := by
      rw [← zpow_one_add₀ two_ne_zero]
      congr 1
      ring
    have gap : (0 : ℚ) ≤ x.lowerGap * 2 ^ (x.exponent - 2) := by positivity
    rw [not_le] at beyond
    push_cast at under beyond ⊢
    rw [half] at fine
    have low : (4 * x.mantissa - x.lowerGap : ℚ) * 2 ^ (x.exponent - 2) < (below + 1) * 10 ^ k := by
      linarith
    have high : (below + 1 : ℚ) * 10 ^ k < (4 * x.mantissa + 2) * 2 ^ (x.exponent - 2) := by linarith
    exact ⟨low.le, high.le, fun _ => ⟨low, high⟩⟩
  simp only [onGrid?, hb, above]
  cases x.owns k below
  · rfl
  · simp only
    split <;> rfl

theorem searchGrids_owns {tries i : ℕ} (hi : i < tries) (found : (x.onGrid? (k - i)).isSome) :
    x.owns (x.searchGrids tries k).exponent (x.searchGrids tries k).digits = true := by
  induction tries generalizing k i with
  | zero => omega
  | succ tries ih =>
    rw [searchGrids]
    cases here : x.onGrid? k with
    | some c => exact owns_of_onGrid? here
    | none =>
      cases i with
      | zero => simp [here] at found
      | succ i =>
        refine ih (k := k - 1) (i := i) (by omega) ?_
        rwa [show k - 1 - (i : ℤ) = k - (i + 1 : ℕ) by push_cast; ring]

theorem ten_zpow_lt {q k : ℤ} (least : -1074 ≤ q) (most : q ≤ 971)
    (small : 100000 * k ≤ 30103 * (54 + q) - 1900000) : (10 : ℚ) ^ k < 2 ^ (q - 1) := by
  obtain ⟨n, rfl | rfl⟩ := k.eq_nat_or_neg
  · refine lt_of_pow_lt_pow_left₀ 3 (by positivity) ?_
    calc ((10 : ℚ) ^ (n : ℤ)) ^ 3 = 1000 ^ n := by
          rw [zpow_natCast, ← pow_mul, mul_comm, pow_mul]
          norm_num
      _ ≤ 1024 ^ n := by gcongr; norm_num
      _ = 2 ^ (10 * n : ℤ) := by
        rw [zpow_mul, zpow_natCast]
        norm_num
      _ < 2 ^ (3 * (q - 1)) := zpow_lt_zpow_right₀ (by norm_num) (by omega)
      _ = (2 ^ (q - 1)) ^ 3 := by rw [mul_comm, zpow_mul]; rfl
  · refine lt_of_pow_lt_pow_left₀ 28 (by positivity) ?_
    calc ((10 : ℚ) ^ (-(n : ℤ))) ^ 28 = ((10 ^ 28) ^ n)⁻¹ := by
          rw [zpow_neg, zpow_natCast, inv_pow, ← pow_mul, mul_comm, pow_mul]
      _ ≤ ((2 ^ 93) ^ n)⁻¹ := by
        gcongr
        norm_num
      _ = 2 ^ (-(93 * n : ℤ)) := by
        rw [zpow_neg, zpow_mul, zpow_natCast]
        norm_num
      _ < 2 ^ (28 * (q - 1)) := zpow_lt_zpow_right₀ (by norm_num) (by omega)
      _ = (2 ^ (q - 1)) ^ 28 := by rw [mul_comm, zpow_mul]; rfl

theorem shortest_owns (normal : x.Normal) (bounded : x.exponent ≤ 971) :
    x.Owns x.shortest.rat := by
  refine (owns_iff normal.pos).1 (searchGrids_owns (i := 21) (by omega) (onGrid?_isSome normal.pos ?_))
  refine ten_zpow_lt normal.exponent_ge bounded ?_
  have log : x.mantissa.log2 < 53 := (Nat.log2_lt normal.pos.ne').2 normal.lt
  rw [startingGrid]
  omega

end Dyadic

end LazyMatrix
