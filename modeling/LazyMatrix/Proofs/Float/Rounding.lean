import Mathlib
import LazyMatrix.Decimal.Shortest

/-! Rounding a decimal. The quotient or product that a decimal stands for is cut off at the last place
of the result, with two bits for what was cut off; they are enough to find the nearest number with
that exponent. A binary number is the result for every rational in its interval. -/

namespace LazyMatrix

open Float.Model Float.Model.UnpackedFloat

/-- `v` cut off after its integer part. The two bits say how much of it was cut off: whether half or
more, and whether anything else. -/
def Cuts (em : ExtendedMantissa) (v : ℚ) : Prop :=
  ∃ ε : ℚ, 0 ≤ ε ∧ ε < 1 / 2 ∧ (em.stickyBit = true ↔ 0 < ε) ∧
    v = em.mantissa + (if em.roundBit then 1 / 2 else 0) + ε

namespace Cuts

variable {em : ExtendedMantissa} {v : ℚ}

theorem mantissa_le (h : Cuts em v) : em.mantissa ≤ v := by
  obtain ⟨ε, pos, -, -, rfl⟩ := h
  split <;> linarith

theorem lt_mantissa_add_one (h : Cuts em v) : v < em.mantissa + 1 := by
  obtain ⟨ε, -, small, -, rfl⟩ := h
  split <;> linarith

theorem shiftRightOne (h : Cuts em v) : Cuts em.shiftRightOne (v / 2) := by
  obtain ⟨ε, pos, small, sticky, rfl⟩ := h
  have parts : (em.mantissa : ℚ) = 2 * (em.mantissa / 2 : ℕ) + (em.mantissa % 2 : ℕ) := by
    exact_mod_cast (Nat.div_add_mod em.mantissa 2).symm
  refine ⟨(if em.roundBit then 1 / 4 else 0) + ε / 2, ?_, ?_, ?_, ?_⟩
  · split <;> linarith
  · split <;> linarith
  · simp only [ExtendedMantissa.shiftRightOne, Bool.or_eq_true, sticky]
    cases em.roundBit
    · simp
    · simp
      linarith
  · simp only [ExtendedMantissa.shiftRightOne]
    rw [parts]
    obtain even | odd := Nat.mod_two_eq_zero_or_one em.mantissa
    · cases em.roundBit <;> simp [even] <;> ring
    · cases em.roundBit <;> simp [odd] <;> ring

theorem shiftRight (h : Cuts em v) (n : ℕ) : Cuts (em >>> n) (v / 2 ^ n) := by
  induction n with
  | zero =>
    rw [pow_zero, div_one]
    exact h
  | succ n ih =>
    have next := ih.shiftRightOne
    rwa [div_div, ← pow_succ] at next

theorem roundedMantissa_eq (h : Cuts em v) {m : ℕ} (low : m - 1 / 2 ≤ v) (high : v ≤ m + 1 / 2)
    (odd : m % 2 = 1 → m - 1 / 2 < v ∧ v < m + 1 / 2) : em.roundedMantissa = m := by
  obtain ⟨ε, pos, small, sticky, rfl⟩ := h
  obtain ⟨k, round, rest⟩ := em
  have below {a b : ℕ} (h : (a : ℚ) - 1 < b) : a ≤ b := by
    have : (a : ℚ) < b + 1 := by linarith
    exact Nat.lt_succ_iff.1 (by exact_mod_cast this)
  cases round with
  | false =>
    simp only [Bool.false_eq_true, if_false] at low high odd
    have same : k = m := le_antisymm (below (by linarith)) (below (by linarith))
    cases rest <;> exact same
  | true =>
    simp only [if_true] at low high odd
    cases rest with
    | false =>
      obtain rfl : ε = 0 := le_antisymm (not_lt.1 fun h => absurd (sticky.2 h) (by simp)) pos
      have le : k ≤ m := below (by linarith)
      have ge : m ≤ k + 1 := below (by push_cast; linarith)
      have even : m % 2 ≠ 1 := fun h => by
        obtain ⟨left, right⟩ := odd h
        have : (k : ℚ) < m := by linarith
        have : (m : ℚ) < (k + 1 : ℕ) := by push_cast; linarith
        norm_cast at *
        omega
      change k + k % 2 = m
      omega
    | true =>
      have pos : 0 < ε := sticky.1 rfl
      have le : k + 1 ≤ m := below (by push_cast; linarith)
      have ge : m ≤ k + 1 := below (by push_cast; linarith)
      exact le_antisymm le ge

theorem of_exact (m : ℕ) : Cuts (.ofMantissaAndAccuracy m .exact) m :=
  ⟨0, le_rfl, by norm_num, by simp [ExtendedMantissa.ofMantissaAndAccuracy],
    by simp [ExtendedMantissa.ofMantissaAndAccuracy]⟩

theorem of_fraction (a : ℕ) {b : ℕ} (hb : 0 < b) :
    Cuts (.ofMantissaAndAccuracy (a / b) (accuracyOfFraction (a % b) b)) (a / b) := by
  have pos : (0 : ℚ) < b := by exact_mod_cast hb
  have parts : (a : ℚ) / b = (a / b : ℕ) + (a % b : ℕ) / b := by
    rw [eq_comm, ← sub_eq_zero]
    field_simp
    have := Nat.div_add_mod a b
    have : (b : ℚ) * (a / b : ℕ) + (a % b : ℕ) = a := by exact_mod_cast this
    linarith
  rw [parts, accuracyOfFraction]
  split
  · next none =>
    simpa [none] using of_exact (a / b)
  · next some =>
    have part : 0 < ((a % b : ℕ) : ℚ) / b := by
      have : 0 < a % b := by omega
      positivity
    cases half : compare (2 * (a % b)) b with
    | lt =>
      have half : 2 * ((a % b : ℕ) : ℚ) < b := by exact_mod_cast Nat.compare_eq_lt.1 half
      have small : ((a % b : ℕ) : ℚ) / b < 1 / 2 := by
        rw [div_lt_iff₀ pos]
        linarith
      exact ⟨_, part.le, small, iff_of_true rfl part, by simp [ExtendedMantissa.ofMantissaAndAccuracy]⟩
    | eq =>
      have half : 2 * ((a % b : ℕ) : ℚ) = b := by exact_mod_cast Nat.compare_eq_eq.1 half
      have same : ((a % b : ℕ) : ℚ) / b = 1 / 2 := by
        rw [div_eq_iff pos.ne']
        linarith
      exact ⟨0, le_rfl, by norm_num, by simp [ExtendedMantissa.ofMantissaAndAccuracy],
        by simp [ExtendedMantissa.ofMantissaAndAccuracy, same]⟩
    | gt =>
      have half : b < 2 * ((a % b : ℕ) : ℚ) := by exact_mod_cast Nat.compare_eq_gt.1 half
      have large : 1 / 2 < ((a % b : ℕ) : ℚ) / b := by
        rw [lt_div_iff₀ pos]
        linarith
      have whole : ((a % b : ℕ) : ℚ) / b < 1 := by
        rw [div_lt_one pos]
        exact_mod_cast Nat.mod_lt a hb
      exact ⟨_, sub_nonneg.2 large.le, by linarith, iff_of_true rfl (sub_pos.2 large),
        by simp [ExtendedMantissa.ofMantissaAndAccuracy]⟩

end Cuts

namespace Dyadic

structure Normal (x : Dyadic) : Prop where
  pos : 0 < x.mantissa
  lt : x.mantissa < 2 ^ 53
  exponent_ge : -1074 ≤ x.exponent
  subnormal : x.mantissa < 2 ^ 52 → x.exponent = -1074

/-- `r` rounds to `x`. -/
structure Owns (x : Dyadic) (r : ℚ) : Prop where
  low : (4 * x.mantissa - x.lowerGap) * (2 : ℚ) ^ (x.exponent - 2) ≤ r
  high : r ≤ (4 * x.mantissa + 2) * (2 : ℚ) ^ (x.exponent - 2)
  odd : x.mantissa % 2 = 1 → (4 * x.mantissa - x.lowerGap) * (2 : ℚ) ^ (x.exponent - 2) < r ∧
    r < (4 * x.mantissa + 2) * (2 : ℚ) ^ (x.exponent - 2)

variable {x : Dyadic} {r : ℚ}

theorem Owns.lt_pow (owns : x.Owns r) {n : ℕ} (h : 4 * x.mantissa + 2 < 2 ^ n) :
    r < 2 ^ (n + (x.exponent - 2)) := by
  have bound : (4 * x.mantissa + 2 : ℚ) < 2 ^ n := by exact_mod_cast h
  calc r ≤ (4 * x.mantissa + 2) * (2 : ℚ) ^ (x.exponent - 2) := owns.high
    _ < 2 ^ n * (2 : ℚ) ^ (x.exponent - 2) := by gcongr
    _ = 2 ^ (n + (x.exponent - 2)) := by rw [zpow_add₀ two_ne_zero, zpow_natCast]

theorem Owns.pow_le (owns : x.Owns r) {n : ℕ} (h : 2 ^ n + x.lowerGap ≤ 4 * x.mantissa) :
    2 ^ (n + (x.exponent - 2)) ≤ r := by
  have bound : (2 ^ n + x.lowerGap : ℚ) ≤ 4 * x.mantissa := by exact_mod_cast h
  calc (2 : ℚ) ^ (n + (x.exponent - 2))
    _ = 2 ^ n * (2 : ℚ) ^ (x.exponent - 2) := by rw [zpow_add₀ two_ne_zero, zpow_natCast]
    _ ≤ (4 * x.mantissa - x.lowerGap) * (2 : ℚ) ^ (x.exponent - 2) := by
      gcongr
      linarith
    _ ≤ r := owns.low

theorem lowerGap_le (x : Dyadic) : x.lowerGap ≤ 2 := by
  rw [lowerGap]
  split <;> omega

theorem Owns.pos (owns : x.Owns r) (pos : 0 < x.mantissa) : 0 < r := by
  have gap : (x.lowerGap : ℚ) ≤ 2 := by exact_mod_cast x.lowerGap_le
  have one : (1 : ℚ) ≤ x.mantissa := by exact_mod_cast pos
  refine lt_of_lt_of_le (mul_pos ?_ (by positivity)) owns.low
  linarith

theorem Owns.scaled_between (owns : x.Owns r) :
    (x.mantissa - x.lowerGap / 4 : ℚ) ≤ r / 2 ^ x.exponent ∧
      r / 2 ^ x.exponent ≤ x.mantissa + 1 / 2 ∧
      (x.mantissa % 2 = 1 → (x.mantissa - x.lowerGap / 4 : ℚ) < r / 2 ^ x.exponent ∧
        r / 2 ^ x.exponent < x.mantissa + 1 / 2) := by
  have unit : (0 : ℚ) < 2 ^ x.exponent := by positivity
  have quarter : (2 : ℚ) ^ (x.exponent - 2) = 2 ^ x.exponent / 4 := by
    rw [zpow_sub₀ two_ne_zero]
    norm_num
  obtain ⟨low, high, odd⟩ := owns
  rw [quarter] at low high odd
  refine ⟨?_, ?_, fun h => ⟨?_, ?_⟩⟩
  · rw [le_div_iff₀ unit]
    linarith
  · rw [div_le_iff₀ unit]
    linarith
  · rw [lt_div_iff₀ unit]
    linarith [(odd h).1]
  · rw [div_lt_iff₀ unit]
    linarith [(odd h).2]

theorem Owns.roundedMantissa_eq (owns : x.Owns r) {em : ExtendedMantissa}
    (cuts : Cuts em (r / 2 ^ x.exponent)) : em.roundedMantissa = x.mantissa := by
  have gap : (x.lowerGap : ℚ) ≤ 2 := by exact_mod_cast x.lowerGap_le
  obtain ⟨low, high, odd⟩ := owns.scaled_between
  exact cuts.roundedMantissa_eq (by linarith) high fun h => ⟨by linarith [(odd h).1], (odd h).2⟩

end Dyadic

theorem targetExponent_eq (t : ℤ) : Format.binary64.targetExponent t = max (t - 53) (-1074) := rfl

theorem shiftToTargetExponent_eq {m : ℕ} {e : ℤ} (acc : Accuracy)
    (fine : e ≤ Format.binary64.targetExponent (totalExponent m e)) :
    shiftToTargetExponent .binary64 m e acc =
      (ExtendedMantissa.ofMantissaAndAccuracy m acc >>>
        (Format.binary64.targetExponent (totalExponent m e) - e).toNat,
        Format.binary64.targetExponent (totalExponent m e)) := by
  rw [shiftToTargetExponent, shiftToExponent]
  congr 1
  omega

theorem Cuts.shiftTo {em : ExtendedMantissa} {v r : ℚ} {e t : ℤ} (cuts : Cuts em v)
    (value : r = v * 2 ^ e) (fine : e ≤ t) : Cuts (em >>> (t - e).toNat) (r / 2 ^ t) := by
  have same : v / 2 ^ (t - e).toNat = r / 2 ^ t := by
    have exponent : t = e + ((t - e).toNat : ℤ) := by omega
    rw [value]
    nth_rewrite 2 [exponent]
    rw [zpow_add₀ two_ne_zero, zpow_natCast]
    have : (2 : ℚ) ^ e ≠ 0 := by positivity
    field_simp
  exact same ▸ cuts.shiftRight _

section

variable {x : Dyadic} {r v : ℚ} {m : ℕ} {e : ℤ} {acc : Accuracy}

theorem targetExponent_cases (normal : x.Normal) (owns : x.Owns r)
    (cuts : Cuts (.ofMantissaAndAccuracy m acc) v) (value : r = v * 2 ^ e)
    (fine : e ≤ Format.binary64.targetExponent (totalExponent m e)) :
    Format.binary64.targetExponent (totalExponent m e) = x.exponent ∨
      Format.binary64.targetExponent (totalExponent m e) = x.exponent - 1 ∧
        x.mantissa = 2 ^ 52 ∧ r < 2 ^ (52 + x.exponent) := by
  have mantissa : (ExtendedMantissa.ofMantissaAndAccuracy m acc).mantissa = m := by
    cases acc with
    | exact => rfl
    | inexact half => cases half <;> rfl
  have le := cuts.mantissa_le
  have lt := cuts.lt_mantissa_add_one
  rw [mantissa] at le lt
  rw [targetExponent_eq, totalExponent] at *
  have above : r < 2 ^ ((m.log2 + 1 : ℕ) + e) := by
    have bound : ((m + 1 : ℕ) : ℚ) ≤ 2 ^ (m.log2 + 1) := by exact_mod_cast Nat.lt_log2_self
    push_cast at bound
    rw [value, zpow_add₀ two_ne_zero, zpow_natCast]
    gcongr
    linarith
  have below (h : m ≠ 0) : 2 ^ ((m.log2 : ℤ) + e) ≤ r := by
    have bound : (2 : ℚ) ^ m.log2 ≤ m := by exact_mod_cast Nat.log2_self_le h
    rw [value, zpow_add₀ two_ne_zero, zpow_natCast]
    gcongr
    linarith
  have grow {a b : ℤ} (h : (2 : ℚ) ^ a < 2 ^ b) : a < b :=
    (zpow_lt_zpow_iff_right₀ (by norm_num)).1 h
  have least := normal.exponent_ge
  have most := normal.lt
  have upper : max ((m.log2 : ℤ) + 1 + e - 53) (-1074) ≤ x.exponent := by
    by_cases zero : m = 0
    · subst zero
      simp only [Nat.log2_zero] at *
      omega
    · have := grow ((below zero).trans_lt (owns.lt_pow (n := 55) (by omega)))
      omega
  have gap := x.lowerGap_le
  obtain small | least' | large := lt_trichotomy x.mantissa (2 ^ 52)
  · left
    have := normal.subnormal small
    omega
  · have := grow ((owns.pow_le (n := 53) (by omega)).trans_lt above)
    by_cases same : max ((m.log2 : ℤ) + 1 + e - 53) (-1074) = x.exponent
    · exact .inl same
    · refine .inr ⟨by omega, least', above.trans_le ?_⟩
      exact zpow_le_zpow_right₀ (by norm_num) (by omega)
  · left
    have := grow ((owns.pow_le (n := 54) (by omega)).trans_lt above)
    omega

theorem shiftToTargetExponent_normal (normal : x.Normal) :
    shiftToTargetExponent .binary64 x.mantissa x.exponent .exact =
      (⟨x.mantissa, false, false⟩, x.exponent) := by
  have least := normal.exponent_ge
  have log : x.mantissa.log2 < 53 := (Nat.log2_lt normal.pos.ne').2 normal.lt
  have none : (max ((x.mantissa.log2 : ℤ) + 1 + x.exponent - 53) (-1074) - x.exponent).toNat = 0 := by
    omega
  rw [shiftToTargetExponent, shiftToExponent, targetExponent_eq, totalExponent, none]
  exact Prod.ext rfl (by simp)

theorem shiftToTargetExponent_carry (least : -1074 ≤ e) :
    shiftToTargetExponent .binary64 (2 ^ 53) (e - 1) .exact = (⟨2 ^ 52, false, false⟩, e) := by
  have one : (max (((53 : ℕ) : ℤ) + 1 + (e - 1) - 53) (-1074) - (e - 1)).toNat = 1 := by omega
  rw [shiftToTargetExponent, shiftToExponent, targetExponent_eq, totalExponent, Nat.log2_two_pow, one]
  exact Prod.ext rfl (by simp)

theorem roundWithAccuracy_eq (normal : x.Normal) (owns : x.Owns r) (s : Sign)
    (cuts : Cuts (.ofMantissaAndAccuracy m acc) v) (value : r = v * 2 ^ e)
    (fine : e ≤ Format.binary64.targetExponent (totalExponent m e)) :
    roundWithAccuracy .binary64 s m e acc = .finite s x.mantissa x.exponent normal.pos := by
  have cut := cuts.shiftTo value fine
  rw [roundWithAccuracy, shiftToTargetExponent_eq acc fine]
  obtain same | ⟨lower, mantissa, small⟩ := targetExponent_cases normal owns cuts value fine
  · rw [same] at cut ⊢
    simp only [owns.roundedMantissa_eq cut, shiftToTargetExponent_normal normal]
    rw [dif_neg normal.pos.ne']
  · have normalized : x.exponent ≠ -1074 := by
      rw [targetExponent_eq] at lower
      omega
    have gap : x.lowerGap = 1 := if_pos ⟨mantissa, normalized⟩
    have twice : r / 2 ^ (x.exponent - 1) = 2 * (r / 2 ^ x.exponent) := by
      rw [zpow_sub_one₀ two_ne_zero]
      field_simp
    obtain ⟨low, -, -⟩ := owns.scaled_between
    have high : r / 2 ^ x.exponent < 2 ^ 52 := by
      rw [div_lt_iff₀ (by positivity), ← zpow_natCast, ← zpow_add₀ two_ne_zero]
      exact small
    rw [gap, mantissa] at low
    push_cast at low
    rw [lower] at cut ⊢
    have rounded := cut.roundedMantissa_eq (m := 2 ^ 53) (by push_cast; rw [twice]; linarith)
      (by push_cast; rw [twice]; linarith) (by omega)
    simp only [rounded, shiftToTargetExponent_carry normal.exponent_ge, mantissa]
    rw [dif_neg (by norm_num)]

end

theorem fine_of_mul {c : ℕ} (hc : 0 < c) (n : ℕ) :
    (-53 : ℤ) ≤ Format.binary64.targetExponent (totalExponent (c <<< 53 * 10 ^ n) (-53)) := by
  have large : 2 ^ 53 ≤ c <<< 53 * 10 ^ n := by
    rw [Nat.shiftLeft_eq]
    have power : 0 < 10 ^ n := by positivity
    exact (Nat.le_mul_of_pos_left _ hc).trans (Nat.le_mul_of_pos_right _ power)
  have log : 53 ≤ (c <<< 53 * 10 ^ n).log2 := by
    rw [Nat.le_log2 (by omega)]
    exact large
  rw [targetExponent_eq, totalExponent]
  omega

theorem fine_of_div {c p : ℕ} (hc : 0 < c) (hp : 0 < p) {e : ℤ}
    (he : e = min (0 - 0) (Format.binary64.targetExponent (totalExponent c 0 - totalExponent p 0))) :
    e ≤ Format.binary64.targetExponent (totalExponent (c <<< (0 - 0 - e).toNat / p) e) := by
  rw [targetExponent_eq, totalExponent, totalExponent] at he
  rw [targetExponent_eq, totalExponent]
  by_cases least : e ≤ -1074
  · omega
  have exponent : e ≤ (c.log2 : ℤ) - p.log2 - 53 := by omega
  have large : 2 ^ 52 ≤ c <<< (0 - 0 - e).toNat / p := by
    rw [Nat.le_div_iff_mul_le hp, Nat.shiftLeft_eq]
    calc 2 ^ 52 * p ≤ 2 ^ 52 * 2 ^ (p.log2 + 1) := by
          gcongr
          exact Nat.lt_log2_self.le
      _ = 2 ^ (p.log2 + 53) := by ring
      _ ≤ 2 ^ (c.log2 + (0 - 0 - e).toNat) := Nat.pow_le_pow_right (by norm_num) (by omega)
      _ = 2 ^ c.log2 * 2 ^ (0 - 0 - e).toNat := pow_add _ _ _
      _ ≤ c * 2 ^ (0 - 0 - e).toNat := by
        gcongr
        exact Nat.log2_self_le hc.ne'
  have log := (Nat.le_log2 (Nat.ne_of_gt (by omega))).2 large
  omega

section

variable {x : Dyadic} {r : ℚ} {c : ℕ} {k : ℤ}

theorem Dyadic.Owns.exponent_le (owns : x.Owns r) (normal : x.Normal) (bounded : x.exponent ≤ 971)
    (pos : 0 < c) (value : r = c * 10 ^ k) : k ≤ 2048 := by
  -- beyond it the reader takes the decimal for infinity
  by_contra large
  have : (2 : ℚ) ^ k < 2 ^ ((55 : ℕ) + (x.exponent - 2)) := by
    calc (2 : ℚ) ^ k ≤ 10 ^ k := zpow_le_zpow_left₀ (by omega) (by norm_num) (by norm_num)
      _ ≤ c * 10 ^ k := le_mul_of_one_le_left (by positivity) (by exact_mod_cast pos)
      _ < 2 ^ ((55 : ℕ) + (x.exponent - 2)) := by
        have := normal.lt
        rw [← value]
        exact owns.lt_pow (by omega)
  have := (zpow_lt_zpow_iff_right₀ (by norm_num)).1 this
  omega

theorem Dyadic.Owns.exponent_ge (owns : x.Owns r) (normal : x.Normal) (value : r = c * 10 ^ k) :
    -(2048 + c.log2 : ℤ) ≤ k := by
  by_contra small
  have : (2 : ℚ) ^ ((1 : ℕ) + (x.exponent - 2)) < 2 ^ ((c.log2 + 1 : ℕ) + k) := by
    calc (2 : ℚ) ^ ((1 : ℕ) + (x.exponent - 2)) ≤ r := by
          have := normal.pos
          have := x.lowerGap_le
          exact owns.pow_le (by omega)
      _ = c * 10 ^ k := value
      _ < 2 ^ (c.log2 + 1) * 10 ^ k := by
        gcongr
        exact_mod_cast Nat.lt_log2_self
      _ ≤ 2 ^ (c.log2 + 1) * 2 ^ k := by
        obtain ⟨n, rfl⟩ : ∃ n : ℕ, k = -n := ⟨k.natAbs, by omega⟩
        rw [zpow_neg, zpow_neg, zpow_natCast, zpow_natCast]
        gcongr
        norm_num
      _ = 2 ^ ((c.log2 + 1 : ℕ) + k) := by rw [zpow_add₀ two_ne_zero, zpow_natCast]
  have := (zpow_lt_zpow_iff_right₀ (by norm_num)).1 this
  have := normal.exponent_ge
  omega

/-- Reading a decimal gives the number that owns its value. -/
theorem ofScientific_eq (normal : x.Normal) (bounded : x.exponent ≤ 971) (owns : x.Owns r)
    (pos : 0 < c) (value : r = c * 10 ^ k) :
    UnpackedFloat.ofScientific .binary64 c k =
      .finite .positive x.mantissa x.exponent normal.pos := by
  have notLarge : ¬ k > 2 ^ Format.binary64.exponentBits :=
    (owns.exponent_le normal bounded pos value).not_gt
  have notSmall : ¬ k < -(2 ^ Format.binary64.exponentBits + c.log2) :=
    (owns.exponent_ge normal value).not_gt
  rw [UnpackedFloat.ofScientific, dif_neg pos.ne', if_neg notLarge, if_neg notSmall]
  split
  · next whole =>
    rw [UnpackedFloat.mul]
    refine roundWithAccuracy_eq normal owns _ (Cuts.of_exact _) ?_ (fine_of_mul pos _)
    obtain ⟨n, rfl⟩ := Int.eq_ofNat_of_zero_le whole
    have bits : Format.binary64.mantissaBits = 53 := rfl
    rw [value, Nat.shiftLeft_eq, bits]
    push_cast
    rw [Int.toNat_natCast, zpow_natCast]
    norm_num
    ring
  · next fraction =>
    have hp : 0 < 10 ^ (-k).toNat := by positivity
    rw [UnpackedFloat.div, divCore]
    refine roundWithAccuracy_eq normal owns _ (Cuts.of_fraction _ hp) ?_ (fine_of_div pos hp rfl)
    obtain ⟨n, rfl⟩ : ∃ n : ℕ, k = -n := ⟨k.natAbs, by omega⟩
    generalize he : min ((0 : ℤ) - 0) (Format.binary64.targetExponent
      (totalExponent c 0 - totalExponent (10 ^ (- -(n : ℤ)).toNat) 0)) = e
    obtain ⟨j, rfl⟩ : ∃ j : ℕ, e = -j := ⟨e.natAbs, by omega⟩
    rw [value, Nat.shiftLeft_eq]
    push_cast
    simp only [neg_neg, zero_sub, Int.toNat_natCast, zpow_neg, zpow_natCast]
    field_simp

end

end LazyMatrix
