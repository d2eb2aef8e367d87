import LazyMatrix.Decimal.Numeral
import LazyMatrix.Proofs.Decimal.Shortest
import LazyMatrix.Proofs.Float.Bits

/-! Reading back what was written. A constant is written as digits with at most one point among
them, and the decimal that is read there has the value of the one that was written; so it rounds to
the float that it was made from. -/

namespace LazyMatrix.Decimal

theorem rat_eq_zero {d : Decimal} : d.rat = 0 ↔ d.digits = 0 := by
  simp [rat, zpow_ne_zero]

theorem value_eq (digits : List Char) : value digits = Nat.ofDigitChars 10 digits 0 := rfl

theorem value_digitList (n : ℕ) : value (digitList n) = n := Nat.ofDigitChars_ten_toDigits

theorem value_append_zeroes (digits : List Char) (n : ℕ) :
    value (digits ++ zeroes n) = value digits * 10 ^ n := by
  rw [value_eq, Nat.ofDigitChars_append, zeroes, Nat.ofDigitChars_replicate_zero, mul_comm, value_eq]

theorem value_zeroes_append (n : ℕ) (digits : List Char) :
    value (zeroes n ++ digits) = value digits := by
  rw [value_eq, Nat.ofDigitChars_append, zeroes, Nat.ofDigitChars_replicate_zero, mul_zero, value_eq]

theorem isDigit_of_mem_zeroes {n : ℕ} {c : Char} (h : c ∈ zeroes n) : c.isDigit := by
  obtain rfl := List.eq_of_mem_replicate h
  rfl

theorem isDigit_of_mem_digitList {n : ℕ} {c : Char} (h : c ∈ digitList n) : c.isDigit :=
  Nat.isDigit_of_mem_toDigits (by decide) (by decide) h

def pointed (whole fraction : List Char) : List Char :=
  whole ++ if fraction = [] then [] else '.' :: fraction

variable {whole fraction : List Char}

theorem text_constant (d : Decimal) : text .constant d = positionalText .constant d := rfl

theorem positionalText_eq (d : Decimal) : ∃ whole fraction,
    positionalText .constant d = pointed whole fraction ∧ whole ≠ [] ∧
    (∀ c ∈ whole, c.isDigit) ∧ (∀ c ∈ fraction, c.isDigit) ∧
    rat ⟨value (whole ++ fraction), -fraction.length⟩ = d.rat := by
  rw [positionalText]
  split
  · next grown =>
    obtain ⟨n, exponent⟩ := Int.eq_ofNat_of_zero_le grown
    refine ⟨digitList d.digits ++ zeroes d.exponent.toNat, [], ?_, ?_, ?_, ?_, ?_⟩
    · simp [pointed, Style.constant]
    · simp [digitList]
    · intro c hc
      exact (List.mem_append.1 hc).elim isDigit_of_mem_digitList isDigit_of_mem_zeroes
    · simp
    · simp [rat, value_append_zeroes, value_digitList, exponent]
  · next shrunk =>
    generalize hp : (-d.exponent).toNat = places
    generalize hd : zeroes (places + 1 - (digitList d.digits).length) ++ digitList d.digits = padded
    have long : places < padded.length := by
      rw [← hd]
      simp [zeroes]
      omega
    have digits : ∀ c ∈ padded, c.isDigit := by
      intro c hc
      rw [← hd] at hc
      exact (List.mem_append.1 hc).elim isDigit_of_mem_zeroes isDigit_of_mem_digitList
    have length : (padded.drop (padded.length - places)).length = places := by
      rw [List.length_drop]
      omega
    refine ⟨padded.take (padded.length - places), padded.drop (padded.length - places),
      ?_, ?_, ?_, ?_, ?_⟩
    · have some : padded.drop (padded.length - places) ≠ [] := by
        rw [← List.length_pos_iff, length]
        omega
      rw [pointed, if_neg some, ← hd]
    · rw [← List.length_pos_iff, List.length_take]
      omega
    · exact fun c hc => digits c (List.mem_of_mem_take hc)
    · exact fun c hc => digits c (List.mem_of_mem_drop hc)
    · rw [List.take_append_drop, ← hd, value_zeroes_append, value_digitList, hd, length]
      have exponent : -(places : ℤ) = d.exponent := by omega
      rw [exponent]

theorem readDigits?_pointed (nonempty : whole ≠ []) (hw : ∀ c ∈ whole, c.isDigit)
    (hf : ∀ c ∈ fraction, c.isDigit) :
    readDigits? (pointed whole fraction) = some ⟨value (whole ++ fraction), -fraction.length⟩ := by
  cases fraction with
  | nil => simp [readDigits?, pointed, List.takeWhile_eq_self_iff.2 hw, List.dropWhile_eq_nil_iff.2 hw,
      nonempty, readExponent?]
  | cons c cs =>
    have taken : (c :: cs).takeWhile Char.isDigit = c :: cs := List.takeWhile_eq_self_iff.2 hf
    have left : (c :: cs).dropWhile Char.isDigit = [] := List.dropWhile_eq_nil_iff.2 hf
    have point : Char.isDigit '.' = false := rfl
    rw [pointed, if_neg (List.cons_ne_nil c cs), readDigits?, List.takeWhile_append_of_pos hw,
      List.dropWhile_append_of_pos hw, List.takeWhile_cons, List.dropWhile_cons]
    simp [point, taken, left, readExponent?]

theorem readMagnitude?_pointed (nonempty : whole ≠ []) (hw : ∀ c ∈ whole, c.isDigit)
    (hf : ∀ c ∈ fraction, c.isDigit) :
    readMagnitude? (pointed whole fraction) =
      some (toFloat ⟨value (whole ++ fraction), -fraction.length⟩) := by
  obtain ⟨c, cs, rfl⟩ := List.exists_cons_of_ne_nil nonempty
  have digit := hw c (by simp)
  have same : c.toLower = c := by
    refine Char.toLower_eq_of_not_isUpper ?_
    simp only [Char.isUpper, Char.isDigit, UInt32.le_iff_toNat_le, Bool.and_eq_true,
      decide_eq_true_eq] at digit ⊢
    exact fun upper => absurd (upper.1.trans digit.2) (by decide)
  have word {w : String} {d : Char} (first : w.toList.head? = some d) (other : d.isDigit = false) :
      String.ofList ((pointed (c :: cs) fraction).map Char.toLower) ≠ w := by
    rintro rfl
    obtain rfl : c = d := by simpa [pointed, same] using first
    simp [digit] at other
  rw [readMagnitude?, if_neg, if_neg, readDigits?_pointed nonempty hw hf]
  · rfl
  · exact word (d := 'n') rfl rfl
  · rintro (h | h)
    · exact word (d := 'i') rfl rfl h
    · exact word (d := 'i') rfl rfl h

theorem splitSign_pointed (nonempty : whole ≠ []) (hw : ∀ c ∈ whole, c.isDigit) :
    splitSign (pointed whole fraction) = (false, pointed whole fraction) := by
  obtain ⟨c, cs, rfl⟩ := List.exists_cons_of_ne_nil nonempty
  have digit := hw c (by simp)
  rw [pointed, List.cons_append, splitSign]
  · rintro rest ⟨⟩
    simp at digit
  · rintro rest ⟨⟩
    simp at digit

theorem toFloat_of_owns {d : Decimal} {x : Dyadic} (normal : x.Normal) (bounded : x.exponent ≤ 971)
    (owns : x.Owns d.rat) :
    d.toFloat = .ofModel (.pack (.finite .positive x.mantissa x.exponent normal.pos)) := by
  have pos : 0 < d.digits := by
    rw [Nat.pos_iff_ne_zero, ne_eq, ← rat_eq_zero]
    exact (owns.pos normal.pos).ne'
  rw [toFloat, Float.Model.ofScientific, ofScientific_eq normal bounded owns pos rfl]

open Binary64 Float.Model Float.Model.UnpackedFloat

theorem reads_magnitudeText {e : BitVec 11} {m : BitVec 52}
    (small : magnitude e m < 2047 * 2 ^ 52) :
    readMagnitude? (magnitudeText .constant (magnitude e m)) = some (ofFields .positive e m) ∧
    splitSign (magnitudeText .constant (magnitude e m)) =
      (false, magnitudeText .constant (magnitude e m)) := by
  generalize hd : (if (Dyadic.ofBits (magnitude e m)).mantissa = 0 then (⟨0, 0⟩ : Decimal)
    else (Dyadic.ofBits (magnitude e m)).shortest) = d
  have text : magnitudeText .constant (magnitude e m) = positionalText .constant d := by
    rw [magnitudeText, text_constant, hd]
  obtain ⟨whole, fraction, shape, nonempty, hw, hf, same⟩ := positionalText_eq d
  rw [text, shape, readMagnitude?_pointed nonempty hw hf]
  refine ⟨congrArg some ?_, splitSign_pointed nonempty hw⟩
  obtain zero | pos := Nat.eq_zero_or_pos (Dyadic.ofBits (magnitude e m)).mantissa
  · rw [if_pos zero] at hd
    subst hd
    have none : value (whole ++ fraction) = 0 := by
      simpa using rat_eq_zero.1 (same.trans (rat_eq_zero.2 rfl))
    rw [toFloat, none, ofFields, unpack_fields_zero small zero, Float.Model.ofScientific,
      UnpackedFloat.ofScientific, dif_pos rfl]
  · rw [if_neg pos.ne'] at hd
    subst hd
    have normal := Dyadic.normal_ofBits pos
    have bounded := Dyadic.exponent_ofBits_le small
    rw [ofFields, unpack_fields_finite small rfl pos]
    exact toFloat_of_owns normal bounded (same ▸ Dyadic.shortest_owns normal bounded)

def unsigned (style : Style) (magnitude : ℕ) : List Char :=
  if magnitude = 2047 * 2 ^ 52 then "inf".toList else magnitudeText style magnitude

theorem bitsText_eq (style : Style) (s : Sign) {n : ℕ} (number : n ≤ 2047 * 2 ^ 52) :
    bitsText style (s.toBitVec.toNat * 2 ^ 63 + n) =
      (match s with | .positive => [] | .negative => ['-']) ++ unsigned style n := by
  have rest : (s.toBitVec.toNat * 2 ^ 63 + n) % 2 ^ 63 = n := by
    rw [Nat.mul_add_mod_self_right, Nat.mod_eq_of_lt (by omega)]
  simp only [bitsText, Nat.pow_eq, rest]
  rw [if_neg number.not_gt, unsigned]
  cases s with
  | positive =>
    have bit : Sign.positive.toBitVec.toNat = 0 := rfl
    rw [if_pos (by omega)]
  | negative =>
    have bit : Sign.negative.toBitVec.toNat = 1 := rfl
    rw [if_neg (by omega)]

theorem reads_unsigned {e : BitVec 11} {m : BitVec 52} (number : magnitude e m ≤ 2047 * 2 ^ 52) :
    readMagnitude? (unsigned .constant (magnitude e m)) = some (ofFields .positive e m) ∧
    splitSign (unsigned .constant (magnitude e m)) =
      (false, unsigned .constant (magnitude e m)) := by
  obtain small | infinite := number.lt_or_eq
  · rw [unsigned, if_neg small.ne]
    exact reads_magnitudeText small
  · rw [unsigned, if_pos infinite, ofFields, unpack_fields_infinite infinite]
    refine ⟨?_, rfl⟩
    decide +kernel

theorem read?_eq {text rest : List Char} {negative : Bool} {x : Float}
    (split : splitSign text = (negative, rest)) (reads : readMagnitude? rest = some x) :
    read? (String.ofList text) = some (if negative then -x else x) := by
  rw [read?, String.toList_ofList, split]
  simp only [reads, Option.map_some]

/-- Every float is read back from its digits. -/
theorem read_write (x : Float) : read? (write .constant x) = some x := by
  by_cases nan : x.isNaN
  · obtain rfl : x = 0 / 0 := eq_of_isNaN nan (by decide)
    decide +kernel
  obtain ⟨s, e, m, rfl, bits⟩ := exists_ofFields x
  have number : magnitude e m ≤ 2047 * 2 ^ 52 := le_of_not_gt fun large => nan (isNaN_ofFields large)
  obtain ⟨reads, plain⟩ := reads_unsigned number
  rw [write, bits, toNat_fields, bitsText_eq _ _ number]
  cases s with
  | positive => rw [List.nil_append, read?_eq plain reads, if_neg Bool.false_ne_true]
  | negative =>
    have minus : splitSign ('-' :: unsigned .constant (magnitude e m)) =
        (true, unsigned .constant (magnitude e m)) := rfl
    rw [List.singleton_append, read?_eq minus reads, if_pos rfl, neg_ofFields number]

end LazyMatrix.Decimal
