import LessCss.Proofs.Number.FourPlaces
import Mathlib.Algebra.Order.Field.Basic
import Mathlib.Algebra.Order.Field.Rat
import Mathlib.Data.List.DropRight
import Mathlib.Tactic.FieldSimp
import Mathlib.Tactic.Linarith
import Mathlib.Tactic.Ring
/-!
What the text of a double says.

The number that is written differs from the double by at most half a ten-thousandth, and it is written without zeros
that could be left out (`render_accurate`). `rational` is the number that a double stands for, `Numeral.rational` that
of a numeral.
-/
namespace LessCss

theorem digitsValue_eq (ds : Text) : digitsValue ds = Nat.ofDigitChars 10 ds 0 := rfl

theorem digitsValue_append (ds es : Text) :
    digitsValue (ds ++ es) = 10 ^ es.length * digitsValue ds + digitsValue es := by
  simp only [digitsValue_eq]
  rw [Nat.ofDigitChars_append, Nat.ofDigitChars_eq_ofDigitChars_zero]

namespace Numeral

/-- The number that a numeral denotes. -/
def rational (n : Numeral) : ℚ := (if n.sign.isEmpty then 1 else -1) * n.mantissa * 10 ^ n.scale

/-- A numeral with at most four decimal places and no superfluous zero. -/
structure Canonical (n : Numeral) : Prop where
  sign : n.sign = [] ∨ n.sign = ['-']
  whole : n.whole = ['0'] ∨ n.whole ≠ [] ∧ n.whole.head? ≠ some '0'
  whole_digits : ∀ c ∈ n.whole, c.isDigit = true
  fraction : ∀ f ∈ n.fraction, 1 ≤ f.length ∧ f.length ≤ 4 ∧ f.getLast? ≠ some '0'
  fraction_digits : ∀ f ∈ n.fraction, ∀ c ∈ f, c.isDigit = true
  exponent : n.exponent = none

end Numeral

namespace FourPlaces
open Float.Model

/-- The number that a finite double stands for. -/
def rational (v : Float) : ℚ :=
  match v.toModel.unpack with
  | .finite sign mantissa exponent _ => sign.apply mantissa * 2 ^ exponent
  | _ => 0

theorem digitsValue_digits (n : Nat) : digitsValue (digits n) = n := Nat.ofDigitChars_ten_toDigits

theorem digitsValue_zeros (k : Nat) : digitsValue (List.replicate k '0') = 0 := by
  rw [digitsValue_eq, Nat.ofDigitChars_replicate_zero, Nat.mul_zero]

/-- By induction on the number of digits: the first digit is that of the number without the last one. -/
theorem head?_digits {n : Nat} (h : 0 < n) : (digits n).head? ≠ some '0' := by
  induction n using Nat.strong_induction_on with
  | _ n ih =>
    rw [digits, Nat.toDigits_eq_if (by decide)]
    split
    · simpa using h.ne'
    · rw [List.head?_append_of_ne_nil _ Nat.toDigits_ne_nil]
      exact ih (n / 10) (by omega) (by omega)

theorem digits_zero : digits 0 = ['0'] := Nat.toDigits_zero 10

/-- The four digits of a number of ten-thousandths below one. -/
def padded (n : Nat) : Text := List.replicate (4 - (digits n).length) '0' ++ digits n

theorem length_padded {n : Nat} (h : n < 10000) : (padded n).length = 4 := by
  have hlength : (digits n).length ≤ 4 := (Nat.length_toDigits_le_iff (by decide) (by decide)).mpr h
  rw [padded, List.length_append, List.length_replicate]
  omega

theorem digitsValue_padded (n : Nat) : digitsValue (padded n) = n := by
  rw [padded, digitsValue_append, digitsValue_zeros, digitsValue_digits, Nat.mul_zero, Nat.zero_add]

theorem fractionDigits_eq (n : Nat) : fractionDigits n = (padded n).rdropWhile (· = '0') := rfl

/-- Only zeros are left out. -/
theorem padded_eq (n : Nat) : ∃ k, padded n = fractionDigits n ++ List.replicate k '0' := by
  have hzeros := List.eq_replicate_of_mem fun c (hc : c ∈ (padded n).rtakeWhile (· = '0')) =>
    of_decide_eq_true (List.mem_rtakeWhile_imp (p := fun c => decide (c = '0')) hc)
  refine ⟨((padded n).rtakeWhile (· = '0')).length, ?_⟩
  rw [← hzeros, fractionDigits_eq, List.rdropWhile_append_rtakeWhile]

theorem getLast?_fractionDigits (n : Nat) : (fractionDigits n).getLast? ≠ some '0' := by
  intro h
  obtain ⟨hne, hlast⟩ := List.mem_getLast?_eq_getLast h
  exact List.rdropWhile_last_not _ _ hne (decide_eq_true hlast.symm)

/-- The nearest whole number is at most one half away. -/
theorem roundDiv_near (n : Nat) {d : Nat} (hd : 0 < d) : |(roundDiv n d : ℚ) - n / d| ≤ 1 / 2 := by
  have hdivision := Nat.div_add_mod n d
  have hmod := Nat.mod_lt n hd
  have hnear : 2 * (d * roundDiv n d) ≤ 2 * n + d ∧ 2 * n ≤ 2 * (d * roundDiv n d) + d := by
    have hsucc : d * (n / d + 1) = d * (n / d) + d := Nat.mul_succ d (n / d)
    unfold roundDiv
    dsimp only
    split_ifs <;> omega
  have hpos : (0 : ℚ) < d := by exact_mod_cast hd
  have hlow : (2 * (d * roundDiv n d) : ℚ) ≤ 2 * n + d := by exact_mod_cast hnear.1
  have hhigh : (2 * n : ℚ) ≤ 2 * (d * roundDiv n d) + d := by exact_mod_cast hnear.2
  have hdistance : (roundDiv n d : ℚ) - n / d = (d * roundDiv n d - n) / d := by field_simp
  rw [hdistance, abs_div, abs_of_pos hpos, div_le_iff₀ hpos, abs_le]
  constructor <;> linarith

/-- A quotient up to one half is rounded to zero. -/
theorem roundDiv_eq_zero {n d : Nat} (hd : 0 < d) (h : 2 * n ≤ d) : roundDiv n d = 0 := by
  have hdiv : n / d = 0 := Nat.div_eq_of_lt (by omega)
  have hmod : n % d = n := Nat.mod_eq_of_lt (by omega)
  rw [roundDiv, hdiv, hmod]
  split
  · rfl
  · rw [if_neg (by omega), if_pos rfl]

/-- The number of units of a magnitude in one. -/
def unitsOfOne : Nat := 1 <<< 1075

theorem unitsOfOne_pos : 0 < unitsOfOne := by decide +kernel

theorem tenThousandths_eq (f : Fields) : tenThousandths f = roundDiv (f.magnitude * 10000) unitsOfOne := rfl

/-- How far the ten-thousandths of a magnitude are from it. -/
theorem tenThousandths_near (f : Fields) :
    |(tenThousandths f : ℚ) / 10000 - f.magnitude / unitsOfOne| ≤ 1 / 20000 := by
  have hnear := roundDiv_near (f.magnitude * 10000) unitsOfOne_pos
  have hscale : (tenThousandths f : ℚ) / 10000 - f.magnitude / unitsOfOne =
      (tenThousandths f - (f.magnitude * 10000 : ℕ) / unitsOfOne) / 10000 := by
    push_cast
    ring
  rw [hscale, abs_div, abs_of_pos (by norm_num : (0 : ℚ) < 10000), div_le_iff₀ (by norm_num)]
  calc |(tenThousandths f : ℚ) - (f.magnitude * 10000 : ℕ) / unitsOfOne| ≤ 1 / 2 := hnear
    _ = 1 / 20000 * 10000 := by norm_num

/-- A negligible magnitude is written as zero. -/
theorem tenThousandths_of_isNegligible {f : Fields} (h : f.isNegligible = true) : tenThousandths f = 0 := by
  have hleast : 20000 * Fields.leastSigned.magnitude < unitsOfOne := by decide +kernel
  have hlt : f.magnitude < Fields.leastSigned.magnitude := of_decide_eq_true h
  rw [tenThousandths_eq]
  exact roundDiv_eq_zero unitsOfOne_pos (by omega)

def Fields.sign (f : Fields) : UnpackedFloat.Sign := if f.negative then .negative else .positive

/-- What a double with the fields `f` is unpacked to. -/
inductive Unpacked (f : Fields) : UnpackedFloat → Prop
  | infinity (h : f.exponent = 2047) (sign) : Unpacked f (.infinity sign)
  | notANumber (h : f.exponent = 2047) : Unpacked f .notANumber
  | zero (he : f.exponent = 0) (hf : f.fraction = 0) (sign) : Unpacked f (.zero sign)
  | subnormal (he : f.exponent = 0) (hpos) : Unpacked f (.finite f.sign f.fraction (-1074) hpos)
  | normal (hne : f.exponent ≠ 2047) (he : f.exponent ≠ 0) (hpos) :
      Unpacked f (.finite f.sign (f.fraction + 1 <<< 52) (f.exponent - 1075) hpos)

theorem Unpacked.of_subnormal {f : Fields} {n : Nat} {e : ℤ} (he : f.exponent = 0) (hn : n = f.fraction)
    (hscale : e = -1074) (hpos) : Unpacked f (.finite f.sign n e hpos) := by
  subst hn hscale
  exact .subnormal he hpos

theorem Unpacked.of_normal {f : Fields} {n : Nat} {e : ℤ} (hne : f.exponent ≠ 2047) (he : f.exponent ≠ 0)
    (hn : n = f.fraction + 1 <<< 52) (hscale : e = f.exponent - 1075) (hpos) :
    Unpacked f (.finite f.sign n e hpos) := by
  subst hn hscale
  exact .normal hne he hpos

section Bits

variable (v : Float)

theorem toBits_eq : v.toBits = v.toModel.toBits := rfl

theorem unpackMantissa_toNat :
    (@UnpackedFloat.unpackMantissa Format.binary64 v.toModel.toBits.toBitVec).toNat = (fields v).fraction := by
  simp [UnpackedFloat.unpackMantissa, fields, toBits_eq]

theorem unpackExponent_toNat :
    (@UnpackedFloat.unpackExponent Format.binary64 v.toModel.toBits.toBitVec).toNat = (fields v).exponent := by
  simp [UnpackedFloat.unpackExponent, fields, toBits_eq]

theorem unpackSign_eq :
    UnpackedFloat.Sign.ofBitVec (@UnpackedFloat.unpackSign Format.binary64 v.toModel.toBits.toBitVec) =
      (fields v).sign := by
  have hbits : v.toModel.toBits.toNat >>> 63 < 2 := by
    have := v.toModel.toBits.toNat_lt
    omega
  have hsign : (@UnpackedFloat.unpackSign Format.binary64 v.toModel.toBits.toBitVec).toNat =
      v.toModel.toBits.toNat >>> 63 := by
    change ((v.toModel.toBits.toBitVec.extractLsb 63 63).cast rfl).toNat = _
    simpa using Nat.mod_eq_of_lt hbits
  have hnegative : (fields v).negative = decide (v.toModel.toBits.toNat >>> 63 = 1) := rfl
  rw [Fields.sign, hnegative, ← hsign]
  generalize @UnpackedFloat.unpackSign Format.binary64 v.toModel.toBits.toBitVec = b
  rcases BitVec.eq_zero_or_eq_one b with rfl | rfl
  · rfl
  · rfl

theorem unpackExponent_eq_zero_iff :
    @UnpackedFloat.unpackExponent Format.binary64 v.toModel.toBits.toBitVec = 0#11 ↔ (fields v).exponent = 0 := by
  rw [← BitVec.toNat_inj, unpackExponent_toNat]
  rfl

theorem unpackExponent_eq_ones_iff :
    @UnpackedFloat.unpackExponent Format.binary64 v.toModel.toBits.toBitVec = -1#11 ↔ (fields v).exponent = 2047 := by
  rw [← BitVec.toNat_inj, unpackExponent_toNat]
  rfl

theorem unpackMantissa_eq_zero_iff :
    @UnpackedFloat.unpackMantissa Format.binary64 v.toModel.toBits.toBitVec = 0#52 ↔ (fields v).fraction = 0 := by
  rw [← BitVec.toNat_inj, unpackMantissa_toNat]
  rfl

/-- A normal double has a leading one that its bits leave out. -/
theorem leading_unpackMantissa_toNat :
    (1#1 ++ @UnpackedFloat.unpackMantissa Format.binary64 v.toModel.toBits.toBitVec).toNat =
      (fields v).fraction + 1 <<< 52 := by
  have hfraction := unpackMantissa_toNat v
  rw [BitVec.toNat_append, hfraction, Nat.add_comm]
  refine (Nat.shiftLeft_add_eq_or_of_lt ?_ 1).symm
  rw [← hfraction]
  exact BitVec.isLt _

theorem unpacked : Unpacked (fields v) v.toModel.unpack := by
  have hexponent := unpackExponent_toNat v
  have hzero := unpackExponent_eq_zero_iff v
  have hones := unpackExponent_eq_ones_iff v
  have hbias : (Format.exponentBias Format.binary64 : ℤ) + (52 : ℕ) = 1075 := rfl
  change Unpacked _ (UnpackedFloat.unpack Format.binary64 v.toModel.toBits.toBitVec)
  unfold UnpackedFloat.unpack
  dsimp only
  rw [unpackSign_eq]
  by_cases hspecial : @UnpackedFloat.unpackExponent Format.binary64 v.toModel.toBits.toBitVec = -1#11
  · rw [if_pos hspecial]
    by_cases hm : @UnpackedFloat.unpackMantissa Format.binary64 v.toModel.toBits.toBitVec = 0#52
    · rw [if_pos hm]
      exact .infinity (hones.mp hspecial) _
    · rw [if_neg hm]
      exact .notANumber (hones.mp hspecial)
  · rw [if_neg hspecial]
    by_cases he : @UnpackedFloat.unpackExponent Format.binary64 v.toModel.toBits.toBitVec = 0#11
    · rw [if_pos he]
      by_cases hm : @UnpackedFloat.unpackMantissa Format.binary64 v.toModel.toBits.toBitVec = 0#52
      · rw [dif_pos hm]
        exact .zero (hzero.mp he) ((unpackMantissa_eq_zero_iff v).mp hm) _
      · rw [dif_neg hm]
        refine .of_subnormal (hzero.mp he) (unpackMantissa_toNat v) ?_ _
        rw [hexponent, hzero.mp he, hbias]
        rfl
    · rw [if_neg he]
      refine .of_normal (mt hones.mpr hspecial) (mt hzero.mpr he) (leading_unpackMantissa_toNat v) ?_ _
      rw [hexponent, hbias]

/-- The fields tell whether a double is finite. -/
theorem isFinite_eq : v.isFinite = (fields v).isFinite := by
  change v.toModel.unpack.isFinite = _
  have h := unpacked v
  generalize v.toModel.unpack = u at h
  cases h with
  | infinity h => exact (decide_eq_false (not_not_intro h)).symm
  | notANumber h => exact (decide_eq_false (not_not_intro h)).symm
  | zero h => exact (decide_eq_true (by omega)).symm
  | subnormal h => exact (decide_eq_true (by omega)).symm
  | normal h => exact (decide_eq_true h).symm

end Bits

/-- The sign of a double as a factor. -/
def Fields.factor (f : Fields) : ℚ := if f.negative then -1 else 1

theorem Fields.sign_apply (f : Fields) (n : Nat) : (f.sign.apply n : ℚ) = f.factor * n := by
  unfold Fields.sign Fields.factor
  split
  · simp [UnpackedFloat.Sign.apply]
  · simp [UnpackedFloat.Sign.apply]

theorem cast_shiftLeft (n : Nat) : ((1 <<< n : ℕ) : ℚ) = 2 ^ n := by
  rw [Nat.one_shiftLeft, Nat.cast_pow, Nat.cast_ofNat]

theorem unitsOfOne_eq : (unitsOfOne : ℚ) = 2 ^ 1075 := cast_shiftLeft 1075

theorem rational_eq (v : Float) (h : (fields v).isFinite = true) :
    rational v = (fields v).factor * ((fields v).magnitude / unitsOfOne) := by
  have hne : (fields v).exponent ≠ 2047 := of_decide_eq_true h
  have hunpacked := unpacked v
  rw [rational, unitsOfOne_eq]
  generalize v.toModel.unpack = u at hunpacked
  generalize fields v = f at *
  cases hunpacked with
  | infinity h => exact absurd h hne
  | notANumber h => exact absurd h hne
  | zero he hf => simp [Fields.magnitude, he, hf]
  | subnormal he =>
    have hpower : (2 : ℚ) ^ (-1074 : ℤ) = 2 / 2 ^ 1075 := by
      rw [show (-1074 : ℤ) = 1 - 1075 from rfl, zpow_sub₀ two_ne_zero, zpow_one]
      rfl
    dsimp only
    rw [f.sign_apply, Fields.magnitude, if_pos he, hpower]
    generalize (2 : ℚ) ^ 1075 = d
    push_cast
    ring
  | normal _ he =>
    have hpower : (2 : ℚ) ^ (f.exponent - 1075 : ℤ) = 2 ^ f.exponent / 2 ^ 1075 := by
      rw [zpow_sub₀ two_ne_zero, zpow_natCast]
      rfl
    dsimp only
    rw [f.sign_apply, Fields.magnitude, if_neg he, Nat.shiftLeft_eq _ f.exponent, hpower]
    generalize (2 : ℚ) ^ 1075 = d
    push_cast
    ring

section Numerals

variable {v : Float}

theorem numeral_fraction (v : Float) :
    (numeral v).fraction.getD [] = fractionDigits (tenThousandths (fields v) % 10000) := by
  unfold numeral
  dsimp only
  split
  · next h => exact (List.isEmpty_iff.mp h).symm
  · rfl

/-- Without the sign a numeral is the number of ten-thousandths. -/
theorem numeral_mantissa (v : Float) :
    (numeral v).mantissa * (10 : ℚ) ^ (numeral v).scale = (tenThousandths (fields v) : ℚ) / 10000 := by
  have hfraction := numeral_fraction v
  have hwhole : (numeral v).whole = digits (tenThousandths (fields v) / 10000) := rfl
  have hscale : (numeral v).scale = 0 - ((numeral v).fraction.getD []).length := rfl
  rw [Numeral.mantissa, hscale, hfraction, hwhole]
  generalize tenThousandths (fields v) = n
  have hlt : n % 10000 < 10000 := Nat.mod_lt _ (by decide)
  obtain ⟨k, hk⟩ := padded_eq (n % 10000)
  have hlength : (fractionDigits (n % 10000)).length + k = 4 := by
    rw [← length_padded hlt, hk, List.length_append, List.length_replicate]
  have hvalue : 10 ^ k * digitsValue (digits (n / 10000) ++ fractionDigits (n % 10000)) = n := by
    calc 10 ^ k * digitsValue (digits (n / 10000) ++ fractionDigits (n % 10000))
        = digitsValue (digits (n / 10000) ++ padded (n % 10000)) := by
          rw [hk, ← List.append_assoc, digitsValue_append _ (List.replicate k '0'), digitsValue_zeros,
            List.length_replicate, Nat.add_zero]
      _ = 10000 * (n / 10000) + n % 10000 := by
          rw [digitsValue_append, digitsValue_digits, digitsValue_padded, length_padded hlt]
          rfl
      _ = n := Nat.div_add_mod n 10000
  have hpower : (10000 : ℚ) = 10 ^ (fractionDigits (n % 10000)).length * 10 ^ k := by
    rw [← pow_add, hlength]
    norm_num
  have hvalue' : (10 ^ k * digitsValue (digits (n / 10000) ++ fractionDigits (n % 10000)) : ℚ) = n := by
    exact_mod_cast hvalue
  rw [zero_sub, zpow_neg, zpow_natCast, hpower, ← hvalue']
  field_simp

theorem numeral_sign (v : Float) :
    (numeral v).sign = if (fields v).negative && !(fields v).isNegligible then ['-'] else [] := rfl

/-- A sign is left out only before a zero. -/
theorem numeral_rational (v : Float) :
    (numeral v).rational = (fields v).factor * (tenThousandths (fields v) / 10000) := by
  rw [Numeral.rational, mul_assoc, numeral_mantissa, numeral_sign]
  cases hnegative : (fields v).negative with
  | false => simp [Fields.factor, hnegative]
  | true =>
    cases hnegligible : (fields v).isNegligible with
    | false => simp [Fields.factor, hnegative]
    | true => simp [tenThousandths_of_isNegligible hnegligible]

theorem numeral_canonical (v : Float) : (numeral v).Canonical where
  sign := (numeral_wellFormed v).sign
  whole := by
    have hwhole : (numeral v).whole = digits (tenThousandths (fields v) / 10000) := rfl
    rw [hwhole]
    rcases Nat.eq_zero_or_pos (tenThousandths (fields v) / 10000) with hzero | hpos
    · rw [hzero]
      exact .inl digits_zero
    · exact .inr ⟨Nat.toDigits_ne_nil, head?_digits hpos⟩
  whole_digits := (numeral_wellFormed v).whole
  fraction := by
    intro f hf
    have hfraction := numeral_fraction v
    rw [hf, Option.getD_some] at hfraction
    refine ⟨List.length_pos_iff.mpr ((numeral_wellFormed v).fraction f hf).1, ?_, ?_⟩
    · obtain ⟨k, hk⟩ := padded_eq (tenThousandths (fields v) % 10000)
      have hlength := length_padded (Nat.mod_lt (tenThousandths (fields v)) (by decide : 0 < 10000))
      rw [hk, List.length_append, ← hfraction] at hlength
      omega
    · rw [hfraction]
      exact getLast?_fractionDigits _
  fraction_digits := by
    intro f hf
    exact ((numeral_wellFormed v).fraction f hf).2
  exponent := rfl

end Numerals

theorem Fields.abs_factor (f : Fields) : |f.factor| = 1 := by
  unfold Fields.factor
  split
  · rw [abs_neg, abs_one]
  · exact abs_one

/-- A finite double is written as a canonical numeral, which is read again and denotes a number that differs from the
double by at most half a ten-thousandth. -/
theorem render_accurate (v : Float) (h : v.isFinite = true) :
    ∃ n : Numeral, render v = n.text ∧ Numeral.read? (render v) = some (n, []) ∧ n.Canonical ∧
      |n.rational - rational v| ≤ 1 / 20000 := by
  rw [isFinite_eq] at h
  have hread : Numeral.read? (numeral v).text = some (numeral v, []) := by
    rw [← List.append_nil (numeral v).text]
    exact Numeral.read?_text (numeral_wellFormed v) ⟨rfl, fun _ => rfl, fun _ _ => rfl⟩
  refine ⟨numeral v, render_of_finite h, ?_, numeral_canonical v, ?_⟩
  · rw [render_of_finite h, hread]
  · calc |(numeral v).rational - rational v|
        = |(fields v).factor * (tenThousandths (fields v) / 10000 - (fields v).magnitude / unitsOfOne)| := by
          rw [numeral_rational, rational_eq v h, mul_sub]
      _ = |(tenThousandths (fields v) : ℚ) / 10000 - (fields v).magnitude / unitsOfOne| := by
          rw [abs_mul, Fields.abs_factor, one_mul]
      _ ≤ 1 / 20000 := tenThousandths_near (fields v)

/-- The double nearest to -0.99995 is rounded away from zero, and the carry reaches its whole part. -/
theorem render_accurate_carry :
    let v := Float.ofBits 0xBFEFFF972474538F
    v.isFinite = true ∧ render v = "-1".toList ∧ ∃ n : Numeral, render v = n.text ∧
      Numeral.read? (render v) = some (n, []) ∧ n.Canonical ∧ |n.rational - rational v| ≤ 1 / 20000 := by
  intro v
  have hfinite : v.isFinite = true := by decide +kernel
  have hrender : render v = "-1".toList := by decide +kernel
  exact ⟨hfinite, hrender, render_accurate v hfinite⟩

end FourPlaces
end LessCss
