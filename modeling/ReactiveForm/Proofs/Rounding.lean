import Mathlib.Algebra.GroupWithZero.Nat
import Mathlib.Order.Nat
import ReactiveForm.Number.Binary64
import ReactiveForm.Number.Reading

/-! The number nearest to an integer. It has 53 binary digits: an integer that has more of
them is rounded, and what has more than 1024 afterwards is infinite. -/

namespace ReactiveForm.Number

/-! Quotients. -/

def nearestQuotient (dividend divisor : Nat) : Nat :=
  let quotient := dividend / divisor
  match compare (2 * (dividend % divisor)) divisor with
  | .lt => quotient
  | .eq => quotient + quotient % 2
  | .gt => quotient + 1

section Quotients

variable (dividend divisor : Nat)

theorem div_le_nearestQuotient : dividend / divisor ≤ nearestQuotient dividend divisor := by
  rw [nearestQuotient]
  split <;> omega

theorem nearestQuotient_le : nearestQuotient dividend divisor ≤ dividend / divisor + 1 := by
  rw [nearestQuotient]
  split <;> omega

theorem nearestQuotient_one : nearestQuotient dividend 1 = dividend := by
  rw [nearestQuotient, Nat.mod_one, Nat.div_one]
  rfl

theorem nearestQuotient_mul {factor : Nat} (positive : 0 < factor) :
    nearestQuotient (dividend * factor) (divisor * factor) = nearestQuotient dividend divisor := by
  have scaled : compare (2 * (dividend % divisor * factor)) (divisor * factor) =
      compare (2 * (dividend % divisor)) divisor := by
    rw [← Nat.mul_assoc]
    simp only [Nat.compare_eq_ite_lt, Nat.mul_lt_mul_right positive]
  rw [nearestQuotient, nearestQuotient, Nat.mul_div_mul_right _ _ positive, Nat.mul_mod_mul_right,
    scaled]

end Quotients

/-! Integers with 53 binary digits. -/

def spacing (number : Nat) : Nat := 2 ^ (number.log2 - 52)

/-- The number with 53 binary digits that is nearest to a number. Of two, it is the one whose
last digit is zero. -/
def rounded (number : Nat) : Nat :=
  nearestQuotient number (spacing number) * spacing number

section Rounded

variable {number power : Nat}

theorem rounded_of_dvd (divides : spacing number ∣ number) : rounded number = number := by
  have positive : 0 < spacing number := Nat.two_pow_pos _
  have whole := nearestQuotient_mul (number / spacing number) 1 positive
  rw [Nat.div_mul_cancel divides, Nat.one_mul, nearestQuotient_one] at whole
  rw [rounded, whole, Nat.div_mul_cancel divides]

theorem rounded_of_lt (small : number < 2 ^ 53) : rounded number = number := by
  apply rounded_of_dvd
  rcases Nat.eq_zero_or_pos number with rfl | positive
  · exact Nat.dvd_zero _
  · have digits : number.log2 < 53 := (Nat.log2_lt positive.ne').mpr small
    rw [spacing, Nat.sub_eq_zero_of_le (Nat.lt_succ_iff.mp digits), Nat.pow_zero]
    exact Nat.one_dvd _

/-- The first number that is rounded is a tie, and so is the next one. -/
example : rounded 9007199254740993 = 9007199254740992 ∧
    rounded 9007199254740995 = 9007199254740996 := by
  decide +kernel

theorem two_pow_log2_le_rounded (positive : 0 < number) : 2 ^ number.log2 ≤ rounded number := by
  have unit : spacing number ∣ 2 ^ number.log2 := Nat.pow_dvd_pow 2 (Nat.sub_le _ _)
  calc 2 ^ number.log2 = 2 ^ number.log2 / spacing number * spacing number :=
        (Nat.div_mul_cancel unit).symm
    _ ≤ number / spacing number * spacing number :=
        Nat.mul_le_mul_right _ (Nat.div_le_div_right (Nat.log2_self_le positive.ne'))
    _ ≤ rounded number := Nat.mul_le_mul_right _ (div_le_nearestQuotient _ _)

theorem rounded_pos (positive : 0 < number) : 0 < rounded number :=
  Nat.lt_of_lt_of_le (Nat.two_pow_pos _) (two_pow_log2_le_rounded positive)

theorem log2_le_log2_rounded (positive : 0 < number) : number.log2 ≤ (rounded number).log2 :=
  (Nat.le_log2 (rounded_pos positive).ne').mpr (two_pow_log2_le_rounded positive)

theorem rounded_le_two_pow_log2 : rounded number ≤ 2 ^ (number.log2 + 1) := by
  have unit : spacing number ∣ 2 ^ (number.log2 + 1) := Nat.pow_dvd_pow 2 (by omega)
  have below : number / spacing number < 2 ^ (number.log2 + 1) / spacing number :=
    Nat.div_lt_div_of_lt_of_dvd unit Nat.lt_log2_self
  calc rounded number ≤ 2 ^ (number.log2 + 1) / spacing number * spacing number :=
        Nat.mul_le_mul_right _ ((nearestQuotient_le _ _).trans below)
    _ = 2 ^ (number.log2 + 1) := Nat.div_mul_cancel unit

theorem rounded_le_of_le (most : number ≤ 2 ^ power) : rounded number ≤ 2 ^ power := by
  rcases Nat.lt_or_eq_of_le most with below | rfl
  · rcases Nat.eq_zero_or_pos number with rfl | positive
    · exact Nat.zero_le _
    · exact rounded_le_two_pow_log2.trans
        (Nat.pow_le_pow_right Nat.two_pos ((Nat.log2_lt positive.ne').mpr below))
  · have divides : spacing (2 ^ power) ∣ 2 ^ power := by
      rw [spacing, Nat.log2_two_pow]
      exact Nat.pow_dvd_pow 2 (Nat.sub_le _ _)
    rw [rounded_of_dvd divides]

theorem log2_mul_two_pow (positive : 0 < number) (shift : Nat) :
    (number * 2 ^ shift).log2 = number.log2 + shift := by
  have unit := Nat.two_pow_pos shift
  rw [Nat.log2_eq_iff (Nat.mul_pos positive unit).ne', Nat.pow_add, Nat.add_right_comm, Nat.pow_add]
  exact ⟨Nat.mul_le_mul_right _ (Nat.log2_self_le positive.ne'),
    Nat.mul_lt_mul_of_pos_right Nat.lt_log2_self unit⟩

theorem le_log2_of_length (some : 0 < power)
    (long : power < (Nat.toDigits 10 number).length) : 3 * power ≤ number.log2 := by
  have large : 10 ^ power ≤ number := by
    rw [← Nat.not_lt, ← Nat.length_toDigits_le_iff (by decide) some]
    exact Nat.not_le.mpr long
  have least : 2 ^ (3 * power) ≤ 10 ^ power := by
    rw [Nat.pow_mul]
    exact Nat.pow_le_pow_left (by decide) power
  have positive : 0 < number := Nat.lt_of_lt_of_le (Nat.pow_pos (by decide)) large
  exact (Nat.le_log2 positive.ne').mpr (least.trans large)

end Rounded

structure IsWhole (size significand : Nat) (exponent : Int) : Prop where
  least : 2 ^ 52 ≤ significand
  below : significand < 2 ^ 53
  size_eq : significand * 2 ^ exponent.toNat = size * 2 ^ (-exponent).toNat

structure IsNormal (significand : Nat) (exponent : Int) : Prop where
  least : 2 ^ 52 ≤ significand
  below : significand < 2 ^ 53
  small : -1074 ≤ exponent
  large : exponent ≤ 971

section Whole

variable {size significand : Nat} {exponent : Int}

theorem IsWhole.pos (whole : IsWhole size significand exponent) : 0 < significand :=
  Nat.lt_of_lt_of_le (by decide) whole.least

theorem IsWhole.exponent_eq (whole : IsWhole size significand exponent) (positive : 0 < size) :
    exponent = (size.log2 : Int) - 52 := by
  have digits : significand.log2 = 52 :=
    (Nat.log2_eq_iff whole.pos.ne').mpr ⟨whole.least, whole.below⟩
  have value := congrArg Nat.log2 whole.size_eq
  rw [log2_mul_two_pow whole.pos, log2_mul_two_pow positive] at value
  omega

theorem IsWhole.isNormal (whole : IsWhole size significand exponent) (positive : 0 < size)
    (fits : size.log2 < 1024) : IsNormal significand exponent := by
  have := whole.exponent_eq positive
  exact ⟨whole.least, whole.below, by omega, by omega⟩

theorem IsWhole.carry
    (value : 2 ^ 53 * 2 ^ exponent.toNat = size * 2 ^ (-exponent).toNat) :
    IsWhole size (2 ^ 52) (exponent + 1) := by
  refine ⟨Nat.le_refl _, by decide, ?_⟩
  rcases Int.lt_or_le exponent 0 with down | up
  · have less : (-exponent).toNat = (-(exponent + 1)).toNat + 1 := by omega
    have none : (exponent + 1).toNat = exponent.toNat := by omega
    rw [less, Nat.pow_succ 2 (-(exponent + 1)).toNat, ← Nat.mul_assoc] at value
    rw [none]
    omega
  · have more : (exponent + 1).toNat = exponent.toNat + 1 := by omega
    have none : (-(exponent + 1)).toNat = (-exponent).toNat := by omega
    rw [more, none, ← value, Nat.pow_succ 2 exponent.toNat]
    omega

theorem nearestQuotient_isWhole {number shift : Nat} (long : 52 ≤ number.log2 + shift) :
    nearestQuotient (number * 2 ^ shift) (2 ^ (number.log2 + shift - 52)) *
        2 ^ ((number.log2 : Int) - 52).toNat =
      rounded number * 2 ^ (-((number.log2 : Int) - 52)).toNat := by
  rcases Nat.le_total 52 number.log2 with large | small
  · have split : 2 ^ (number.log2 + shift - 52) = spacing number * 2 ^ shift := by
      rw [spacing, ← Nat.pow_add]
      congr 1
      omega
    have up : ((number.log2 : Int) - 52).toNat = number.log2 - 52 := by omega
    have down : (-((number.log2 : Int) - 52)).toNat = 0 := by omega
    rw [split, nearestQuotient_mul _ _ (Nat.two_pow_pos shift), up, down, rounded, spacing,
      Nat.pow_zero, Nat.mul_one]
  · have split : number * 2 ^ shift =
        number * 2 ^ (52 - number.log2) * 2 ^ (number.log2 + shift - 52) := by
      rw [Nat.mul_assoc, ← Nat.pow_add]
      congr 2
      omega
    have unit : spacing number = 1 := by
      rw [spacing, Nat.sub_eq_zero_of_le small, Nat.pow_zero]
    have up : ((number.log2 : Int) - 52).toNat = 0 := by omega
    have down : (-((number.log2 : Int) - 52)).toNat = 52 - number.log2 := by omega
    have whole := nearestQuotient_mul (number * 2 ^ (52 - number.log2)) 1
      (Nat.two_pow_pos (number.log2 + shift - 52))
    rw [Nat.one_mul, nearestQuotient_one] at whole
    rw [split, whole, up, down, rounded, unit, nearestQuotient_one, Nat.pow_zero, Nat.mul_one,
      Nat.mul_one]

theorem nearestQuotient_bounds {number shift : Nat} (digits : number.log2 = 52 + shift) :
    2 ^ 52 ≤ nearestQuotient number (2 ^ shift) ∧ nearestQuotient number (2 ^ shift) ≤ 2 ^ 53 := by
  have unit := Nat.two_pow_pos shift
  have positive : number ≠ 0 := by
    rintro rfl
    rw [Nat.log2_zero] at digits
    omega
  have least : 2 ^ 52 * 2 ^ shift ≤ number := by
    rw [← Nat.pow_add, ← digits]
    exact Nat.log2_self_le positive
  have most : number < 2 ^ 53 * 2 ^ shift := by
    rw [← Nat.pow_add, ← Nat.log2_lt positive]
    omega
  exact ⟨((Nat.le_div_iff_mul_le unit).mpr least).trans (div_le_nearestQuotient _ _),
    (nearestQuotient_le _ _).trans ((Nat.div_lt_iff_lt_mul unit).mpr most)⟩

end Whole

/-! How the machine rounds: it drops the last digits one by one, and keeps in mind whether
they are less than half a unit, half a unit, or more. -/

open Float.Model Float.Model.UnpackedFloat

theorem mantissa_ofMantissaAndAccuracy (mantissa : Nat) (accuracy : Accuracy) :
    (ExtendedMantissa.ofMantissaAndAccuracy mantissa accuracy).mantissa = mantissa := by
  cases accuracy with
  | exact => rfl
  | inexact order => cases order <;> rfl

theorem roundedMantissa_ofMantissaAndAccuracy (mantissa : Nat) (accuracy : Accuracy) :
    (ExtendedMantissa.ofMantissaAndAccuracy mantissa accuracy).roundedMantissa =
      accuracy.roundToNearestEven mantissa := by
  cases accuracy with
  | exact => rfl
  | inexact order => cases order <;> rfl

theorem roundToNearestEven_accuracyOfFraction (dividend : Nat) {divisor : Nat}
    (positive : 0 < divisor) :
    (accuracyOfFraction (dividend % divisor) divisor).roundToNearestEven (dividend / divisor) =
      nearestQuotient dividend divisor := by
  rw [accuracyOfFraction, nearestQuotient]
  split
  next whole =>
    rw [whole, Nat.compare_eq_lt.mpr positive]
    rfl
  next =>
    split <;> rename_i compared <;> rw [compared] <;> rfl

/-- One digit less: the digit decides, unless it is a tie, which any digit dropped earlier
breaks. -/
theorem shiftRightOne_ofMantissaAndAccuracy (mantissa : Nat) (accuracy : Accuracy) :
    (ExtendedMantissa.ofMantissaAndAccuracy mantissa accuracy).shiftRightOne =
      ⟨mantissa / 2, mantissa % 2 != 0, !(accuracy matches .exact)⟩ := by
  cases accuracy with
  | exact => rfl
  | inexact order => cases order <;> rfl

theorem accuracyOfFraction_double {remainder unit bit : Nat} (small : remainder < unit)
    (isBit : bit < 2) (mantissa : Nat) :
    ExtendedMantissa.ofMantissaAndAccuracy mantissa
      (accuracyOfFraction (remainder + unit * bit) (unit * 2)) =
        ⟨mantissa, bit != 0, !(accuracyOfFraction remainder unit matches .exact)⟩ := by
  obtain rfl | rfl : bit = 0 ∨ bit = 1 := by omega
  · have below : compare (2 * remainder) (unit * 2) = .lt := Nat.compare_eq_lt.mpr (by omega)
    rw [Nat.mul_zero, Nat.add_zero, accuracyOfFraction, accuracyOfFraction, below]
    split <;> rfl
  · have some : remainder + unit ≠ 0 := by omega
    rw [Nat.mul_one, accuracyOfFraction, if_neg some, accuracyOfFraction]
    rcases Nat.eq_zero_or_pos remainder with half | more
    · have tie : compare (2 * (remainder + unit)) (unit * 2) = .eq :=
        Nat.compare_eq_eq.mpr (by omega)
      rw [tie, if_pos half]
      rfl
    · have above : compare (2 * (remainder + unit)) (unit * 2) = .gt :=
        Nat.compare_eq_gt.mpr (by omega)
      rw [above, if_neg more.ne']
      rfl

theorem shiftRight_exact (number shift : Nat) :
    ExtendedMantissa.ofMantissaAndAccuracy number .exact >>> shift =
      ExtendedMantissa.ofMantissaAndAccuracy (number / 2 ^ shift)
        (accuracyOfFraction (number % 2 ^ shift) (2 ^ shift)) := by
  induction shift with
  | zero =>
      rw [Nat.pow_zero, Nat.div_one, Nat.mod_one]
      rfl
  | succ shift induction =>
      have half : number / 2 ^ (shift + 1) = number / 2 ^ shift / 2 := by
        rw [Nat.pow_succ, Nat.div_div_eq_div_mul]
      have rest : number % 2 ^ (shift + 1) =
          number % 2 ^ shift + 2 ^ shift * (number / 2 ^ shift % 2) := by
        rw [Nat.pow_succ, Nat.mod_mul]
      calc ExtendedMantissa.ofMantissaAndAccuracy number .exact >>> (shift + 1)
          = (ExtendedMantissa.ofMantissaAndAccuracy number .exact >>> shift).shiftRightOne := rfl
        _ = ⟨number / 2 ^ shift / 2, number / 2 ^ shift % 2 != 0,
              !(accuracyOfFraction (number % 2 ^ shift) (2 ^ shift) matches .exact)⟩ := by
            rw [induction, shiftRightOne_ofMantissaAndAccuracy]
        _ = _ := by
            rw [half, rest, Nat.pow_succ,
              accuracyOfFraction_double (Nat.mod_lt _ (Nat.two_pow_pos shift))
                (Nat.mod_lt _ Nat.two_pos)]

theorem targetExponent_eq {exponent : Int} (large : -1021 ≤ exponent) :
    Format.binary64.targetExponent exponent = exponent - 53 := by
  have least : Format.binary64.minExponent = -1074 := by decide
  have digits : Format.binary64.mantissaBits = 53 := by decide
  rw [Format.targetExponent, least, digits]
  omega

theorem shiftToTargetExponent_eq {mantissa shift : Nat} {exponent : Int}
    (digits : mantissa.log2 = 52 + shift) (large : -1074 ≤ exponent) :
    shiftToTargetExponent Format.binary64 mantissa exponent .exact =
      (ExtendedMantissa.ofMantissaAndAccuracy (mantissa / 2 ^ shift)
        (accuracyOfFraction (mantissa % 2 ^ shift) (2 ^ shift)), exponent + shift) := by
  have amount : ((mantissa.log2 : Int) + 1 + exponent - 53 - exponent).toNat = shift := by omega
  rw [shiftToTargetExponent, totalExponent, targetExponent_eq (by omega)]
  dsimp only [shiftToExponent]
  rw [amount, shiftRight_exact]

theorem shiftToTargetExponent_isWhole {size significand : Nat} {exponent : Int}
    (least : 2 ^ 52 ≤ significand) (most : significand ≤ 2 ^ 53) (large : -1074 ≤ exponent)
    (value : significand * 2 ^ exponent.toNat = size * 2 ^ (-exponent).toNat) :
    IsWhole size (shiftToTargetExponent Format.binary64 significand exponent .exact).1.mantissa
      (shiftToTargetExponent Format.binary64 significand exponent .exact).2 := by
  rcases Nat.lt_or_eq_of_le most with below | rfl
  · have digits : significand.log2 = 52 + 0 := (Nat.log2_eq_iff (by omega)).mpr ⟨least, below⟩
    rw [shiftToTargetExponent_eq digits large, mantissa_ofMantissaAndAccuracy, Nat.pow_zero,
      Nat.div_one, Int.natCast_zero, Int.add_zero]
    exact ⟨least, below, value⟩
  · have digits : (2 ^ 53).log2 = 52 + 1 := by decide
    rw [shiftToTargetExponent_eq digits large, mantissa_ofMantissaAndAccuracy]
    exact .carry value

theorem roundWithAccuracy_isWhole (sign : Sign) {number shift : Nat} (positive : 0 < number)
    (long : 52 ≤ number.log2 + shift) (small : shift ≤ 1074) :
    ∃ significand exponent some,
      roundWithAccuracy Format.binary64 sign (number * 2 ^ shift) (-shift) .exact =
        .finite sign significand exponent some ∧
      IsWhole (rounded number) significand exponent := by
  have digits : (number * 2 ^ shift).log2 = 52 + (number.log2 + shift - 52) := by
    rw [log2_mul_two_pow positive]
    omega
  have exponent : -(shift : Int) + (number.log2 + shift - 52 : Nat) = (number.log2 : Int) - 52 := by
    omega
  rcases nearestQuotient_bounds digits with ⟨least, most⟩
  have whole := shiftToTargetExponent_isWhole least most (by omega) (nearestQuotient_isWhole long)
  rw [roundWithAccuracy, shiftToTargetExponent_eq digits (by omega)]
  dsimp only
  rw [roundedMantissa_ofMantissaAndAccuracy,
    roundToNearestEven_accuracyOfFraction _ (Nat.two_pow_pos _), exponent]
  generalize shiftToTargetExponent Format.binary64 _ _ .exact = last at whole ⊢
  have some : 0 < last.1.mantissa := Nat.lt_of_lt_of_le (by decide) whole.least
  exact ⟨_, _, some, dif_neg some.ne', whole⟩

theorem normalize_isWhole {number : Nat} (positive : 0 < number) (small : number < 2 ^ 53) :
    ∃ significand exponent some,
      UnpackedFloat.normalize Format.binary64 number 0 .positive =
        .finite .positive significand exponent some ∧
      IsWhole number significand exponent := by
  have digits : number.log2 ≤ 52 := Nat.lt_succ_iff.mp ((Nat.log2_lt positive.ne').mpr small)
  have compared : compare (number : Int) 0 = .gt := Int.compare_eq_gt.mpr (by omega)
  have shift : (0 - ((number.log2 : Int) + 1 + 0 - 53)).toNat = 52 - number.log2 := by omega
  have whole := @roundWithAccuracy_isWhole .positive number (52 - number.log2) positive (by omega)
    (by omega)
  rw [rounded_of_lt small] at whole
  rw [UnpackedFloat.normalize, compared]
  dsimp only
  rw [Int.toNat_natCast, UnpackedFloat.round, totalExponent, targetExponent_eq (by omega)]
  dsimp only [decreaseExponent]
  rw [shift, Nat.shiftLeft_eq, Int.zero_sub]
  exact whole

theorem mul_one_isWhole {number significand : Nat} {exponent : Int} (positive : 0 < number)
    (small : number < 2 ^ 53) (whole : IsWhole number significand exponent) :
    ∃ product scale some,
      roundWithAccuracy Format.binary64 .positive (significand * 2 ^ 52) (exponent + -52) .exact =
        .finite .positive product scale some ∧
      IsWhole number product scale := by
  have digits : number.log2 < 53 := (Nat.log2_lt positive.ne').mpr small
  have notLarge := whole.exponent_eq positive
  have value := whole.size_eq
  have down : exponent.toNat = 0 := by omega
  rw [down, Nat.pow_zero, Nat.mul_one] at value
  have rounds := @roundWithAccuracy_isWhole .positive number ((-exponent).toNat + 52) positive
    (by omega) (by omega)
  have scale : -(((-exponent).toNat + 52 : Nat) : Int) = exponent + -52 := by omega
  rw [rounded_of_lt small, Nat.pow_add, ← Nat.mul_assoc, ← value, scale] at rounds
  exact rounds

/-! Numbers as words of 64 bits. -/

theorem toNat_packComponents (sign : Sign) (exponent : BitVec 11) (mantissa : BitVec 52) :
    (packComponents Format.binary64 sign exponent mantissa).toNat =
      sign.toBitVec.toNat * 2 ^ 63 + exponent.toNat * 2 ^ 52 + mantissa.toNat := by
  rw [packComponents, BitVec.toNat_append, BitVec.toNat_append,
    ← Nat.shiftLeft_add_eq_or_of_lt mantissa.isLt, ← Nat.shiftLeft_add_eq_or_of_lt exponent.isLt,
    Nat.shiftLeft_eq, Nat.shiftLeft_eq]
  omega

theorem unpackSign_packComponents (sign : Sign) (exponent : BitVec 11) (mantissa : BitVec 52) :
    unpackSign (packComponents Format.binary64 sign exponent mantissa) = sign.toBitVec := by
  apply BitVec.eq_of_toNat_eq
  change (BitVec.extractLsb 63 63 (packComponents Format.binary64 sign exponent mantissa)).toNat = _
  rw [BitVec.extractLsb_toNat, toNat_packComponents, Nat.shiftRight_eq_div_pow]
  have := exponent.isLt
  have := mantissa.isLt
  have := sign.toBitVec.isLt
  omega

theorem ofBitVec_toBitVec (sign : Sign) : Sign.ofBitVec sign.toBitVec = sign := by
  cases sign <;> rfl

theorem toNat_append_mantissa (mantissa : BitVec 52) :
    (1#1 ++ mantissa).toNat = 2 ^ 52 + mantissa.toNat := by
  rw [BitVec.toNat_append, ← Nat.shiftLeft_add_eq_or_of_lt mantissa.isLt]
  rfl

theorem finite_congr {sign other : Sign} {significand digits : Nat} {exponent power : Int}
    {some : 0 < significand} {more : 0 < digits} (signs : sign = other)
    (significands : significand = digits) (exponents : exponent = power) :
    UnpackedFloat.finite sign significand exponent some = .finite other digits power more := by
  subst signs significands exponents
  rfl

theorem unpack_packComponents (sign : Sign) {exponent : BitVec 11} (mantissa : BitVec 52)
    (notLast : exponent ≠ -1#11) (notFirst : exponent ≠ 0#11) :
    UnpackedFloat.unpack Format.binary64
        (packComponents Format.binary64 sign exponent mantissa) =
      .finite sign (1#1 ++ mantissa).toNat (exponent.toNat - 1075)
        (by rw [toNat_append_mantissa]; omega) := by
  unfold UnpackedFloat.unpack
  rw [unpackSign_packComponents]
  extract_lets fraction biased unbiased signBit isNegative
  have isExponent : biased = exponent := unpackExponent_packComponents
  have isMantissa : fraction = mantissa := unpackMantissa_packComponents
  rw [if_neg (isExponent ▸ notLast), if_neg (isExponent ▸ notFirst)]
  refine finite_congr (ofBitVec_toBitVec sign) (by rw [isMantissa]) ?_
  change (biased.toNat : Int) - 1075 = _
  rw [isExponent]

def ofUnpacked (unpacked : UnpackedFloat) : Float := .ofModel (.pack unpacked)

theorem ofUnpacked_congr {left right : UnpackedFloat}
    (same : UnpackedFloat.pack Format.binary64 left = UnpackedFloat.pack Format.binary64 right) :
    ofUnpacked left = ofUnpacked right := by
  have models {left right : Float.Model} (bits : left.toBits = right.toBits) : left = right := by
    cases left
    cases bits
    rfl
  exact congrArg Float.ofModel (models (congrArg UInt64.ofBitVec same))

section Normal

variable {significand : Nat} {exponent : Int}

theorem pack_of_isNormal (normal : IsNormal significand exponent) (sign : Sign)
    (some : 0 < significand) :
    UnpackedFloat.pack Format.binary64 (.finite sign significand exponent some) =
      packComponents Format.binary64 sign (BitVec.ofNat 11 (exponent + 1075).toNat)
        (BitVec.ofNat 52 significand) := by
  have bias : Format.binary64.exponentBias = 1023 := by decide
  have mantissaBits : Format.binary64.mantissaBits = 53 := by decide
  have digits : significand.log2 = 52 :=
    (Nat.log2_eq_iff some.ne').mpr ⟨normal.least, normal.below⟩
  have biased : exponent + ((1023 : Nat) : Int) + ((52 : Nat) : Int) = exponent + 1075 := by omega
  have := normal.large
  unfold UnpackedFloat.pack
  rw [bias, mantissaBits, digits]
  dsimp only
  rw [biased, if_neg (by omega), if_pos rfl]

theorem unpack_pack_of_isNormal (normal : IsNormal significand exponent) (sign : Sign)
    (some : 0 < significand) :
    UnpackedFloat.unpack Format.binary64
        (UnpackedFloat.pack Format.binary64 (.finite sign significand exponent some)) =
      .finite sign significand exponent some := by
  rcases normal with ⟨least, below, small, large⟩
  have biased : (BitVec.ofNat 11 (exponent + 1075).toNat).toNat = (exponent + 1075).toNat := by
    rw [BitVec.toNat_ofNat]
    omega
  have notLast : BitVec.ofNat 11 (exponent + 1075).toNat ≠ -1#11 := by
    intro same
    have last : (-1#11).toNat = 2047 := rfl
    rw [same, last] at biased
    omega
  have notFirst : BitVec.ofNat 11 (exponent + 1075).toNat ≠ 0#11 := by
    intro same
    have first : (0#11).toNat = 0 := rfl
    rw [same, first] at biased
    omega
  rw [pack_of_isNormal ⟨least, below, small, large⟩, unpack_packComponents _ _ notLast notFirst]
  refine finite_congr rfl ?_ ?_
  · rw [toNat_append_mantissa, BitVec.toNat_ofNat]
    omega
  · omega

theorem toNat_toBits_ofUnpacked (normal : IsNormal significand exponent) (sign : Sign)
    (some : 0 < significand) :
    (ofUnpacked (.finite sign significand exponent some)).toBits.toNat =
      sign.toBitVec.toNat * 2 ^ 63 + (exponent + 1075).toNat * 2 ^ 52 + (significand - 2 ^ 52) := by
  change (UnpackedFloat.pack Format.binary64 (.finite sign significand exponent some)).toNat = _
  rw [pack_of_isNormal normal, toNat_packComponents, BitVec.toNat_ofNat, BitVec.toNat_ofNat]
  rcases normal with ⟨least, below, small, large⟩
  omega

theorem parts_ofUnpacked (normal : IsNormal significand exponent) (sign : Sign)
    (some : 0 < significand) :
    parts (ofUnpacked (.finite sign significand exponent some)) =
      ⟨sign.toBitVec.toNat == 1, significand, exponent⟩ := by
  rw [parts, toNat_toBits_ofUnpacked normal]
  rcases normal with ⟨least, below, small, large⟩
  have bit : sign.toBitVec.toNat < 2 := sign.toBitVec.isLt
  generalize sign.toBitVec.toNat = sign at *
  have fraction : (sign * 2 ^ 63 + (exponent + 1075).toNat * 2 ^ 52 + (significand - 2 ^ 52)) %
      2 ^ 52 = significand - 2 ^ 52 := by omega
  have biased : (sign * 2 ^ 63 + (exponent + 1075).toNat * 2 ^ 52 + (significand - 2 ^ 52)) /
      2 ^ 52 % 2 ^ 11 = (exponent + 1075).toNat := by omega
  have first : (sign * 2 ^ 63 + (exponent + 1075).toNat * 2 ^ 52 + (significand - 2 ^ 52)) /
      2 ^ 63 = sign := by omega
  have implicit : 2 ^ 52 + (significand - 2 ^ 52) = significand := by omega
  have unbiased : ((exponent + 1075).toNat : Int) - 1075 = exponent := by omega
  simp only [Nat.shiftRight_eq_div_pow, Nat.shiftLeft_eq, Nat.one_mul, fraction, biased, first,
    implicit, unbiased]
  rw [if_neg (by omega), if_neg (by omega)]

theorem isFinite_ofUnpacked (normal : IsNormal significand exponent) (sign : Sign)
    (some : 0 < significand) :
    (ofUnpacked (.finite sign significand exponent some)).isFinite = true := by
  change (UnpackedFloat.unpack Format.binary64 (UnpackedFloat.pack Format.binary64 _)).isFinite = _
  rw [unpack_pack_of_isNormal normal]
  rfl

theorem neg_ofUnpacked (normal : IsNormal significand exponent) (some : 0 < significand) :
    -ofUnpacked (.finite .positive significand exponent some) =
      ofUnpacked (.finite .negative significand exponent some) := by
  change ofUnpacked
    (UnpackedFloat.unpack Format.binary64 (UnpackedFloat.pack Format.binary64 _)).neg = _
  rw [unpack_pack_of_isNormal normal]
  rfl

theorem IsWhole.truncate_ofUnpacked {size : Nat} (whole : IsWhole size significand exponent)
    (normal : IsNormal significand exponent) (sign : Sign) :
    truncate (ofUnpacked (.finite sign significand exponent whole.pos)) = sign.apply size := by
  have quotient : (significand <<< exponent.toNat) >>> (-exponent).toNat = size := by
    rw [Nat.shiftLeft_eq, Nat.shiftRight_eq_div_pow, whole.size_eq,
      Nat.mul_div_cancel _ (Nat.two_pow_pos _)]
  rw [truncate, parts_ofUnpacked normal]
  dsimp only
  rw [quotient]
  cases sign <;> rfl

theorem IsWhole.pack_eq_packedInfinity {size : Nat} (whole : IsWhole size significand exponent)
    (positive : 0 < size) (huge : 1024 ≤ size.log2) (sign : Sign) :
    UnpackedFloat.pack Format.binary64 (.finite sign significand exponent whole.pos) =
      packedInfinity Format.binary64 sign := by
  have bias : Format.binary64.exponentBias = 1023 := by decide
  have := whole.exponent_eq positive
  unfold UnpackedFloat.pack
  rw [bias]
  dsimp only
  rw [if_pos (by omega)]

end Normal

/-! The number nearest to an integer. A short one is converted and multiplied by one, a long
one is rounded at once. -/

theorem unpack_one : (Float.ofBits 0x3FF0000000000000).toModel.unpack =
    .finite .positive (2 ^ 52) (-52) (Nat.two_pow_pos 52) := rfl

theorem ofScientific_isWhole {number : Nat} (positive : 0 < number) :
    ∃ significand exponent some,
      Float.ofScientific number false 0 =
        ofUnpacked (.finite .positive significand exponent some) ∧
      IsWhole (rounded number) significand exponent := by
  rw [Float.ofScientific]
  by_cases short : number < 2 ^ 53 ∧ 0 ≤ 22
  · -- A short number is converted and then multiplied by one, which rounds again.
    rw [dif_pos short]
    rcases normalize_isWhole positive short.1 with ⟨significand, exponent, some, converts, whole⟩
    rcases mul_one_isWhole positive short.1 whole with ⟨product, scale, more, rounds, isWhole⟩
    have converted : number.toUInt64.toFloat =
        ofUnpacked (.finite .positive significand exponent some) := by
      have size : number.toUInt64.toNat = number :=
        UInt64.toNat_ofNat_of_lt (Nat.lt_trans short.1 (by decide))
      change ofUnpacked (UnpackedFloat.normalize Format.binary64 number.toUInt64.toNat 0 .positive) = _
      rw [size, converts]
    have fits : number.log2 < 1024 :=
      Nat.lt_trans ((Nat.log2_lt positive.ne').mpr short.1) (by decide)
    have unpacked := unpack_pack_of_isNormal (whole.isNormal positive fits) .positive some
    refine ⟨product, scale, more, ?_, ?_⟩
    · rw [converted]
      change ofUnpacked (UnpackedFloat.mul Format.binary64
        (UnpackedFloat.unpack Format.binary64 (UnpackedFloat.pack Format.binary64 _))
        (Float.ofBits 0x3FF0000000000000).toModel.unpack) = _
      rw [unpacked, unpack_one]
      exact congrArg ofUnpacked rounds
    · rw [rounded_of_lt short.1]
      exact isWhole
  · rw [dif_neg short]
    have scientific : UnpackedFloat.ofScientific Format.binary64 number 0 =
        roundWithAccuracy Format.binary64 .positive (number * 2 ^ 53) (-53) .exact := by
      have inside : ¬(0 : Int) < -((2 ^ 11 : Int) + number.log2) := by omega
      rw [UnpackedFloat.ofScientific, dif_neg positive.ne', if_neg (by decide),
        if_neg inside, if_pos (by decide)]
      change roundWithAccuracy Format.binary64 .positive (number <<< 53 * 1) (-53 + 0) .exact = _
      rw [Nat.shiftLeft_eq, Nat.mul_one, Int.add_zero]
    rcases @roundWithAccuracy_isWhole .positive number 53 positive (by omega) (by omega) with
      ⟨significand, exponent, some, rounds, whole⟩
    exact ⟨significand, exponent, some, congrArg ofUnpacked (scientific.trans rounds), whole⟩

theorem nearest_eq {number : Nat} (positive : 0 < number) :
    (∃ significand exponent some,
      nearest number 0 = ofUnpacked (.finite .positive significand exponent some) ∧
      IsWhole (rounded number) significand exponent ∧ IsNormal significand exponent) ∨
    nearest number 0 = ofUnpacked (.infinity .positive) ∧ 1024 ≤ (rounded number).log2 := by
  have some : 0 < (Nat.toDigits 10 number).length := Nat.length_toDigits_pos
  rw [nearest, Int.zero_add, if_neg (by simp; omega)]
  by_cases long : 400 < ((Nat.toDigits 10 number).length : Int) - 1
  · have large := @le_log2_of_length number 401 (by decide) (by omega)
    have := log2_le_log2_rounded positive
    rw [if_pos long]
    exact .inr ⟨rfl, by omega⟩
  · rw [if_neg long, if_neg (by decide)]
    rcases ofScientific_isWhole positive with ⟨significand, exponent, some, near, whole⟩
    rcases Nat.lt_or_ge (rounded number).log2 1024 with fits | huge
    · exact .inl ⟨significand, exponent, some, near, whole,
        whole.isNormal (rounded_pos positive) fits⟩
    · exact .inr ⟨near.trans (ofUnpacked_congr
        (whole.pack_eq_packedInfinity (rounded_pos positive) huge .positive)), huge⟩

def nearestInteger (negative : Bool) (size : Nat) : Float :=
  if negative then -nearest size 0 else nearest size 0

theorem isFinite_nearestInteger (negative : Bool) (size : Nat) :
    (nearestInteger negative size).isFinite = decide ((rounded size).log2 < 1024) := by
  rcases Nat.eq_zero_or_pos size with rfl | positive
  · cases negative <;> decide +kernel
  rcases nearest_eq positive with ⟨significand, exponent, some, near, whole, normal⟩ | ⟨near, huge⟩
  · have := whole.exponent_eq (rounded_pos positive)
    have := normal.large
    rw [nearestInteger, near, decide_eq_true (by omega)]
    cases negative with
    | false => exact isFinite_ofUnpacked normal .positive some
    | true =>
        rw [neg_ofUnpacked normal]
        exact isFinite_ofUnpacked normal .negative some
  · rw [nearestInteger, near, decide_eq_false (by omega)]
    cases negative <;> rfl

theorem truncate_nearestInteger (negative : Bool) {size : Nat}
    (fits : (rounded size).log2 < 1024) :
    truncate (nearestInteger negative size) =
      if negative then -(rounded size : Int) else rounded size := by
  rcases Nat.eq_zero_or_pos size with rfl | positive
  · cases negative <;> decide +kernel
  rcases nearest_eq positive with ⟨significand, exponent, some, near, whole, normal⟩ | ⟨-, huge⟩
  · rw [nearestInteger, near]
    cases negative with
    | false => exact whole.truncate_ofUnpacked normal .positive
    | true =>
        rw [neg_ofUnpacked normal]
        exact whole.truncate_ofUnpacked normal .negative
  · omega

end ReactiveForm.Number
