namespace ReactiveForm.Number

/-! Decimal digits of natural numbers and of integers. -/

abbrev digits (number : Nat) : List Char :=
  Nat.toDigits 10 number

def integerDigits (number : Int) : List Char :=
  if number < 0 then '-' :: digits number.natAbs else digits number.natAbs

def paddedDigits (width : Nat) (number : Nat) : List Char :=
  let written := digits number
  List.replicate (width - written.length) '0' ++ written

abbrev digitsValue (written : List Char) : Nat :=
  Nat.ofDigitChars 10 written 0

def spanDigits (letters : List Char) : List Char × List Char :=
  (letters.takeWhile Char.isDigit, letters.dropWhile Char.isDigit)

example : digits 0 = ['0'] ∧ digits 1024 = "1024".toList ∧
    integerDigits (-7) = "-7".toList ∧ paddedDigits 4 44 = "0044".toList ∧
    digitsValue "0099".toList = 99 := by
  decide

end ReactiveForm.Number
