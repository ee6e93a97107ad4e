import ReactiveForm.Number.Digits
import ReactiveForm.Number.Shortest

namespace ReactiveForm.Number

/-! Decimal text. A number is written with its shortest digits, either in
place, with at least one digit on each side of the point, or as one digit, the
rest after the point, and a power of ten. -/

structure Layout where
  /-- The least exponent of the first digit that is written in place. -/
  leastInPlace : Int
  /-- The greatest exponent of the first digit that is written in place. -/
  greatestInPlace : Int
  /-- Is a power of ten above one marked with a plus sign? -/
  marksPlus : Bool
  /-- Of two decimals equally near, is the greater one taken? -/
  tiesUp : Bool

/-- Answers are shown in place from `0.0001` up to, not including, `1e16`. -/
def Layout.answer : Layout := ⟨-4, 15, false, true⟩

/-- Documents hold numbers in place from `0.00001` up to, not including,
`1e+16`. -/
def Layout.document : Layout := ⟨-5, 15, true, false⟩

def withoutFinalZeros (written : List Char) : List Char :=
  (written.reverse.dropWhile (· == '0')).reverse

def pointAfter (written : List Char) (places : Int) : List Char :=
  if places ≤ 0 then
    '0' :: '.' :: (List.replicate (-places).toNat '0' ++ written)
  else
    let whole := written.take places.toNat
    let fraction := written.drop places.toNat
    whole ++ List.replicate (places.toNat - whole.length) '0' ++
      '.' :: (if fraction.isEmpty then ['0'] else fraction)

def Layout.place (layout : Layout) (decimal : Decimal) : List Char :=
  let all := digits decimal.digits
  let first := decimal.exponent + all.length - 1
  let written := withoutFinalZeros all
  if layout.leastInPlace ≤ first ∧ first ≤ layout.greatestInPlace then
    pointAfter written (first + 1)
  else
    let mantissa :=
      match written with
      | [] => []
      | [only] => [only]
      | head :: rest => head :: '.' :: rest
    let sign := if layout.marksPlus ∧ 0 ≤ first then ['+'] else []
    mantissa ++ 'e' :: sign ++ integerDigits first

def Layout.write (layout : Layout) (number : Float) : String :=
  if number.isNaN then "NaN"
  else
    let exact := parts number
    let sign := if exact.negative then ['-'] else []
    let size :=
      if number.isInf then ['i', 'n', 'f']
      else if exact.significand = 0 then ['0', '.', '0']
      else layout.place (shortest layout.tiesUp exact)
    String.ofList (sign ++ size)

example : Layout.answer.write 2.0 = "2.0" ∧ Layout.answer.write (-0.0) = "-0.0" ∧
    Layout.answer.write 1e16 = "1e16" ∧ Layout.answer.write 9.999e-5 = "9.999e-5" ∧
    Layout.answer.write (-1.0 / 0.0) = "-inf" := by
  decide +kernel

example : Layout.document.write 1e16 = "1e+16" ∧
    Layout.document.write 0.00001 = "0.00001" ∧
    Layout.document.write 1.5e-6 = "1.5e-6" ∧
    Layout.document.write 1000000000000000.0 = "1000000000000000.0" := by
  decide +kernel

end ReactiveForm.Number
