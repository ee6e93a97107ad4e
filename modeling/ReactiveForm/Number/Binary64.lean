import ReactiveForm.Number.Word

namespace ReactiveForm.Number

/-! The exact content of a floating-point number, as integers. Whatever the
machine does not offer with a rule attached is computed here and put back
together bit by bit. -/

structure Parts where
  negative : Bool
  significand : Nat
  exponent : Int
  deriving DecidableEq, Repr

/-- The parts of a finite number. The exponent is the one its bits carry, so
a number has one set of parts; infinities and NaN have no meaningful ones. -/
def parts (number : Float) : Parts :=
  let bits := number.toBits.toNat
  let fraction : Nat := bits % (1 <<< 52)
  let biased : Nat := (bits >>> 52) % (1 <<< 11)
  { negative := bits >>> 63 == 1
    significand := if biased = 0 then fraction else 1 <<< 52 + fraction
    exponent := if biased = 0 then -1074 else (biased : Int) - 1075 }

def ofParts (exact : Parts) : Float :=
  let sign := if exact.negative then 1 <<< 63 else 0
  let bits :=
    if exact.significand = 0 then 0
    else
      let biased := exact.exponent + exact.significand.log2 + 1023
      if 1 ≤ biased then
        biased.toNat <<< 52 +
          ((exact.significand <<< 52) >>> exact.significand.log2 - 1 <<< 52)
      else
        (exact.significand <<< (exact.exponent + 1074).toNat) >>>
          (-1074 - exact.exponent).toNat
  Float.ofBits (UInt64.ofNat (sign + bits))

/-- The quotient rounded toward zero leaves this remainder. It is exact, and
it has the sign of the dividend even where it is zero. -/
def remainder (dividend divisor : Float) : Float :=
  if dividend.isNaN || divisor.isNaN || dividend.isInf || divisor == 0.0 then
    0.0 / 0.0
  else if divisor.isInf then dividend
  else
    let above := parts dividend
    let below := parts divisor
    let exponent := min above.exponent below.exponent
    let scaledAbove := above.significand <<< (above.exponent - exponent).toNat
    let scaledBelow := below.significand <<< (below.exponent - exponent).toNat
    ofParts ⟨above.negative, scaledAbove % scaledBelow, exponent⟩

def truncate (number : Float) : Int :=
  let exact := parts number
  let size :=
    (exact.significand <<< exact.exponent.toNat) >>> (-exact.exponent).toNat
  if exact.negative then -(size : Int) else size

example : remainder 7.5 2.0 = 1.5 ∧ remainder (-7.5) 2.0 = -1.5 ∧
    remainder (-4.0) 2.0 = -0.0 ∧ remainder 5.0 (0.0 / 0.0) = 0.0 / 0.0 := by
  decide +kernel

example : truncate (-2.9) = -2 ∧ truncate 1e19 = 10000000000000000000 ∧
    saturate (truncate 1e19) = Int64.maxValue := by
  decide +kernel

end ReactiveForm.Number
