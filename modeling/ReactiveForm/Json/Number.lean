import ReactiveForm.Json.Basic
import ReactiveForm.Number.Digits

namespace ReactiveForm.Json

/-! The numbers of a document. An integer that fits in 64 bits is kept as it
is. Any other number is its leading digits, as far as they fit in 64 bits,
scaled by a power of ten, and each of these steps rounds. -/

structure Numeral where
  negative : Bool
  whole : List Char
  /-- The digits after the point, if there is a point. -/
  fraction : Option (List Char)
  /-- The sign and the digits of the power of ten, if there is one. -/
  exponent : Option (Bool × List Char)

structure Gathered where
  significand : Nat
  exponent : Int

def Gathered.fits (gathered : Gathered) (digit : Char) : Bool :=
  gathered.significand * 10 + (digit.toNat - 48) < UInt64.size

def Gathered.push (gathered : Gathered) (digit : Char) (exponent : Int) : Gathered :=
  ⟨gathered.significand * 10 + (digit.toNat - 48), exponent⟩

/-- The digits before the point. From the first that does not fit on, each
only raises the power. -/
def gatherWhole (gathered : Gathered) : List Char → Gathered
  | [] => gathered
  | digit :: rest =>
      if gathered.fits digit then
        gatherWhole (gathered.push digit gathered.exponent) rest
      else ⟨gathered.significand, gathered.exponent + rest.length + 1⟩

def gatherFraction (gathered : Gathered) : List Char → Gathered
  | [] => gathered
  | digit :: rest =>
      if gathered.fits digit then
        gatherFraction (gathered.push digit (gathered.exponent - 1)) rest
      else gathered

/-- `number · 10 ^ exponent`, if it is finite. The powers go to `10 ^ 308`;
below them the number is divided more than once, and three times leave
nothing of it. -/
def scale? (number : Float) (exponent : Int) : (steps : Nat) → Option Float
  | 0 => some number
  | steps + 1 =>
      if exponent.natAbs ≤ 308 then
        let power := Float.ofScientific 1 false exponent.natAbs
        if exponent < 0 then some (number / power)
        else
          let scaled := number * power
          if scaled.isInf then none else some scaled
      else if number == 0.0 then some number
      else if 0 ≤ exponent then none
      else scale? (number / Float.ofScientific 1 false 308) (exponent + 308) steps

def Numeral.value (numeral : Numeral) : Json :=
  let signed (size : Float) : Float := if numeral.negative then -size else size
  let size := Number.digitsValue numeral.whole
  match numeral.fraction, numeral.exponent with
  | none, none =>
      if size < UInt64.size ∧ !numeral.negative then .integer size
      else if 0 < size ∧ Int64.minValue.toInt ≤ -(size : Int) then .integer (-size)
      else decimal signed (gatherWhole ⟨0, 0⟩ numeral.whole) 0
  | fraction, exponent =>
      let gathered :=
        gatherFraction (gatherWhole ⟨0, 0⟩ numeral.whole) (fraction.getD [])
      let (down, digits) := exponent.getD (false, [])
      let power := Number.digitsValue digits
      if Int32.maxValue.toInt < power then
        if gathered.significand = 0 ∨ down then .decimal (signed 0.0) else .unusable
      else decimal signed gathered (if down then -(power : Int) else power)
where
  decimal (signed : Float → Float) (gathered : Gathered) (power : Int) : Json :=
    match scale? (Float.ofNat gathered.significand) (gathered.exponent + power) 4 with
    | some scaled => .decimal (signed scaled)
    | none => .unusable

end ReactiveForm.Json
