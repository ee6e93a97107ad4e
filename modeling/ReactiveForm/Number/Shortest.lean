import ReactiveForm.Number.Binary64

namespace ReactiveForm.Number

/-! The fewest decimal digits that read back as the same number. All reals
nearer to a number than to its neighbours read back as it; among the decimals
of that interval the search takes the coarsest grid that has one, and on that
grid the decimal nearest to the number. -/

structure Decimal where
  digits : Nat
  exponent : Int
  deriving DecidableEq, Repr

def leadingExponent (numerator denominator : Nat) : Int :=
  if denominator ≤ numerator then
    ((Nat.toDigits 10 (numerator / denominator)).length : Int) - 1
  else
    let quotient := (denominator + numerator - 1) / numerator
    Int.negOfNat (Nat.toDigits 10 (quotient - 1)).length

structure Interval where
  low : Nat
  middle : Nat
  high : Nat
  closed : Bool
  exponent : Int

def interval (exact : Parts) : Interval :=
  let middle := 4 * exact.significand
  let narrow := exact.significand = 1 <<< 52 ∧ -1074 < exact.exponent
  { low := if narrow then middle - 1 else middle - 2
    middle
    high := middle + 2
    closed := exact.significand % 2 == 0
    exponent := exact.exponent - 2 }

/-- The decimal of the interval that lies on the grid of the multiples of
`10 ^ exponent` nearest to the middle, if there is one. Only the two
neighbours of the middle can be it. -/
def Interval.onGrid? (range : Interval) (tiesUp : Bool) (exponent : Int) :
    Option Decimal :=
  let scale := Nat.pow 10 (-exponent).toNat <<< range.exponent.toNat
  let spacing := Nat.pow 10 exponent.toNat <<< (-range.exponent).toNat
  let low := range.low * scale
  let middle := range.middle * scale
  let high := range.high * scale
  let holds (point : Nat) : Bool :=
    if range.closed then low ≤ point ∧ point ≤ high else low < point ∧ point < high
  let below := middle / spacing
  let above := below + 1
  let toBelow := middle - below * spacing
  let toAbove := above * spacing - middle
  match holds (below * spacing), holds (above * spacing) with
  | true, true =>
      if toBelow < toAbove then some ⟨below, exponent⟩
      else if toAbove < toBelow then some ⟨above, exponent⟩
      else if tiesUp || below % 2 == 1 then some ⟨above, exponent⟩
      else some ⟨below, exponent⟩
  | true, false => some ⟨below, exponent⟩
  | false, true => some ⟨above, exponent⟩
  | false, false => none

/-- The shortest decimal of a positive finite number. Seventeen digits always
suffice. `tiesUp` decides between two decimals that are equally near: the
greater one, or else the even one. -/
def shortest (tiesUp : Bool) (exact : Parts) : Decimal :=
  let range := interval exact
  let first :=
    leadingExponent (range.middle <<< range.exponent.toNat)
      (1 <<< (-range.exponent).toNat)
  ((List.range 17).findSome? fun (count : Nat) =>
    range.onGrid? tiesUp (first - count)).getD ⟨0, 0⟩

/-- Three is as good as two to tell the least number from its neighbours, but
five is nearest. -/
example : shortest true (parts (Float.ofBits 1)) = ⟨5, -324⟩ := by decide +kernel

example : shortest true (parts 0.3) = ⟨3, -1⟩ ∧ shortest false (parts 1e23) = ⟨10, 22⟩ ∧
    shortest true (parts (0.1 + 0.2)) = ⟨30000000000000004, -17⟩ := by
  decide +kernel

/-- Between `…24.2` and `…24.3` there is a tie. -/
example : shortest true (parts 1125899906842624.25) = ⟨11258999068426243, -1⟩ ∧
    shortest false (parts 1125899906842624.25) = ⟨11258999068426242, -1⟩ := by
  decide +kernel

end ReactiveForm.Number
