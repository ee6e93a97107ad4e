namespace ReactiveForm.Number

/-! Integers that fit in 64 bits with a sign. -/

def int64? (value : Int) : Option Int64 :=
  if Int64.minValue.toInt ≤ value ∧ value ≤ Int64.maxValue.toInt then
    some (Int64.ofInt value)
  else none

def saturate (value : Int) : Int64 := Int64.ofIntClamp value

example : int64? 9223372036854775807 = some Int64.maxValue ∧
    int64? 9223372036854775808 = none ∧
    saturate 9223372036854775808 = Int64.maxValue ∧
    saturate (-9223372036854775809) = Int64.minValue := by
  decide

end ReactiveForm.Number
