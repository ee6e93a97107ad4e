import ReactiveForm.Number.Digits

namespace ReactiveForm

/-! Times of day to the nanosecond. Any minute may have a sixty-first, leap
second. -/

namespace Calendar

def IsTime (hour minute second nanosecond : Nat) : Prop :=
  hour < 24 ∧ minute < 60 ∧ second ≤ 60 ∧ nanosecond < 1000000000

instance (hour minute second nanosecond : Nat) :
    Decidable (IsTime hour minute second nanosecond) :=
  inferInstanceAs (Decidable (_ ∧ _))

end Calendar

structure TimeOfDay where
  hour : Nat
  minute : Nat
  second : Nat
  nanosecond : Nat
  isTime : Calendar.IsTime hour minute second nanosecond
  deriving DecidableEq

namespace TimeOfDay

open Calendar Number

def of? (hour minute second nanosecond : Nat) : Option TimeOfDay :=
  if isTime : IsTime hour minute second nanosecond then
    some ⟨hour, minute, second, nanosecond, isTime⟩
  else none

def midnight : TimeOfDay :=
  ⟨0, 0, 0, 0, by decide⟩

def fractionLetters (nanosecond : Nat) : List Char :=
  if nanosecond = 0 then []
  else if nanosecond % 1000000 = 0 then '.' :: paddedDigits 3 (nanosecond / 1000000)
  else if nanosecond % 1000 = 0 then '.' :: paddedDigits 6 (nanosecond / 1000)
  else '.' :: paddedDigits 9 nanosecond

def letters (time : TimeOfDay) : List Char :=
  paddedDigits 2 time.hour ++ ':' :: paddedDigits 2 time.minute ++
    ':' :: paddedDigits 2 time.second ++ fractionLetters time.nanosecond

/-- The time `seconds` later, and the number of days gone past. A leap second
ends with the first step that leaves it, in either direction. -/
def later (time : TimeOfDay) (seconds : Int) : TimeOfDay × Int :=
  if seconds = 0 then (time, 0)
  else
    let second := if time.second = 60 ∧ 0 < seconds then 59 else time.second
    let total : Int := time.hour * 3600 + time.minute * 60 + second + seconds
    let ofDay := (total % 86400).toNat
    ((of? (ofDay / 3600) (ofDay / 60 % 60) (ofDay % 60) time.nanosecond).getD midnight,
      total / 86400)

example : (of? 23 59 60 500000000).map letters = some "23:59:60.500".toList ∧
    (of? 12 30 0 1).map letters = some "12:30:00.000000001".toList ∧
    (of? 24 0 0 0).isNone := by
  decide

end TimeOfDay

end ReactiveForm
