import ReactiveForm.Number.Digits

namespace ReactiveForm

/-! Calendar dates of the proleptic Gregorian calendar, from the year -262143
to the year 262142. -/

namespace Calendar

def isLeapYear (year : Int) : Bool :=
  year % 4 == 0 && (year % 100 != 0 || year % 400 == 0)

def daysInMonth (year : Int) : (month : Nat) → Nat
  | 2 => if isLeapYear year then 29 else 28
  | 4 | 6 | 9 | 11 => 30
  | 1 | 3 | 5 | 7 | 8 | 10 | 12 => 31
  | _ => 0

def IsDate (year : Int) (month day : Nat) : Prop :=
  -262143 ≤ year ∧ year ≤ 262142 ∧ 1 ≤ day ∧ day ≤ daysInMonth year month

instance (year : Int) (month day : Nat) : Decidable (IsDate year month day) :=
  inferInstanceAs (Decidable (_ ∧ _))

end Calendar

structure Date where
  year : Int
  month : Nat
  day : Nat
  isDate : Calendar.IsDate year month day
  deriving DecidableEq

namespace Date

open Calendar Number

def of? (year : Int) (month day : Nat) : Option Date :=
  if isDate : IsDate year month day then some ⟨year, month, day, isDate⟩ else none

/-- Days are counted from the first of March of the year zero: in a year that
begins in March the leap day comes last. -/
def dayNumber (date : Date) : Int :=
  let year := if date.month ≤ 2 then date.year - 1 else date.year
  let monthFromMarch := if date.month ≤ 2 then date.month + 9 else date.month - 3
  365 * year + year / 4 - year / 100 + year / 400 +
    ((153 * monthFromMarch + 2) / 5 + date.day - 1 : Nat)

def ofDayNumber? (number : Int) : Option Date :=
  let era := number / 146097
  let dayOfEra := (number % 146097).toNat
  let yearOfEra :=
    (dayOfEra - dayOfEra / 1460 + dayOfEra / 36524 - dayOfEra / 146096) / 365
  let dayOfYear := dayOfEra - (365 * yearOfEra + yearOfEra / 4 - yearOfEra / 100)
  let monthFromMarch := (5 * dayOfYear + 2) / 153
  let day := dayOfYear - (153 * monthFromMarch + 2) / 5 + 1
  let month := if monthFromMarch < 10 then monthFromMarch + 3 else monthFromMarch - 9
  let year := yearOfEra + 400 * era + if month ≤ 2 then 1 else 0
  of? year month day

def yearLetters (year : Int) : List Char :=
  if year < 0 then '-' :: paddedDigits 4 year.natAbs
  else if year ≤ 9999 then paddedDigits 4 year.natAbs
  else '+' :: paddedDigits 4 year.natAbs

def letters (date : Date) : List Char :=
  yearLetters date.year ++ '-' :: paddedDigits 2 date.month ++
    '-' :: paddedDigits 2 date.day

example : (of? 1900 2 29).isNone ∧ (of? 2000 2 29).map letters = some "2000-02-29".toList ∧
    (of? (-44) 3 15).map letters = some "-0044-03-15".toList ∧
    (of? 12345 1 1).map letters = some "+12345-01-01".toList := by
  decide

/-- From the twenty-eighth of February of a leap year it is two days to the
first of March. -/
example : ((of? 2024 2 28).bind fun date => ofDayNumber? (date.dayNumber + 2)) =
    of? 2024 3 1 := by
  decide

end Date

end ReactiveForm
