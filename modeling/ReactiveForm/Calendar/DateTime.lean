import ReactiveForm.Calendar.Date
import ReactiveForm.Calendar.TimeOfDay

namespace ReactiveForm

/-! A date and a time of day, without a time zone. -/

structure DateTime where
  date : Date
  time : TimeOfDay
  deriving DecidableEq

namespace DateTime

def letters (moment : DateTime) : List Char :=
  moment.date.letters ++ 'T' :: moment.time.letters

def later? (moment : DateTime) (seconds : Int) : Option DateTime :=
  let (time, days) := moment.time.later seconds
  (Date.ofDayNumber? (moment.date.dayNumber + days)).map fun date => ⟨date, time⟩

def startOf2020 : DateTime :=
  ⟨⟨2020, 1, 1, by decide⟩, .midnight⟩

end DateTime

end ReactiveForm
