import ReactiveForm.Calendar.Reading
import ReactiveForm.Number.Layout
import ReactiveForm.Number.Reading
import ReactiveForm.Value.Basic

namespace ReactiveForm

/-! Answers as text. -/

inductive ValueError where
  /-- The text has no value of the type. -/
  | unreadable (written : String) (type : ValueType)
  /-- Nobody knows how to construct values of that type. -/
  | unknownType (tag : String)
  deriving DecidableEq, Repr

def ValueError.message : ValueError → String
  | .unreadable written type => "cannot convert '" ++ written ++ "' to " ++ type.tag
  | .unknownType tag => "unknown value type '" ++ tag ++ "'"

namespace Value

def display : Value → String
  | .text content => content
  | .int number => String.ofList (Number.integerDigits number.toInt)
  | .decimal number => Number.Layout.answer.write number
  | .boolean true => "true"
  | .boolean false => "false"
  | .date day => String.ofList day.letters
  | .time clock => String.ofList clock.letters
  | .dateTime moment => String.ofList moment.letters

def readBoolean? (letters : List Char) : Option Bool :=
  if letters = "true".toList ∨ letters = ['1'] then some true
  else if letters = "false".toList ∨ letters = ['0'] then some false
  else none

/-- The value of a type that a text stands for. White space around it counts
only in text itself. -/
def read? (type : ValueType) (written : String) : Option Value :=
  let letters := Text.trimLetters written.toList
  match type with
  | .unspecified | .text => some (.text written)
  | .int => (Number.readInt64? letters).map .int
  | .decimal => (Number.readDecimal? letters).map .decimal
  | .boolean => (readBoolean? letters).map .boolean
  | .date => (Calendar.readDate? .beforeNumbers letters).map .date
  | .time => (Calendar.readTime? .beforeNumbers letters).map .time
  | .dateTime => (Calendar.readDateTime? .beforeNumbers letters).map .dateTime

def read (type : ValueType) (written : String) : Except ValueError Value :=
  match read? type written with
  | some value => .ok value
  | none => .error (.unreadable written type)

/-- The number that arithmetic and comparison see. Text counts if it reads as a
decimal; dates and times are no numbers. -/
def number? : Value → Option Float
  | .int number => some (Float.ofInt number.toInt)
  | .decimal number => some number
  | .boolean truth => some (if truth then 1.0 else 0.0)
  | .text content => Number.readDecimal? (Text.trimLetters content.toList)
  | .date _ | .time _ | .dateTime _ => none

def cast? (value : Value) (target : ValueType) : Option Value :=
  match target, value with
  | .unspecified, value => some value
  | .text, value => some (.text value.display)
  | .int, .int number => some (.int number)
  | .int, value => do
      let number ← value.number?
      if number.isFinite then
        some (.int (Number.saturate (Number.truncate number)))
      else none
  | .decimal, value => value.number?.map .decimal
  | .boolean, value => some (.boolean value.truth)
  | .date, .date day => some (.date day)
  | .date, .dateTime moment => some (.date moment.date)
  | .time, .time clock => some (.time clock)
  | .time, .dateTime moment => some (.time moment.time)
  | .dateTime, .dateTime moment => some (.dateTime moment)
  | .dateTime, .date day => some (.dateTime ⟨day, .midnight⟩)
  | target, .text content => read? target content
  | _, _ => none

def cast (value : Value) (target : ValueType) : Except ValueError Value :=
  match value.cast? target with
  | some value => .ok value
  | none => .error (.unreadable value.display target)

end Value

end ReactiveForm
