import ReactiveForm.Calendar.DateTime
import ReactiveForm.Text.Blank

namespace ReactiveForm.Calendar

/-! Dates and times from text. Numbers need not be padded and may have white
space in front. There are two forms: in an answer nothing else may have white
space around it, in a document every separator and the end may have some in
front. -/

open Number Text

inductive Spacing
  | beforeNumbers
  | beforeAll
  deriving DecidableEq

abbrev Rest := List Char

def takeNumber? (width : Nat) (letters : List Char) : Option (Nat × Rest) :=
  let written := (letters.take width).takeWhile Char.isDigit
  if written.isEmpty then none
  else some (digitsValue written, letters.drop written.length)

def takeTwoDigits? (letters : List Char) : Option (Nat × Rest) :=
  takeNumber? 2 (trimFront letters)

def takeYear? (letters : List Char) : Option (Int × Rest) :=
  match trimFront letters with
  | '-' :: rest =>
      (takeNumber? rest.length rest).map fun (size, rest) => (-(size : Int), rest)
  | '+' :: rest =>
      (takeNumber? rest.length rest).map fun (size, rest) => ((size : Int), rest)
  | rest => (takeNumber? 4 rest).map fun (size, rest) => ((size : Int), rest)

def Spacing.skip (spacing : Spacing) (letters : List Char) : Rest :=
  if spacing = .beforeAll then trimFront letters else letters

def Spacing.takeSeparator? (spacing : Spacing) (separator : Char)
    (letters : List Char) : Option Rest :=
  match spacing.skip letters with
  | first :: rest => if first = separator then some rest else none
  | [] => none

def Spacing.ends (spacing : Spacing) (letters : List Char) : Bool :=
  (spacing.skip letters).isEmpty

/-- Nanoseconds after a point. Digits beyond the ninth are passed over. -/
def takeFraction? : List Char → Option (Nat × Rest)
  | '.' :: letters => do
      let (value, rest) ← takeNumber? 9 letters
      let places := letters.length - rest.length
      return (value * Nat.pow 10 (9 - places), rest.dropWhile Char.isDigit)
  | letters => some (0, letters)

def takeDate? (spacing : Spacing) (letters : List Char) : Option (Date × Rest) := do
  let (year, rest) ← takeYear? letters
  let rest ← spacing.takeSeparator? '-' rest
  let (month, rest) ← takeTwoDigits? rest
  let rest ← spacing.takeSeparator? '-' rest
  let (day, rest) ← takeTwoDigits? rest
  let date ← Date.of? year month day
  return (date, rest)

def takeHourMinute? (spacing : Spacing) (letters : List Char) :
    Option (Nat × Nat × Rest) := do
  let (hour, rest) ← takeTwoDigits? letters
  let rest ← spacing.takeSeparator? ':' rest
  let (minute, rest) ← takeTwoDigits? rest
  return (hour, minute, rest)

def takeSecond? (spacing : Spacing) (letters : List Char) :
    Option (Nat × Nat × Rest) := do
  let rest ← spacing.takeSeparator? ':' letters
  let (second, rest) ← takeTwoDigits? rest
  let (nanosecond, rest) ← takeFraction? rest
  return (second, nanosecond, rest)

def takeTime? (spacing : Spacing) (letters : List Char) :
    Option (TimeOfDay × Rest) := do
  let (hour, minute, rest) ← takeHourMinute? spacing letters
  let (second, nanosecond, rest) ← takeSecond? spacing rest
  let time ← TimeOfDay.of? hour minute second nanosecond
  return (time, rest)

def Spacing.complete? (spacing : Spacing) {α : Type} : Option (α × Rest) → Option α
  | some (value, rest) => if spacing.ends rest then some value else none
  | none => none

def readDate? (spacing : Spacing) (letters : List Char) : Option Date :=
  spacing.complete? (takeDate? spacing letters)

def readTime? (spacing : Spacing) (letters : List Char) : Option TimeOfDay :=
  spacing.complete? (takeTime? spacing letters)

/-- A time of day in a document may leave out the seconds. -/
def readDocumentTime? (letters : List Char) : Option TimeOfDay :=
  (readTime? .beforeAll letters).or do
    let (hour, minute, rest) ← takeHourMinute? .beforeAll letters
    if Spacing.ends .beforeAll rest then TimeOfDay.of? hour minute 0 0 else none

def readDateTime? (spacing : Spacing) (letters : List Char) : Option DateTime :=
  spacing.complete? do
    let (date, rest) ← takeDate? spacing letters
    let rest ← spacing.takeSeparator? 'T' rest
    let (time, rest) ← takeTime? spacing rest
    return (⟨date, time⟩, rest)

example : (readDate? .beforeNumbers "2024- 1- 5".toList).map Date.letters =
      some "2024-01-05".toList ∧
    readDate? .beforeNumbers "2024 -01-05".toList = none ∧
    readDate? .beforeNumbers "12345-01-01".toList = none ∧
    (readDate? .beforeAll "2024 -01-05 ".toList).isSome := by
  decide

example : (readTime? .beforeNumbers "12:30:00.1234567891".toList).map TimeOfDay.letters =
      some "12:30:00.123456789".toList ∧
    (readDocumentTime? "12:30".toList).map TimeOfDay.letters =
      some "12:30:00".toList := by
  decide

end ReactiveForm.Calendar
