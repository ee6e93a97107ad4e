import ReactiveForm.Calendar.Date
import ReactiveForm.Number.Reading
import ReactiveForm.Toml.Basic
import ReactiveForm.Toml.Quoted

namespace ReactiveForm.Toml

/-! Values of one piece: numbers, dates and times, words and texts. -/

def takeRow (isDigit : Char → Bool) : List Char → List Char × Rest
  | '_' :: digit :: rest =>
      if isDigit digit then
        let (row, rest) := takeRow isDigit rest
        (digit :: row, rest)
      else ([], '_' :: digit :: rest)
  | digit :: rest =>
      if isDigit digit then
        let (row, rest) := takeRow isDigit rest
        (digit :: row, rest)
      else ([], digit :: rest)
  | [] => ([], [])

def takeDigits? (isDigit : Char → Bool) (letters : List Char) :
    Option (List Char × Rest) :=
  if (letters.head?.map isDigit).getD false then some (takeRow isDigit letters) else none

def takeWhole? (letters : List Char) : Option (List Char × Rest) := do
  let (row, rest) ← takeDigits? Char.isDigit letters
  if row.head? = some '0' ∧ 1 < row.length then none else some (row, rest)

def takeFraction? : List Char → Option (Option (List Char) × Rest)
  | '.' :: rest => (takeDigits? Char.isDigit rest).map fun (row, rest) => (some row, rest)
  | letters => some (none, letters)

def takeExponent? : List Char → Option (Option Int × Rest)
  | letter :: rest =>
      if letter = 'e' ∨ letter = 'E' then do
        let (negative, size) := Number.signed rest
        let (row, rest) ← takeDigits? Char.isDigit size
        let value : Int := Number.digitsValue row
        return (some (if negative then -value else value), rest)
      else some (none, letter :: rest)
  | [] => some (none, [])

def ofInteger? (value : Int) : Option Toml :=
  (Number.int64? value).map fun _ => .integer value

/-- The number with these parts. A point or a power of ten makes it a decimal,
and no decimal is too great to be held. -/
def ofParts? (negative : Bool) (whole : List Char) (fraction : Option (List Char))
    (exponent : Option Int) : Option Toml :=
  match fraction, exponent with
  | none, none =>
      let value : Int := Number.digitsValue whole
      ofInteger? (if negative then -value else value)
  | _, _ =>
      let digits := Number.digitsValue (whole ++ fraction.getD [])
      let size :=
        Number.nearest digits (exponent.getD 0 - (fraction.getD []).length)
      let value := if negative then -size else size
      if value == 1.0 / 0.0 then none else some (.decimal value)

def takeBased? (base : Nat) (letters : List Char) : Option (Toml × Rest) := do
  let value? (letter : Char) : Option Nat :=
    (Text.hexadecimalValue? letter).filter (· < base)
  let (row, rest) ← takeDigits? (fun letter => (value? letter).isSome) letters
  let digits ← row.mapM value?
  let number ← ofInteger? (digits.foldl (base * · + ·) 0 : Nat)
  return (number, rest)

def takeDecimal? (letters : List Char) : Option (Toml × Rest) :=
  let (negative, size) := Number.signed letters
  match size with
  | 'i' :: 'n' :: 'f' :: rest =>
      some (.decimal (if negative then -1.0 / 0.0 else 1.0 / 0.0), rest)
  | 'n' :: 'a' :: 'n' :: rest => some (.decimal (0.0 / 0.0), rest)
  | _ => do
      let (whole, rest) ← takeWhole? size
      let (fraction, rest) ← takeFraction? rest
      let (exponent, rest) ← takeExponent? rest
      let number ← ofParts? negative whole fraction exponent
      return (number, rest)

def takeNumber? : List Char → Option (Toml × Rest)
  | '0' :: 'x' :: rest => takeBased? 16 rest
  | '0' :: 'o' :: rest => takeBased? 8 rest
  | '0' :: 'b' :: rest => takeBased? 2 rest
  | letters => takeDecimal? letters

/-! Dates and times. -/

def takeFixed? (width : Nat) (letters : List Char) : Option (Nat × Rest) :=
  let row := letters.take width
  if row.length = width ∧ row.all Char.isDigit then
    some (Number.digitsValue row, letters.drop width)
  else none

def takeMark? (mark : Char) : List Char → Option Rest
  | letter :: rest => if letter = mark then some rest else none
  | [] => none

def skipHourMinute? (letters : List Char) : Option Rest := do
  let (hour, rest) ← takeFixed? 2 letters
  let rest ← takeMark? ':' rest
  let (minute, rest) ← takeFixed? 2 rest
  if hour < 24 ∧ minute < 60 then some rest else none

def skipFraction : List Char → Rest
  | '.' :: digit :: rest =>
      if digit.isDigit then rest.dropWhile Char.isDigit else '.' :: digit :: rest
  | letters => letters

def skipTime? (letters : List Char) : Option Rest := do
  let rest ← skipHourMinute? letters
  let rest ← takeMark? ':' rest
  let (second, rest) ← takeFixed? 2 rest
  if second ≤ 60 then some (skipFraction rest) else none

def skipDate? (letters : List Char) : Option Rest := do
  let (year, rest) ← takeFixed? 4 letters
  let rest ← takeMark? '-' rest
  let (month, rest) ← takeFixed? 2 rest
  let rest ← takeMark? '-' rest
  let (day, rest) ← takeFixed? 2 rest
  if Calendar.IsDate year month day then some rest else none

def skipOffset : List Char → Rest
  | 'Z' :: rest => rest
  | 'z' :: rest => rest
  | '+' :: rest => (skipHourMinute? rest).getD ('+' :: rest)
  | '-' :: rest => (skipHourMinute? rest).getD ('-' :: rest)
  | letters => letters

def skipTimeAfterDate : List Char → Rest
  | mark :: rest =>
      if mark = 'T' ∨ mark = 't' ∨ mark = ' ' then
        ((skipTime? rest).map skipOffset).getD (mark :: rest)
      else mark :: rest
  | [] => []

def takeMoment? (letters : List Char) : Option (Toml × Rest) := do
  let rest ← ((skipDate? letters).map skipTimeAfterDate).or (skipTime? letters)
  let written := letters.take (letters.length - rest.length)
  return (.moment (String.ofList written), rest)

def takeScalar? : List Char → Option (Toml × Rest)
  | '"' :: rest => (readQuoted? '"' rest).map fun (content, rest) => (.text content, rest)
  | '\'' :: rest => (readQuoted? '\'' rest).map fun (content, rest) => (.text content, rest)
  | 't' :: 'r' :: 'u' :: 'e' :: rest => some (.boolean true, rest)
  | 'f' :: 'a' :: 'l' :: 's' :: 'e' :: rest => some (.boolean false, rest)
  | letters => (takeMoment? letters).or (takeNumber? letters)

end ReactiveForm.Toml
