import ReactiveForm.Number.Digits
import ReactiveForm.Number.Word

namespace ReactiveForm.Number

/-! Numbers from text. Nothing may stand before or after the number. -/

def signed : List Char → Bool × List Char
  | '-' :: rest => (true, rest)
  | '+' :: rest => (false, rest)
  | letters => (false, letters)

def readDigits? (letters : List Char) : Option Nat :=
  if letters.isEmpty || !letters.all Char.isDigit then none
  else some (digitsValue letters)

def readInteger? (letters : List Char) : Option Int :=
  let (negative, size) := signed letters
  (readDigits? size).map fun value => if negative then -(value : Int) else value

def readInt64? (letters : List Char) : Option Int64 :=
  (readInteger? letters).bind int64?

def readPosition? (letters : List Char) : Option Nat := do
  let value ←
    match letters with
    | '+' :: rest => readDigits? rest
    | _ => readDigits? letters
  if value < UInt64.size then some value else none

/-- The number nearest to `digits · 10 ^ exponent`. Beyond the greatest
number it is infinite and below half the least one it is zero, whatever the
size of the exponent. -/
def nearest (digits : Nat) (exponent : Int) : Float :=
  let first := exponent + (Nat.toDigits 10 digits).length - 1
  if digits = 0 || first < -400 then 0.0
  else if 400 < first then 1.0 / 0.0
  else if exponent < 0 then Float.ofScientific digits true exponent.natAbs
  else Float.ofScientific digits false exponent.natAbs

def readExponent? : List Char → Option Int
  | [] => some 0
  | letter :: rest =>
      if letter = 'e' ∨ letter = 'E' then readInteger? rest else none

def readUnsigned? (letters : List Char) : Option Float :=
  let (whole, afterWhole) := spanDigits letters
  let (fraction, rest) :=
    match afterWhole with
    | '.' :: afterPoint => spanDigits afterPoint
    | _ => ([], afterWhole)
  if whole.isEmpty && fraction.isEmpty then none
  else do
    let exponent ← readExponent? rest
    return nearest (digitsValue (whole ++ fraction)) (exponent - fraction.length)

def readNamed? (letters : List Char) : Option Float :=
  match String.ofList (letters.map Char.toLower) with
  | "inf" | "infinity" => some (1.0 / 0.0)
  | "nan" => some (0.0 / 0.0)
  | _ => none

def readDecimal? (letters : List Char) : Option Float :=
  let (negative, size) := signed letters
  let value? := (readUnsigned? size).or (readNamed? size)
  value?.map fun value => if negative then -value else value

example : readInt64? "-9223372036854775808".toList = some Int64.minValue ∧
    readInt64? "9223372036854775808".toList = none ∧
    readInt64? "+7".toList = some 7 ∧ readInt64? "+-7".toList = none := by
  decide

example : readDecimal? "-.5e1".toList = some (-5.0) ∧ readDecimal? "5.".toList = some 5.0 ∧
    readDecimal? ".".toList = none ∧ readDecimal? "1e".toList = none ∧
    readDecimal? "-Infinity".toList = some (-1.0 / 0.0) := by
  decide +kernel

end ReactiveForm.Number
