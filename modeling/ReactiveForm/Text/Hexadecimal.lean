namespace ReactiveForm.Text

/-! Hexadecimal digits and their values. -/

def hexadecimalValue? (letter : Char) : Option Nat :=
  let code := letter.val.toNat
  if 48 ≤ code ∧ code ≤ 57 then some (code - 48)
  else if 97 ≤ code ∧ code ≤ 102 then some (code - 87)
  else if 65 ≤ code ∧ code ≤ 70 then some (code - 55)
  else none

def hexadecimalDigit (value : Nat) : Char :=
  if value < 10 then Char.ofNat (48 + value) else Char.ofNat (87 + value)

theorem hexadecimalValue?_hexadecimalDigit :
    ∀ value < 16, hexadecimalValue? (hexadecimalDigit value) = some value := by
  decide

def hexadecimalByte (byte : UInt8) : List Char :=
  [hexadecimalDigit (byte.toNat / 16), hexadecimalDigit (byte.toNat % 16)]

def hexadecimal (bytes : List UInt8) : String :=
  String.ofList (bytes.flatMap hexadecimalByte)

/-- Pair up hexadecimal digits into bytes; an odd digit or any other
character refuses the whole text. -/
def hexadecimalBytes? : List Char → Option (List UInt8)
  | [] => some []
  | [_] => none
  | high :: low :: rest => do
      let highValue ← hexadecimalValue? high
      let lowValue ← hexadecimalValue? low
      let bytes ← hexadecimalBytes? rest
      return UInt8.ofNat (16 * highValue + lowValue) :: bytes

end ReactiveForm.Text
