import ReactiveForm.Json.Number
import ReactiveForm.Text.Hexadecimal
import ReactiveForm.Text.Utf8

namespace ReactiveForm.Json

/-! Reading a document. The input is a list of characters in which `none`
marks a malformed piece of the bytes; such a piece may stand inside a text
that is passed over, and nowhere else. -/

abbrev Input := List (Option Char)

def greatestDepth : Nat := 127

def isGap (piece : Option Char) : Bool :=
  piece == some ' ' || piece == some '\n' || piece == some '\t' || piece == some '\r'

def skipGaps (input : Input) : Input :=
  input.dropWhile isGap

/-- A unit of a text: a character, half of one that is written as an escape, or
something malformed. -/
inductive TextUnit where
  | character (letter : Char)
  | highHalf (code : Nat)
  | lowHalf (code : Nat)
  | malformed

def TextUnit.ofCode (code : Nat) : TextUnit :=
  if 0xD800 ≤ code ∧ code < 0xDC00 then .highHalf code
  else if 0xDC00 ≤ code ∧ code < 0xE000 then .lowHalf code
  else .character (Char.ofNat code)

def escaped? : Char → Option Char
  | '"' => some '"'
  | '\\' => some '\\'
  | '/' => some '/'
  | 'b' => some '\x08'
  | 'f' => some '\x0c'
  | 'n' => some '\n'
  | 'r' => some '\r'
  | 't' => some '\t'
  | _ => none

def fourDigits? (first second third fourth : Char) : Option Nat := do
  let first ← Text.hexadecimalValue? first
  let second ← Text.hexadecimalValue? second
  let third ← Text.hexadecimalValue? third
  let fourth ← Text.hexadecimalValue? fourth
  return ((first * 16 + second) * 16 + third) * 16 + fourth

def readUnits? : Input → Option (List TextUnit × Input)
  | some '"' :: rest => some ([], rest)
  | some '\\' :: some 'u' :: some a :: some b :: some c :: some d :: rest => do
      let code ← fourDigits? a b c d
      let (units, rest) ← readUnits? rest
      return (.ofCode code :: units, rest)
  | some '\\' :: some letter :: rest => do
      let character ← escaped? letter
      let (units, rest) ← readUnits? rest
      return (.character character :: units, rest)
  | some letter :: rest =>
      if letter.val < 0x20 || letter == '\\' then none
      else do
        let (units, rest) ← readUnits? rest
        return (.character letter :: units, rest)
  | none :: rest => do
      let (units, rest) ← readUnits? rest
      return (.malformed :: units, rest)
  | [] => none

def joinUnits? : List TextUnit → Option (List Char)
  | [] => some []
  | .character letter :: rest => (joinUnits? rest).map (letter :: ·)
  | .highHalf high :: .lowHalf low :: rest =>
      let code := 0x10000 + (high - 0xD800) * 0x400 + (low - 0xDC00)
      (joinUnits? rest).map (Char.ofNat code :: ·)
  | _ => none

def readText? (input : Input) : Option (Option String × Input) :=
  (readUnits? input).map fun (units, rest) =>
    ((joinUnits? units).map String.ofList, rest)

def spanDigits : Input → List Char × Input
  | some letter :: rest =>
      if letter.isDigit then
        let (digits, rest) := spanDigits rest
        (letter :: digits, rest)
      else ([], some letter :: rest)
  | input => ([], input)

def readFraction? : Input → Option (Option (List Char) × Input)
  | some '.' :: rest =>
      let (digits, rest) := spanDigits rest
      if digits.isEmpty then none else some (some digits, rest)
  | input => some (none, input)

def readExponent? : Input → Option (Option (Bool × List Char) × Input)
  | some letter :: rest =>
      if letter = 'e' ∨ letter = 'E' then
        let (down, rest) :=
          match rest with
          | some '-' :: rest => (true, rest)
          | some '+' :: rest => (false, rest)
          | rest => (false, rest)
        let (digits, rest) := spanDigits rest
        if digits.isEmpty then none else some (some (down, digits), rest)
      else some (none, some letter :: rest)
  | input => some (none, input)

def readNumeral? (negative : Bool) (input : Input) : Option (Numeral × Input) := do
  let (whole, rest) := spanDigits input
  if whole.isEmpty || (1 < whole.length && whole.head? == some '0') then none
  else
    let (fraction, rest) ← readFraction? rest
    let (exponent, rest) ← readExponent? rest
    return (⟨negative, whole, fraction, exponent⟩, rest)

def readWord? (word : String) (value : Json) (input : Input) : Option (Json × Input) :=
  let letters := word.toList.map some
  if letters.isPrefixOf input then some (value, input.drop letters.length) else none

def withinDepth (remaining : Nat) (container : Json) : Json :=
  if remaining = 0 then .unusable else container

mutual

/-- One value. `remaining` more containers may be opened around what is
usable; `fuel` is at least the number of characters left. -/
def readValue? : (fuel remaining : Nat) → Input → Option (Json × Input)
  | 0, _, _ => none
  | fuel + 1, remaining, input =>
      match skipGaps input with
      | some 'n' :: rest => readWord? "null" .null (some 'n' :: rest)
      | some 't' :: rest => readWord? "true" (.boolean true) (some 't' :: rest)
      | some 'f' :: rest => readWord? "false" (.boolean false) (some 'f' :: rest)
      | some '"' :: rest =>
          (readText? rest).map fun (content?, rest) =>
            ((content?.map Json.text).getD .unusable, rest)
      | some '[' :: rest =>
          match skipGaps rest with
          | some ']' :: rest => some (withinDepth remaining (.array []), rest)
          | rest => do
              let (items, rest) ← readItems? fuel (remaining - 1) rest
              return (withinDepth remaining (.array items), rest)
      | some '{' :: rest =>
          match skipGaps rest with
          | some '}' :: rest => some (withinDepth remaining (.object []), rest)
          | rest => do
              let (members?, rest) ← readMembers? fuel (remaining - 1) rest
              let object := (members?.map Json.object).getD .unusable
              return (withinDepth remaining object, rest)
      | some '-' :: rest => (readNumeral? true rest).map fun (numeral, rest) =>
          (numeral.value, rest)
      | rest => (readNumeral? false rest).map fun (numeral, rest) =>
          (numeral.value, rest)

def readItems? : (fuel remaining : Nat) → Input → Option (List Json × Input)
  | 0, _, _ => none
  | fuel + 1, remaining, input => do
      let (item, rest) ← readValue? fuel remaining input
      match skipGaps rest with
      | some ',' :: rest => do
          let (items, rest) ← readItems? fuel remaining rest
          return (item :: items, rest)
      | some ']' :: rest => some ([item], rest)
      | _ => none

/-- The members of an object up to its closing brace; there is at least one.
If one of the names is malformed, they are no use. -/
def readMembers? : (fuel remaining : Nat) → Input →
    Option (Option (List (String × Json)) × Input)
  | 0, _, _ => none
  | fuel + 1, remaining, input =>
      match skipGaps input with
      | some '"' :: rest => do
          let (name?, rest) ← readText? rest
          match skipGaps rest with
          | some ':' :: rest => do
              let (value, rest) ← readValue? fuel remaining rest
              let member? := name?.map fun name => (name, value)
              match skipGaps rest with
              | some ',' :: rest => do
                  let (members?, rest) ← readMembers? fuel remaining rest
                  return (member?.bind fun member => members?.map (member :: ·), rest)
              | some '}' :: rest => some (member?.map ([·]), rest)
              | _ => none
          | _ => none
      | _ => none

end

def readInput? (input : Input) : Option Json := do
  let (value, rest) ← readValue? (2 * input.length + 1) greatestDepth input
  if (skipGaps rest).isEmpty then some value else none

def read? (document : String) : Option Json :=
  readInput? (document.toList.map some)

def readBytes? (bytes : List UInt8) : Option Json :=
  readInput? (Text.Utf8.pieces none bytes)

end ReactiveForm.Json
