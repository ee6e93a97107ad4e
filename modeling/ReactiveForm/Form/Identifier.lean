import ReactiveForm.Json.Decoding
import ReactiveForm.Text.Hexadecimal

namespace ReactiveForm

/-! Identifiers of forms: sixteen bytes, written as hexadecimal digits in
groups of eight, four, four, four and twelve. -/

structure Identifier where
  bytes : List UInt8
  complete : bytes.length = 16
  deriving DecidableEq

namespace Identifier

def none : Identifier := ⟨List.replicate 16 0, by decide⟩

def text (identifier : Identifier) : String :=
  let digits (first count : Nat) : String :=
    Text.hexadecimal ((identifier.bytes.drop first).take count)
  "-".intercalate [digits 0 4, digits 4 2, digits 6 2, digits 8 2, digits 10 6]

def ofDigits? (digits : List Char) : Option Identifier := do
  let bytes ← Text.hexadecimalBytes? digits
  if complete : bytes.length = 16 then some ⟨bytes, complete⟩ else .none

def ofGroups? (letters : List Char) : Option Identifier :=
  if letters.length = 36 ∧ [8, 13, 18, 23].all fun place => letters[place]? == some '-' then
    ofDigits? (letters.take 8 ++ (letters.drop 9).take 4 ++ (letters.drop 14).take 4 ++
      (letters.drop 19).take 4 ++ letters.drop 24)
  else .none

def namePrelude : List Char := "urn:uuid:".toList

/-- An identifier may come without hyphens, with hyphens, with hyphens in
braces, or with hyphens as a name. Digits may be of either case. -/
def read? (letters : List Char) : Option Identifier :=
  if letters.length = 32 then ofDigits? letters
  else if letters.length = 36 then ofGroups? letters
  else if letters.length = 38 ∧ letters.head? = some '\x7b' ∧
      letters.getLast? = some '\x7d' then
    ofGroups? (letters.drop 1).dropLast
  else if letters.length = 45 ∧ namePrelude.isPrefixOf letters then
    ofGroups? (letters.drop 9)
  else .none

def ofRandom? (bytes : List UInt8) : Option Identifier :=
  let marked :=
    (bytes.modify 6 fun byte => byte &&& 0x0F ||| 0x40).modify 8 fun byte =>
      byte &&& 0x3F ||| 0x80
  if complete : marked.length = 16 then some ⟨marked, complete⟩ else .none

def toJson (identifier : Identifier) : Json :=
  .text identifier.text

def ofJson? (document : Json) : Option Identifier :=
  document.text?.bind fun written => read? written.toList

example : (read? "URN:UUID:6BA7B810-9DAD-11D1-80B4-00C04FD430C8".toList).isNone ∧
    (read? "urn:uuid:6BA7B810-9DAD-11D1-80B4-00C04FD430C8".toList).map text =
      some "6ba7b810-9dad-11d1-80b4-00c04fd430c8" := by
  decide +kernel

example : (ofRandom? (List.replicate 16 0xFF)).map text =
    some "ffffffff-ffff-4fff-bfff-ffffffffffff" := by
  decide +kernel

end Identifier

end ReactiveForm
