import ReactiveForm.Number.Digits
import ReactiveForm.Storage.Sha256
import ReactiveForm.Text.Hexadecimal

namespace ReactiveForm

/-! Files of tagged sections. A preamble with a mark, a version and the number
of sections is followed by a table of tags and lengths, the bodies in the order
of the table, and the digest of everything before it. Numbers have their lowest
byte first. -/

structure Tag where
  first : UInt8
  second : UInt8
  third : UInt8
  fourth : UInt8
  deriving DecidableEq

def Tag.bytes (tag : Tag) : List UInt8 :=
  [tag.first, tag.second, tag.third, tag.fourth]

structure Section where
  tag : Tag
  body : List UInt8
  deriving DecidableEq

inductive ContainerError where
  | tooShort (expected actual : Nat)
  | markMissing
  | unsupportedVersion (major minor : UInt8)
  | digestMismatch (stored computed : List UInt8)
  deriving DecidableEq

def ContainerError.message : ContainerError → String
  | .tooShort expected actual =>
      "form file too short: need at least " ++ toString expected ++ " bytes, got " ++
        toString actual
  | .markMissing => "invalid form file magic bytes"
  | .unsupportedVersion major minor =>
      "unsupported form file version " ++ toString major ++ "." ++ toString minor
  | .digestMismatch stored computed =>
      "integrity check failed: expected " ++ Text.hexadecimal stored ++ ", got " ++
        Text.hexadecimal computed

namespace Container

def mark : List UInt8 := [0x46, 0x44, 0x46, 0x00]

/-- The version that is written. Any minor version of it is read. -/
def majorVersion : UInt8 := 1

def preambleLength : Nat := 8

def entryLength : Nat := 8

def digestLength : Nat := 32

def littleEndian : (width : Nat) → (number : Nat) → List UInt8
  | 0, _ => []
  | width + 1, number => UInt8.ofNat number :: littleEndian width (number / 256)

def ofLittleEndian : List UInt8 → Nat
  | [] => 0
  | byte :: rest => byte.toNat + 256 * ofLittleEndian rest

def entryBytes (part : Section) : List UInt8 :=
  part.tag.bytes ++ littleEndian 4 part.body.length

def content (minor : UInt8) (parts : List Section) : List UInt8 :=
  mark ++ [majorVersion, minor] ++ littleEndian 2 parts.length ++
    parts.flatMap entryBytes ++ parts.flatMap Section.body

def frame (parts : List Section) : List UInt8 :=
  let written := content 0 parts
  written ++ Sha256.digest written

structure Entry where
  tag : Tag
  length : Nat

def readTable : (count : Nat) → List UInt8 → List Entry × List UInt8
  | count + 1, a :: b :: c :: d :: e :: f :: g :: h :: rest =>
      let (entries, rest) := readTable count rest
      (⟨⟨a, b, c, d⟩, ofLittleEndian [e, f, g, h]⟩ :: entries, rest)
  | _, rest => ([], rest)

def readBodies (size : Nat) : (offset : Nat) → List Entry → List UInt8 →
    Except ContainerError (List Section)
  | _, [], _ => .ok []
  | offset, entry :: rest, bytes =>
      let ending := offset + entry.length
      if bytes.length < entry.length then .error (.tooShort (ending + digestLength) size)
      else do
        let parts ← readBodies size ending rest (bytes.drop entry.length)
        return ⟨entry.tag, bytes.take entry.length⟩ :: parts

def readContent (size count : Nat) (bytes : List UInt8) :
    Except ContainerError (List Section) :=
  let tableEnd := preambleLength + count * entryLength
  if bytes.length < count * entryLength then
    .error (.tooShort (tableEnd + digestLength) size)
  else
    let (entries, rest) := readTable count bytes
    readBodies size tableEnd entries rest

/-- Read the sections of a file. Bytes between the last body and the digest are
passed over. -/
def read (bytes : List UInt8) : Except ContainerError (List Section) :=
  let size := bytes.length
  if size < preambleLength + digestLength then
    .error (.tooShort (preambleLength + digestLength) size)
  else if bytes.take 4 ≠ mark then .error .markMissing
  else
    match bytes.drop 4 with
    | major :: minor :: low :: high :: _ =>
        let covered := bytes.take (size - digestLength)
        let stored := bytes.drop (size - digestLength)
        let computed := Sha256.digest covered
        if major ≠ majorVersion then .error (.unsupportedVersion major minor)
        else if computed ≠ stored then .error (.digestMismatch stored computed)
        else
          readContent size (ofLittleEndian [low, high]) (covered.drop preambleLength)
    | _ => .error (.tooShort (preambleLength + digestLength) size)

end Container

end ReactiveForm
