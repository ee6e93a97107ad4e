namespace ReactiveForm.Text.Utf8

/-! Bytes and characters. The reader walks the bytes once and remembers which
continuation bytes the current character still needs; a byte that does not fit
ends the character in progress and is looked at again on its own. -/

/-- A character under way: the bits gathered so far and, for every
continuation byte still to come, the range it has to lie in. -/
structure Pending where
  bits : Nat
  expected : List (Nat × Nat)

/-- What the first byte of a character announces. Only the byte after it has a
narrower range than `80`–`BF`, which keeps out long forms and surrogates. -/
def announced? (byte : Nat) : Option Pending :=
  if byte < 0x80 then some ⟨byte, []⟩
  else if byte < 0xC2 then none
  else if byte < 0xE0 then some ⟨byte - 0xC0, [(0x80, 0xBF)]⟩
  else if byte = 0xE0 then some ⟨0, [(0xA0, 0xBF), (0x80, 0xBF)]⟩
  else if byte = 0xED then some ⟨0xD, [(0x80, 0x9F), (0x80, 0xBF)]⟩
  else if byte < 0xF0 then some ⟨byte - 0xE0, [(0x80, 0xBF), (0x80, 0xBF)]⟩
  else if byte = 0xF0 then some ⟨0, [(0x90, 0xBF), (0x80, 0xBF), (0x80, 0xBF)]⟩
  else if byte < 0xF4 then
    some ⟨byte - 0xF0, [(0x80, 0xBF), (0x80, 0xBF), (0x80, 0xBF)]⟩
  else if byte = 0xF4 then some ⟨4, [(0x80, 0x8F), (0x80, 0xBF), (0x80, 0xBF)]⟩
  else none

/-- Look at a byte outside any character: what is written at once, and what is
under way after it. `none` in the output stands for a malformed piece. -/
def start (byte : Nat) : List (Option Char) × Option Pending :=
  match announced? byte with
  | none => ([none], none)
  | some ⟨bits, []⟩ => ([some (Char.ofNat bits)], none)
  | some pending => ([], some pending)

def pieces : Option Pending → List UInt8 → List (Option Char)
  | none, [] => []
  | some _, [] => [none]
  | none, byte :: rest =>
      let (written, pending) := start byte.toNat
      written ++ pieces pending rest
  | some ⟨_, []⟩, byte :: rest =>
      let (written, pending) := start byte.toNat
      written ++ pieces pending rest
  | some ⟨bits, (low, high) :: expected⟩, byte :: rest =>
      if low ≤ byte.toNat ∧ byte.toNat ≤ high then
        let gathered := bits * 64 + (byte.toNat - 0x80)
        match expected with
        | [] => some (Char.ofNat gathered) :: pieces none rest
        | _ => pieces (some ⟨gathered, expected⟩) rest
      else
        let (written, pending) := start byte.toNat
        none :: (written ++ pieces pending rest)

def decode? (bytes : List UInt8) : Option String :=
  ((pieces none bytes).mapM id).map String.ofList

def decodeLossy (bytes : List UInt8) : String :=
  String.ofList ((pieces none bytes).map (·.getD '\ufffd'))

def encode (text : String) : List UInt8 :=
  text.toUTF8.toList

example : decode? [0xC3, 0xA9, 0xE2, 0x82, 0xAC, 0xF0, 0x9F, 0x98, 0x80] = some "é€😀" := by
  decide

/-- An interrupted character is one malformed piece, and so is a surrogate's
every byte. -/
example : decodeLossy [0xE2, 0x82, 0x41, 0xED, 0xA0, 0x80] = "\ufffdA\ufffd\ufffd\ufffd" := by
  decide

end ReactiveForm.Text.Utf8
