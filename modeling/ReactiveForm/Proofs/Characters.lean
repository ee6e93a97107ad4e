import ReactiveForm.Json.Printer
import ReactiveForm.Json.Reader

/-! Characters as bytes, and texts as they stand in documents. Both are read back, whatever comes
after them. -/

namespace ReactiveForm

/-! Characters as bytes. -/

namespace Text.Utf8

variable {bits low high code first : Nat} {expected : List (Nat × Nat)}

theorem pieces_first {pending : Pending} (fits : first < 256)
    (announced : announced? first = some pending) (more : pending.expected ≠ [])
    (rest : List UInt8) :
    pieces none (UInt8.ofNat first :: rest) = pieces (some pending) rest := by
  obtain ⟨bits, expected⟩ := pending
  cases expected with
  | nil => exact absurd rfl more
  | cons range expected =>
      rw [pieces, UInt8.toNat_ofNat_of_lt' fits, start, announced]
      rfl

theorem pieces_next (within : low ≤ code + 128 ∧ code + 128 ≤ high) (fits : code < 64)
    {range : Nat × Nat} (rest : List UInt8) :
    pieces (some ⟨bits, (low, high) :: range :: expected⟩) (UInt8.ofNat (code + 128) :: rest) =
      pieces (some ⟨bits * 64 + code, range :: expected⟩) rest := by
  have byte : (UInt8.ofNat (code + 128)).toNat = code + 128 :=
    UInt8.toNat_ofNat_of_lt' (Nat.add_lt_add_right (Nat.lt_trans fits (by decide)) 128)
  rw [pieces, byte, if_pos within, Nat.add_sub_cancel]

theorem pieces_last (within : low ≤ code + 128 ∧ code + 128 ≤ high) (fits : code < 64)
    (rest : List UInt8) :
    pieces (some ⟨bits, [(low, high)]⟩) (UInt8.ofNat (code + 128) :: rest) =
      some (Char.ofNat (bits * 64 + code)) :: pieces none rest := by
  have byte : (UInt8.ofNat (code + 128)).toNat = code + 128 :=
    UInt8.toNat_ofNat_of_lt' (Nat.add_lt_add_right (Nat.lt_trans fits (by decide)) 128)
  rw [pieces, byte, if_pos within, Nat.add_sub_cancel]

/-! What the first byte of a character announces, by its highest bits. -/

variable {top : Nat}

theorem announced?_two (least : 2 ≤ top) (most : top < 32) :
    announced? (top + 0xC0) = some ⟨top, [(0x80, 0xBF)]⟩ := by
  rw [announced?, if_neg (by omega), if_neg (by omega), if_pos (by omega), Nat.add_sub_cancel]

def secondOfThree (top : Nat) : Nat × Nat :=
  if top = 0 then (0xA0, 0xBF) else if top = 0xD then (0x80, 0x9F) else (0x80, 0xBF)

theorem announced?_three (most : top < 16) :
    announced? (top + 0xE0) = some ⟨top, [secondOfThree top, (0x80, 0xBF)]⟩ := by
  by_cases lowest : top = 0
  · subst lowest
    rfl
  by_cases surrogates : top = 0xD
  · subst surrogates
    rfl
  rw [announced?, if_neg (by omega), if_neg (by omega), if_neg (by omega), if_neg (by omega),
    if_neg (by omega), if_pos (by omega), Nat.add_sub_cancel, secondOfThree, if_neg lowest,
    if_neg surrogates]

def secondOfFour (top : Nat) : Nat × Nat :=
  if top = 0 then (0x90, 0xBF) else if top = 4 then (0x80, 0x8F) else (0x80, 0xBF)

theorem announced?_four (most : top < 5) :
    announced? (top + 0xF0) = some ⟨top, [secondOfFour top, (0x80, 0xBF), (0x80, 0xBF)]⟩ := by
  by_cases lowest : top = 0
  · subst lowest
    rfl
  by_cases highest : top = 4
  · subst highest
    rfl
  rw [announced?, if_neg (by omega), if_neg (by omega), if_neg (by omega), if_neg (by omega),
    if_neg (by omega), if_neg (by omega), if_neg (by omega), if_pos (by omega),
    Nat.add_sub_cancel, secondOfFour, if_neg lowest, if_neg highest]

theorem pieces_encodeChar (letter : Char) (rest : List UInt8) :
    pieces none (String.utf8EncodeChar letter ++ rest) = some letter :: pieces none rest := by
  have valid : letter.val.toNat < 0xD800 ∨
      (0xDFFF < letter.val.toNat ∧ letter.val.toNat < 0x110000) := letter.valid
  have same : Char.ofNat letter.val.toNat = letter := Char.ofNat_toNat letter
  rw [String.utf8EncodeChar]
  -- Below, six bits go into each byte but the first: they are put together again in reverse.
  generalize letter.val.toNat = value at valid same
  have last : value / 64 * 64 + value % 64 = value := Nat.div_add_mod' value 64
  split
  next one =>
    have byte : (UInt8.ofNat value).toNat = value :=
      UInt8.toNat_ofNat_of_lt' (Nat.lt_of_le_of_lt one (by decide))
    have announced : announced? value = some ⟨value, []⟩ := if_pos (Nat.lt_succ_of_le one)
    rw [List.singleton_append, pieces, byte, start, announced, ← same]
    rfl
  next =>
    split
    next two =>
      have top : value / 64 % 32 = value / 64 := by omega
      rw [top, List.cons_append,
        pieces_first (by omega) (announced?_two (by omega) (by omega)) (List.cons_ne_nil _ _),
        List.singleton_append, pieces_last (by omega) (by omega), last, same]
    next =>
      have middle : value / 4096 * 64 + value / 64 % 64 = value / 64 := by omega
      split
      next three =>
        have top : value / 4096 % 16 = value / 4096 := by omega
        have second : (secondOfThree (value / 4096)).1 ≤ value / 64 % 64 + 128 ∧
            value / 64 % 64 + 128 ≤ (secondOfThree (value / 4096)).2 := by
          rw [secondOfThree]
          split
          · omega
          · split <;> omega
        rw [top, List.cons_append,
          pieces_first (by omega) (announced?_three (by omega)) (List.cons_ne_nil _ _),
          List.cons_append, pieces_next second (by omega), List.singleton_append,
          pieces_last (by omega) (by omega), middle, last, same]
      next four =>
        have top : value / 262144 % 8 = value / 262144 := by omega
        have second : (secondOfFour (value / 262144)).1 ≤ value / 4096 % 64 + 128 ∧
            value / 4096 % 64 + 128 ≤ (secondOfFour (value / 262144)).2 := by
          rw [secondOfFour]
          split
          · omega
          · split <;> omega
        have upper : value / 262144 * 64 + value / 4096 % 64 = value / 4096 := by omega
        rw [top, List.cons_append,
          pieces_first (by omega) (announced?_four (by omega)) (List.cons_ne_nil _ _),
          List.cons_append, pieces_next second (by omega), List.cons_append,
          pieces_next (by omega) (by omega), List.singleton_append,
          pieces_last (by omega) (by omega), upper, middle, last, same]

theorem toList_loop (bytes : ByteArray) (index : Nat) (soFar : List UInt8) :
    ByteArray.toList.loop bytes index soFar = soFar.reverse ++ bytes.data.toList.drop index := by
  fun_induction ByteArray.toList.loop bytes index soFar with
  | case1 index soFar within induction =>
      have below : index < bytes.data.toList.length := within
      rw [induction, List.drop_eq_getElem_cons below]
      simp [ByteArray.get!, within]
  | case2 index soFar beyond =>
      rw [List.drop_eq_nil_of_le (Nat.le_of_not_lt beyond), List.append_nil]

theorem encode_ofList (letters : List Char) :
    encode (String.ofList letters) = letters.flatMap String.utf8EncodeChar := by
  rw [encode, String.toUTF8_eq_toByteArray, String.toByteArray_ofList, ByteArray.toList,
    toList_loop, List.utf8Encode, List.toList_data_toByteArray]
  rfl

theorem pieces_encode (text : String) : pieces none (encode text) = text.toList.map some := by
  rw [← String.ofList_toList (s := text), encode_ofList, String.toList_ofList]
  induction text.toList with
  | nil => rfl
  | cons letter letters induction =>
      rw [List.flatMap_cons, pieces_encodeChar, induction, List.map_cons]

end Text.Utf8

namespace Json

/-! Texts. -/

theorem fourDigits?_hexadecimalByte {letter : Char} (control : letter.val < 0x20) :
    ∃ high low, Text.hexadecimalByte letter.val.toUInt8 = [high, low] ∧
      fourDigits? '0' '0' high low = some letter.val.toNat := by
  have small : letter.val.toNat < 32 := UInt32.lt_iff_toNat_lt.mp control
  have byte : letter.val.toUInt8.toNat = letter.val.toNat := by
    rw [UInt32.toNat_toUInt8]
    exact Nat.mod_eq_of_lt (Nat.lt_trans small (by decide))
  refine ⟨_, _, rfl, ?_⟩
  have high := Text.hexadecimalValue?_hexadecimalDigit (letter.val.toNat / 16) (by omega)
  have low := Text.hexadecimalValue?_hexadecimalDigit (letter.val.toNat % 16) (by omega)
  have zero : Text.hexadecimalValue? '0' = some 0 := rfl
  rw [fourDigits?, byte, high, low, zero]
  simp only [Option.bind_eq_bind, Option.bind_some, Option.pure_def, Option.some.injEq]
  omega

theorem ofCode_control {letter : Char} (control : letter.val < 0x20) :
    TextUnit.ofCode letter.val.toNat = .character letter := by
  have small : letter.val.toNat < 32 := UInt32.lt_iff_toNat_lt.mp control
  rw [TextUnit.ofCode, if_neg (by omega), if_neg (by omega)]
  exact congrArg TextUnit.character (Char.ofNat_toNat letter)

theorem readUnits?_escapeLetter (letter : Char) (rest : Input) :
    readUnits? ((escapeLetter letter).map some ++ rest) =
      (readUnits? rest).map fun (units, rest) => (.character letter :: units, rest) := by
  rw [escapeLetter.eq_def]
  split
  -- The last case has no short escape. A control character gets a long one.
  case h_8 noQuote noBackslash _ _ _ _ _ =>
    split
    next control =>
      rcases fourDigits?_hexadecimalByte control with ⟨high, low, written, code⟩
      simp only [written, List.map_cons, List.map_nil, List.cons_append, List.nil_append,
        readUnits?, code, ofCode_control control, Option.bind_eq_bind, Option.bind_some,
        Option.pure_def, Option.map_eq_bind]
      rfl
    next plain =>
      rw [List.map_cons, List.map_nil, List.singleton_append, readUnits?.eq_def]
      split
      next same => exact absurd (Option.some.inj (List.cons.inj same).1) noQuote
      next same => exact absurd (Option.some.inj (List.cons.inj same).1) noBackslash
      next same => exact absurd (Option.some.inj (List.cons.inj same).1) noBackslash
      next same =>
        cases same
        have other : letter ≠ '\\' := noBackslash
        rw [if_neg (by simpa [other] using plain), Option.map_eq_bind]
        rfl
      next same => cases same
      next same => cases same
  all_goals
    rw [Option.map_eq_bind]
    rfl

theorem readUnits?_escaped (letters : List Char) (rest : Input) :
    readUnits? ((letters.flatMap escapeLetter).map some ++ some '"' :: rest) =
      some (letters.map TextUnit.character, rest) := by
  induction letters with
  | nil => rfl
  | cons letter letters induction =>
      rw [List.flatMap_cons, List.map_append, List.append_assoc, readUnits?_escapeLetter, induction]
      rfl

theorem joinUnits?_characters (letters : List Char) :
    joinUnits? (letters.map TextUnit.character) = some letters := by
  induction letters with
  | nil => rfl
  | cons letter letters induction =>
      rw [List.map_cons, joinUnits?, induction]
      rfl

/-- A text is read up to its closing quote, whatever comes after it. -/
theorem readText?_escaped (content : String) (rest : Input) :
    readText? ((content.toList.flatMap escapeLetter).map some ++ some '"' :: rest) =
      some (some content, rest) := by
  rw [readText?, readUnits?_escaped, Option.map_some]
  dsimp only
  rw [joinUnits?_characters, Option.map_some, String.ofList_toList]

end Json

end ReactiveForm
