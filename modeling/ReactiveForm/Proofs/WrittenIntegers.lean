import ReactiveForm.Proofs.Rounding
import ReactiveForm.Proofs.Typing

/-! Integers as text. An initial answer is read as an integer of any size, which has to fit
in 64 bits. An answer typed in is text that is cast, by way of the nearest number: it is
rounded to 53 binary digits, and then the nearest integer of 64 bits is taken. -/

namespace ReactiveForm

namespace Number

inductive WritesInteger : List Char → Int → Prop
  | unsigned {row : List Char} (isRow : IsRow row) : WritesInteger row (digitsValue row)
  | plus {row : List Char} (isRow : IsRow row) : WritesInteger ('+' :: row) (digitsValue row)
  | minus {row : List Char} (isRow : IsRow row) : WritesInteger ('-' :: row) (-digitsValue row)

section Reading

variable {letters row : List Char} {number : Int}

theorem IsRow.spanDigits (isRow : IsRow row) : spanDigits row = (row, []) := by
  rw [Number.spanDigits, List.takeWhile_eq_self_iff.mpr isRow.digits,
    List.dropWhile_eq_nil_iff.mpr isRow.digits]

theorem IsRow.readUnsigned? (isRow : IsRow row) :
    readUnsigned? row = some (nearest (digitsValue row) 0) := by
  rw [Number.readUnsigned?, isRow.spanDigits]
  dsimp only
  rw [List.isEmpty_eq_false_iff.mpr isRow.nonempty, List.append_nil]
  rfl

theorem writesInteger_iff : WritesInteger letters number ↔
    ∃ negative row, signed letters = (negative, row) ∧ IsRow row ∧
      number = if negative then -(digitsValue row : Int) else digitsValue row := by
  constructor
  · intro writes
    cases writes with
    | unsigned isRow => exact ⟨false, _, signed_of_isDigit isRow.digits, isRow, rfl⟩
    | plus isRow => exact ⟨false, _, rfl, isRow, rfl⟩
    | minus isRow => exact ⟨true, _, rfl, isRow, rfl⟩
  · rintro ⟨negative, row, split, isRow, rfl⟩
    rw [signed.eq_def] at split
    split at split
    · cases split
      exact .minus isRow
    · cases split
      exact .plus isRow
    · cases split
      exact .unsigned isRow

theorem WritesInteger.ne_nil (writes : WritesInteger letters number) : letters ≠ [] := by
  cases writes with
  | unsigned isRow => exact isRow.nonempty
  | plus _ | minus _ => exact List.cons_ne_nil _ _

theorem readInteger?_eq_some_iff :
    readInteger? letters = some number ↔ WritesInteger letters number := by
  rw [writesInteger_iff, readInteger?]
  rcases signed letters with ⟨negative, row⟩
  dsimp only
  constructor
  · intro read
    cases digits : readDigits? row with
    | none =>
        rw [digits] at read
        cases read
    | some size =>
        rw [digits] at read
        cases read
        rcases readDigits?_eq_some_iff.mp digits with ⟨isRow, rfl⟩
        exact ⟨_, _, rfl, isRow, rfl⟩
  · rintro ⟨_, _, split, isRow, rfl⟩
    cases split
    rw [readDigits?_eq_some_iff.mpr ⟨isRow, rfl⟩]
    rfl

theorem WritesInteger.readDecimal? (writes : WritesInteger letters number) :
    ∃ negative, readDecimal? letters = some (nearestInteger negative number.natAbs) ∧
      number = if negative then -(number.natAbs : Int) else number.natAbs := by
  rcases writesInteger_iff.mp writes with ⟨negative, row, split, isRow, value⟩
  have size : number.natAbs = digitsValue row := by
    cases negative <;> simp [value]
  refine ⟨negative, ?_, size ▸ value⟩
  rw [Number.readDecimal?, split]
  dsimp only
  rw [isRow.readUnsigned?, Option.some_or, Option.map_some, size, nearestInteger]

end Reading

/-! Rounding an integer of any size. -/

def roundedInteger (number : Int) : Int :=
  if number < 0 then -rounded number.natAbs else rounded number.natAbs

theorem truncate_nearestInteger_natAbs {negative : Bool} {number : Int}
    (value : number = if negative then -(number.natAbs : Int) else number.natAbs)
    (fits : (rounded number.natAbs).log2 < 1024) :
    truncate (nearestInteger negative number.natAbs) = roundedInteger number := by
  have zero : rounded 0 = 0 := rfl
  rw [truncate_nearestInteger negative fits, roundedInteger]
  cases negative with
  | false =>
      rw [if_neg Bool.false_ne_true] at value ⊢
      rw [if_neg (by omega)]
  | true =>
      rw [if_pos rfl] at value ⊢
      split
      · rfl
      · have none : number.natAbs = 0 := by omega
        rw [none, zero]
        rfl

theorem toInt_saturate (value : Int) :
    (saturate value).toInt = max Int64.minValue.toInt (min value Int64.maxValue.toInt) := by
  have order : Int64.minValue.toInt ≤ Int64.maxValue.toInt := by decide
  rw [saturate]
  rcases lt_or_ge value Int64.minValue.toInt with below | least
  · rw [Int64.ofIntClamp, dif_neg (by omega)]
    omega
  rcases lt_or_ge Int64.maxValue.toInt value with above | most
  · rw [Int64.ofIntClamp, dif_pos least, dif_neg (by omega)]
    omega
  · rw [Int64.toInt_ofIntClamp least most]
    omega

theorem rounded_natAbs_toInt_le (exact : Int64) : rounded exact.toInt.natAbs ≤ 2 ^ 63 := by
  have least : -2 ^ 63 ≤ exact.toInt := Int64.minValue_le_toInt exact
  have most : exact.toInt ≤ 2 ^ 63 - 1 := Int64.toInt_le exact
  exact rounded_le_of_le (by omega)

/-- Rounding an integer of 64 bits and taking the nearest integer of 64 bits leads back to it if
it is not rounded. So it does for the greatest one, although that is rounded. -/
theorem saturate_roundedInteger_iff {exact : Int64} :
    saturate (roundedInteger exact.toInt) = exact ↔
      rounded exact.toInt.natAbs = exact.toInt.natAbs ∨ exact = Int64.maxValue := by
  have least : Int64.minValue.toInt = -2 ^ 63 := by decide
  have most : Int64.maxValue.toInt = 2 ^ 63 - 1 := by decide
  have bounds := And.intro (Int64.minValue_le_toInt exact) (Int64.toInt_le exact)
  have small := rounded_natAbs_toInt_le exact
  have greatest : rounded (2 ^ 63 - 1) = 2 ^ 63 := by decide +kernel
  rw [least, most] at bounds
  rw [← Int64.toInt_inj, ← Int64.toInt_inj, toInt_saturate, roundedInteger, least, most]
  by_cases last : exact.toInt = 2 ^ 63 - 1
  · have size : exact.toInt.natAbs = 2 ^ 63 - 1 := by omega
    rw [size, greatest]
    omega
  · generalize rounded exact.toInt.natAbs = size at *
    split <;> omega

theorem int64?_eq_some_iff {number : Int} {exact : Int64} :
    int64? number = some exact ↔ exact.toInt = number := by
  constructor
  · intro fits
    rw [int64?] at fits
    split at fits
    next bounds =>
      cases fits
      have most : Int64.maxValue.toInt = 2 ^ 63 - 1 := by decide
      exact Int64.toInt_ofInt_of_le bounds.1 (by omega)
    next => cases fits
  · rintro rfl
    exact int64?_toInt exact

theorem log2_rounded_toInt_lt (exact : Int64) : (rounded exact.toInt.natAbs).log2 < 1024 := by
  have small := rounded_natAbs_toInt_le exact
  rcases Nat.eq_zero_or_pos (rounded exact.toInt.natAbs) with none | positive
  · rw [none]
    decide
  · have digits : (rounded exact.toInt.natAbs).log2 < 64 :=
      (Nat.log2_lt positive.ne').mpr (Nat.lt_of_le_of_lt small (by decide))
    omega

/-- An integer comes through as it is: it fits in 64 bits, and it is not rounded, or it is the
greatest one. Or there is neither an integer of 64 bits that it is nor a number that is near. -/
def ComesThrough (number : Int) : Prop :=
  (∃ exact : Int64, exact.toInt = number ∧
    (rounded number.natAbs = number.natAbs ∨ exact = Int64.maxValue)) ∨
  1024 ≤ (rounded number.natAbs).log2

end Number

namespace Value

variable {written : String} {number : Int}

theorem read_int_eq (writes : Number.WritesInteger (Text.trimLetters written.toList) number) :
    Value.read .int written = match Number.int64? number with
      | some exact => .ok (.int exact)
      | none => .error (.unreadable written .int) := by
  rw [Value.read, read?, Number.readInt64?,
    Number.readInteger?_eq_some_iff.mpr writes, Option.bind_some]
  cases Number.int64? number <;> rfl

theorem cast_int_eq (writes : Number.WritesInteger (Text.trimLetters written.toList) number) :
    (Value.text written).cast .int =
      if (Number.rounded number.natAbs).log2 < 1024 then
        .ok (.int (Number.saturate (Number.roundedInteger number)))
      else .error (.unreadable written .int) := by
  rcases writes.readDecimal? with ⟨negative, decimal, value⟩
  rw [Value.cast, cast?_int ValueType.noConfusion, number?, decimal, Option.bind_some,
    Number.isFinite_nearestInteger]
  by_cases fits : (Number.rounded number.natAbs).log2 < 1024
  · rw [if_pos fits, if_pos (decide_eq_true fits),
      Number.truncate_nearestInteger_natAbs value fits]
  · rw [if_neg fits, if_neg (by simpa using fits)]
    rfl

theorem cast_int_eq_read_iff
    (writes : Number.WritesInteger (Text.trimLetters written.toList) number) :
    (Value.text written).cast .int = Value.read .int written ↔ Number.ComesThrough number := by
  rw [cast_int_eq writes, read_int_eq writes, Number.ComesThrough]
  cases fits : Number.int64? number with
  | some exact =>
      obtain rfl := Number.int64?_eq_some_iff.mp fits
      have small := Number.log2_rounded_toInt_lt exact
      rw [if_pos small, or_iff_left (Nat.not_le.mpr small)]
      dsimp only
      rw [Except.ok.injEq, Value.int.injEq, Number.saturate_roundedInteger_iff]
      constructor
      · exact fun through => ⟨exact, rfl, through⟩
      · rintro ⟨other, same, through⟩
        rwa [Int64.toInt_inj.mp same] at through
  | none =>
      have outside : ∀ exact : Int64, exact.toInt ≠ number := fun exact same => by
        rw [Number.int64?_eq_some_iff.mpr same] at fits
        cases fits
      rw [or_iff_right fun ⟨exact, same, _⟩ => outside exact same, ← Nat.not_lt]
      split
      next small => exact iff_of_false nofun (not_not.mpr small)
      next huge => exact iff_of_true rfl huge

theorem answerFrom_int
    (writes : Number.WritesInteger (Text.trimLetters written.toList) number) :
    answerFrom (.text written) .int = ((Value.text written).cast .int).map some := by
  have answered : (Value.text written).isBlank = false := by
    refine Bool.eq_false_iff.mpr fun blank => writes.ne_nil ?_
    rw [String.isEmpty_iff.mp blank]
    rfl
  rw [answerFrom, answered, if_neg Bool.false_ne_true]

end Value

/-- The text of an integer, with or without white space around it, is read as the integer if it
fits in 64 bits, and not at all otherwise. If an answer is cast instead, the integer is rounded,
and the nearest integer of 64 bits is taken, and there is none only if the number is infinite.
So what is typed in is what an initial answer is, if and only if the integer comes through. -/
theorem Value.written_integer_agrees_iff {written : String} {number : Int}
    (writes : Number.WritesInteger (Text.trimLetters written.toList) number) :
    (∀ exact : Int64, exact.toInt = number → Value.read .int written = .ok (.int exact)) ∧
    ((∀ exact : Int64, exact.toInt ≠ number) →
      Value.read .int written = .error (.unreadable written .int)) ∧
    (Value.text written).cast .int =
      (if (Number.rounded number.natAbs).log2 < 1024 then
        .ok (.int (Number.saturate (Number.roundedInteger number)))
      else .error (.unreadable written .int)) ∧
    ((Value.text written).cast .int = Value.read .int written ↔ Number.ComesThrough number) ∧
    (Engine.editedAnswer (some (.text written)) .int =
        (Constructors.standard.construct ValueType.int.tag written).map some ↔
      Number.ComesThrough number) := by
  have agree := Value.cast_int_eq_read_iff writes
  refine ⟨fun exact same => ?_, fun outside => ?_, Value.cast_int_eq writes, agree, ?_⟩
  · rw [Value.read_int_eq writes, Number.int64?_eq_some_iff.mpr same]
  · have unfit : Number.int64? number = none :=
      Option.eq_none_iff_forall_ne_some.mpr fun exact fits =>
        outside exact (Number.int64?_eq_some_iff.mp fits)
    rw [Value.read_int_eq writes, unfit]
  · rw [Engine.editedAnswer, Value.answerFrom_int writes, Constructors.construct_standard, ← agree]
    cases (Value.text written).cast .int <;> cases Value.read .int written <;> simp [Except.map]

/-- A short integer comes through, whatever its sign and zeros. -/
theorem short_integer_agrees :
    Number.WritesInteger (Text.trimLetters " -042\n".toList) (-42) ∧
    Value.read .int " -042\n" = .ok (.int (-42)) ∧
    (Value.text " -042\n").cast .int = Value.read .int " -042\n" ∧
    Engine.editedAnswer (some (.text " -042\n")) .int =
      (Constructors.standard.construct "int" " -042\n").map some := by
  have writes : Number.WritesInteger (Text.trimLetters " -042\n".toList) (-42) :=
    Number.readInteger?_eq_some_iff.mp (by decide)
  have through : Number.ComesThrough (-42) := .inl ⟨-42, by decide, .inl (by decide +kernel)⟩
  rcases Value.written_integer_agrees_iff writes with ⟨reads, -, -, cast, stored⟩
  exact ⟨writes, reads (-42) (by decide), cast.mpr through, stored.mpr through⟩

/-- The first integer that is rounded, and the first one that does not fit. -/
theorem long_integer_differs :
    Number.WritesInteger (Text.trimLetters "9007199254740993".toList) 9007199254740993 ∧
    Value.read .int "9007199254740993" = .ok (.int 9007199254740993) ∧
    (Value.text "9007199254740993").cast .int = .ok (.int 9007199254740992) ∧
    Number.WritesInteger (Text.trimLetters "9223372036854775808".toList) 9223372036854775808 ∧
    Value.read .int "9223372036854775808" = .error (.unreadable "9223372036854775808" .int) ∧
    (Value.text "9223372036854775808").cast .int = .ok (.int 9223372036854775807) :=
  ⟨Number.readInteger?_eq_some_iff.mp (by decide), by decide +kernel, by decide +kernel,
    Number.readInteger?_eq_some_iff.mp (by decide), by decide +kernel, by decide +kernel⟩

end ReactiveForm
