import Mathlib.Data.List.TakeWhile
import ReactiveForm.Value.Constructors

/-! What is written is read back: numbers, dates, times, and with them the values
of every type but decimals. -/

namespace ReactiveForm

/-! Rows of digits. -/

namespace Number

variable {number width : Nat}

theorem isDigit_of_mem_digits {letter : Char} (member : letter ∈ digits number) :
    letter.isDigit = true :=
  Nat.isDigit_of_mem_toDigits (by decide) (by decide) member

theorem isDigit_of_mem_paddedDigits {letter : Char} (member : letter ∈ paddedDigits width number) :
    letter.isDigit = true := by
  rcases List.mem_append.mp member with zero | digit
  · rw [List.eq_of_mem_replicate zero]
    rfl
  · exact isDigit_of_mem_digits digit

@[simp] theorem digitsValue_digits : digitsValue (digits number) = number :=
  Nat.ofDigitChars_ten_toDigits

@[simp] theorem digitsValue_paddedDigits : digitsValue (paddedDigits width number) = number := by
  rw [paddedDigits, digitsValue, Nat.ofDigitChars_append, Nat.ofDigitChars_replicate_zero, Nat.mul_zero]
  exact digitsValue_digits

theorem paddedDigits_ne_nil : paddedDigits width number ≠ [] :=
  List.append_ne_nil_of_right_ne_nil _ Nat.toDigits_ne_nil

theorem length_paddedDigits : (paddedDigits width number).length = max width (digits number).length := by
  rw [paddedDigits, List.length_append, List.length_replicate]
  omega

theorem length_paddedDigits_of_lt (positive : 0 < width) (fits : number < Nat.pow 10 width) :
    (paddedDigits width number).length = width := by
  have short : (digits number).length ≤ width :=
    (Nat.length_toDigits_le_iff (by decide) positive).mpr fits
  rw [length_paddedDigits, Nat.max_eq_left short]

/-! Integers. -/

structure IsRow (letters : List Char) : Prop where
  nonempty : letters ≠ []
  digits : ∀ letter ∈ letters, letter.isDigit = true

theorem readDigits?_eq_some_iff {row : List Char} {size : Nat} :
    readDigits? row = some size ↔ IsRow row ∧ digitsValue row = size := by
  rw [readDigits?]
  split
  next bad =>
    refine iff_of_false (Option.some_ne_none size).symm ?_
    rintro ⟨isRow, -⟩
    rw [List.isEmpty_eq_false_iff.mpr isRow.nonempty, List.all_eq_true.mpr isRow.digits] at bad
    cases bad
  next good =>
    rw [Bool.or_eq_true, Bool.not_eq_true', not_or, Bool.not_eq_true, Bool.not_eq_false] at good
    have isRow : IsRow row := ⟨List.isEmpty_eq_false_iff.mp good.1, List.all_eq_true.mp good.2⟩
    rw [Option.some.injEq, and_iff_right isRow]

theorem readDigits?_digits (number : Nat) : readDigits? (digits number) = some number :=
  readDigits?_eq_some_iff.mpr
    ⟨⟨Nat.toDigits_ne_nil, fun _ => isDigit_of_mem_digits⟩, digitsValue_digits⟩

theorem signed_of_isDigit {letters : List Char} (row : ∀ letter ∈ letters, letter.isDigit = true) :
    signed letters = (false, letters) := by
  rw [signed.eq_def]
  split
  next rest => cases row '-' List.mem_cons_self
  next rest => cases row '+' List.mem_cons_self
  next => rfl

theorem readInteger?_integerDigits (number : Int) :
    readInteger? (integerDigits number) = some number := by
  rw [integerDigits]
  split
  next negative =>
    have size : -(number.natAbs : Int) = number := by omega
    rw [readInteger?, signed]
    simp only [readDigits?_digits, Option.bind_eq_bind, Option.bind_some, Option.pure_def,
      Option.map_some, if_true, size]
  next nonnegative =>
    have size : (number.natAbs : Int) = number := by omega
    rw [readInteger?, signed_of_isDigit fun _ => isDigit_of_mem_digits]
    simp only [readDigits?_digits, Option.bind_eq_bind, Option.bind_some, Option.pure_def,
      Option.map_some, Bool.false_eq_true, if_false, size]

theorem int64?_toInt (number : Int64) : int64? number.toInt = some number := by
  rw [int64?, if_pos ⟨Int64.minValue_le_toInt number, Int64.toInt_le number⟩, Int64.ofInt_toInt]

theorem readInt64?_integerDigits (number : Int64) :
    readInt64? (integerDigits number.toInt) = some number := by
  rw [readInt64?, readInteger?_integerDigits, Option.bind_some, int64?_toInt]

theorem readPosition?_digits (fits : number < UInt64.size) :
    readPosition? (digits number) = some number := by
  have unsigned : ∀ rest, digits number ≠ '+' :: rest := by
    intro rest same
    have plus : '+' ∈ digits number := same ▸ List.mem_cons_self
    cases isDigit_of_mem_digits plus
  rw [readPosition?.eq_def]
  split
  next rest same => exact absurd same (unsigned rest)
  next => simp [readDigits?_digits, fits]

end Number

/-! White space. -/

namespace Text

theorem isBlank_of_isDigit {letter : Char} (digit : letter.isDigit = true) :
    isBlank letter = false := by
  simp only [Char.isDigit, Bool.and_eq_true, decide_eq_true_eq, ge_iff_le, UInt32.le_iff_toNat_le]
    at digit
  have low : 48 ≤ letter.val.toNat := digit.1
  have high : letter.val.toNat ≤ 57 := digit.2
  simp only [isBlank, Bool.or_eq_false_iff, Bool.and_eq_false_iff, beq_eq_false_iff_ne,
    decide_eq_false_iff_not]
  omega

theorem trimFront_cons {letter : Char} (solid : isBlank letter = false) (rest : List Char) :
    trimFront (letter :: rest) = letter :: rest := by
  rw [trimFront, List.dropWhile_cons, solid, if_neg Bool.false_ne_true]

theorem trimFront_digits {written rest : List Char} (nonempty : written ≠ [])
    (row : ∀ letter ∈ written, letter.isDigit = true) :
    trimFront (written ++ rest) = written ++ rest := by
  cases written with
  | nil => exact absurd rfl nonempty
  | cons first written => exact trimFront_cons (isBlank_of_isDigit (row first List.mem_cons_self)) _

def IsSolid (letters : List Char) : Prop :=
  ∀ letter ∈ letters, isBlank letter = false

@[simp] theorem isSolid_nil : IsSolid [] :=
  List.forall_mem_nil _

@[simp] theorem isSolid_cons {first : Char} {rest : List Char} :
    IsSolid (first :: rest) ↔ isBlank first = false ∧ IsSolid rest :=
  List.forall_mem_cons

@[simp] theorem isSolid_append {first second : List Char} :
    IsSolid (first ++ second) ↔ IsSolid first ∧ IsSolid second :=
  List.forall_mem_append

@[simp] theorem isSolid_digits (number : Nat) : IsSolid (Number.digits number) :=
  fun _ member => isBlank_of_isDigit (Number.isDigit_of_mem_digits member)

@[simp] theorem isSolid_paddedDigits (width number : Nat) :
    IsSolid (Number.paddedDigits width number) :=
  fun _ member => isBlank_of_isDigit (Number.isDigit_of_mem_paddedDigits member)

theorem trimLetters_eq_self {letters : List Char} (solid : IsSolid letters) :
    trimLetters letters = letters := by
  have front : ∀ {letters : List Char}, IsSolid letters → trimFront letters = letters := by
    intro letters solid
    cases letters with
    | nil => rfl
    | cons first rest => exact trimFront_cons (isSolid_cons.mp solid).1 rest
  rw [trimLetters, front solid, front fun letter member => solid letter (List.mem_reverse.mp member),
    List.reverse_reverse]

end Text

/-! Dates and times. -/

namespace Calendar

open Number Text

variable {spacing : Spacing}

def EndsNumber (rest : List Char) : Prop :=
  ∀ letter ∈ rest.head?, letter.isDigit = false

theorem takeNumber?_append {width : Nat} {written rest : List Char} (nonempty : written ≠ [])
    (row : ∀ letter ∈ written, letter.isDigit = true) (fits : written.length ≤ width)
    (ends : written.length = width ∨ EndsNumber rest) :
    takeNumber? width (written ++ rest) = some (digitsValue written, rest) := by
  have taken : ((written ++ rest).take width).takeWhile Char.isDigit = written := by
    rw [List.take_append, List.take_of_length_le fits, List.takeWhile_append_of_pos row]
    cases ends with
    | inl full => rw [full, Nat.sub_self, List.take_zero, List.takeWhile_nil, List.append_nil]
    | inr ends =>
        have nothing : (rest.take (width - written.length)).takeWhile Char.isDigit = [] := by
          cases rest with
          | nil => rw [List.take_nil, List.takeWhile_nil]
          | cons first rest =>
              have stops := ends first rfl
              cases width - written.length <;> simp [stops]
        rw [nothing, List.append_nil]
  have some : written.isEmpty = false := List.isEmpty_eq_false_iff.mpr nonempty
  rw [takeNumber?, taken, some, if_neg Bool.false_ne_true, List.drop_left]

theorem takeTwoDigits?_append {number : Nat} (fits : number < 100) (rest : List Char) :
    takeTwoDigits? (paddedDigits 2 number ++ rest) = some (number, rest) := by
  have length : (paddedDigits 2 number).length = 2 := length_paddedDigits_of_lt (by decide) fits
  have row : ∀ letter ∈ paddedDigits 2 number, letter.isDigit = true :=
    fun _ => isDigit_of_mem_paddedDigits
  have read : takeNumber? 2 (paddedDigits 2 number ++ rest) = _ :=
    takeNumber?_append paddedDigits_ne_nil row (Nat.le_of_eq length) (.inl length)
  rw [digitsValue_paddedDigits] at read
  rw [takeTwoDigits?, trimFront_digits paddedDigits_ne_nil row]
  exact read

theorem takeSeparator?_cons {separator : Char} (solid : isBlank separator = false)
    (rest : List Char) : spacing.takeSeparator? separator (separator :: rest) = some rest := by
  have skipped : spacing.skip (separator :: rest) = separator :: rest := by
    rw [Spacing.skip, trimFront_cons solid, ite_self]
  rw [Spacing.takeSeparator?, skipped]
  exact if_pos rfl

theorem takeYear?_minus (rest : List Char) : takeYear? ('-' :: rest) =
    (takeNumber? rest.length rest).map fun (size, rest) => (-(size : Int), rest) :=
  rfl

theorem takeYear?_plus (rest : List Char) : takeYear? ('+' :: rest) =
    (takeNumber? rest.length rest).map fun (size, rest) => ((size : Int), rest) :=
  rfl

theorem takeYear?_of_isDigit {first : Char} (digit : first.isDigit = true) (rest : List Char) :
    takeYear? (first :: rest) =
      (takeNumber? 4 (first :: rest)).map fun (size, rest) => ((size : Int), rest) := by
  rw [takeYear?.eq_def, trimFront_cons (isBlank_of_isDigit digit)]
  split
  next same => cases (List.cons.inj same).1 ▸ digit
  next same => cases (List.cons.inj same).1 ▸ digit
  next => rfl

theorem takeYear?_append (year : Int) {rest : List Char} (ends : EndsNumber rest) :
    takeYear? (Date.yearLetters year ++ rest) = some (year, rest) := by
  have row : ∀ letter ∈ paddedDigits 4 year.natAbs, letter.isDigit = true :=
    fun _ => isDigit_of_mem_paddedDigits
  have signed : takeNumber? (paddedDigits 4 year.natAbs ++ rest).length
      (paddedDigits 4 year.natAbs ++ rest) = some (year.natAbs, rest) := by
    rw [takeNumber?_append paddedDigits_ne_nil row (by simp) (.inr ends), digitsValue_paddedDigits]
  rw [Date.yearLetters]
  split
  next negative =>
    have size : -(year.natAbs : Int) = year := by omega
    rw [List.cons_append, takeYear?_minus, signed]
    simp only [Option.map_some, size]
  next nonnegative =>
    have size : (year.natAbs : Int) = year := by omega
    split
    next short =>
      have length : (paddedDigits 4 year.natAbs).length = 4 :=
        length_paddedDigits_of_lt (by decide) (by simp only [Nat.pow_eq]; omega)
      have read : takeNumber? 4 (paddedDigits 4 year.natAbs ++ rest) = some (year.natAbs, rest) := by
        rw [takeNumber?_append paddedDigits_ne_nil row (Nat.le_of_eq length) (.inl length),
          digitsValue_paddedDigits]
      obtain ⟨first, others, written⟩ := List.exists_cons_of_ne_nil (@paddedDigits_ne_nil year.natAbs 4)
      rw [written] at read row ⊢
      rw [List.cons_append] at read ⊢
      rw [takeYear?_of_isDigit (row first List.mem_cons_self), read]
      simp only [Option.map_some, size]
    next long =>
      rw [List.cons_append, takeYear?_plus, signed]
      simp only [Option.map_some, size]

theorem endsNumber_cons {letter : Char} (stops : letter.isDigit = false) (rest : List Char) :
    EndsNumber (letter :: rest) := by
  simpa [EndsNumber] using stops

theorem daysInMonth_le (year : Int) (month : Nat) : daysInMonth year month ≤ 31 := by
  rw [daysInMonth.eq_def]
  split
  · split <;> decide
  all_goals decide

theorem month_le {year : Int} {month day : Nat} (isDate : IsDate year month day) : month ≤ 12 := by
  have days : daysInMonth year month ≠ 0 := by have := isDate.2.2; omega
  rw [daysInMonth.eq_def] at days
  split at days
  all_goals first | decide | exact absurd rfl days

theorem takeDate?_append (date : Date) (rest : List Char) :
    takeDate? spacing (date.letters ++ rest) = some (date, rest) := by
  have month : date.month < 100 := Nat.lt_of_le_of_lt (month_le date.isDate) (by decide)
  have day : date.day < 100 := by
    have := date.isDate.2.2.2
    have := daysInMonth_le date.year date.month
    omega
  have known : Date.of? date.year date.month date.day = some date := dif_pos date.isDate
  rw [takeDate?, Date.letters, List.append_assoc, List.append_assoc, List.cons_append,
    takeYear?_append _ (endsNumber_cons rfl _)]
  simp only [Option.bind_eq_bind, Option.bind_some]
  rw [takeSeparator?_cons (by decide), Option.bind_some, takeTwoDigits?_append month,
    Option.bind_some]
  dsimp only
  rw [List.cons_append, takeSeparator?_cons (by decide), Option.bind_some,
    takeTwoDigits?_append day, Option.bind_some]
  dsimp only
  rw [known]
  rfl

def EndsTime (rest : List Char) : Prop :=
  ∀ letter ∈ rest.head?, letter.isDigit = false ∧ letter ≠ '.'

theorem EndsTime.endsNumber {rest : List Char} (ends : EndsTime rest) : EndsNumber rest :=
  fun letter first => (ends letter first).1

theorem endsTime_nil : EndsTime [] := by
  simp [EndsTime]

/-- Up to nine places of a fraction are read. -/
theorem takeFraction?_point {places number : Nat} (positive : 0 < places) (most : places ≤ 9)
    (fits : number < Nat.pow 10 places) {rest : List Char} (ends : EndsNumber rest) :
    takeFraction? ('.' :: paddedDigits places number ++ rest) =
      some (number * Nat.pow 10 (9 - places), rest) := by
  have length := length_paddedDigits_of_lt positive fits
  have row : ∀ letter ∈ paddedDigits places number, letter.isDigit = true :=
    fun _ => isDigit_of_mem_paddedDigits
  have read : takeNumber? 9 (paddedDigits places number ++ rest) = some (number, rest) := by
    rw [takeNumber?_append paddedDigits_ne_nil row (Nat.le_trans (Nat.le_of_eq length) most) (.inr ends),
      digitsValue_paddedDigits]
  have nothing : rest.dropWhile Char.isDigit = rest := by
    cases rest with
    | nil => rfl
    | cons first rest =>
        rw [List.dropWhile_cons, ends first rfl, if_neg Bool.false_ne_true]
  rw [List.cons_append, takeFraction?]
  simp only [read, Option.bind_eq_bind, Option.bind_some, List.length_append, length,
    Nat.add_sub_cancel, nothing]
  rfl

theorem takeFraction?_append {nanosecond : Nat} (below : nanosecond < 1000000000)
    {rest : List Char} (ends : EndsTime rest) :
    takeFraction? (TimeOfDay.fractionLetters nanosecond ++ rest) = some (nanosecond, rest) := by
  rw [TimeOfDay.fractionLetters]
  split
  next whole =>
    rw [List.nil_append, whole, takeFraction?.eq_def]
    split
    next rest => exact absurd rfl (ends '.' rfl).2
    next => rfl
  next =>
    split
    next millis =>
      rw [takeFraction?_point (by decide) (by decide) (by simp only [Nat.pow_eq]; omega)
        ends.endsNumber]
      simp only [Nat.pow_eq, Option.some.injEq, Prod.mk.injEq, and_true]
      omega
    next =>
      split
      next micros =>
        rw [takeFraction?_point (by decide) (by decide) (by simp only [Nat.pow_eq]; omega)
          ends.endsNumber]
        simp only [Nat.pow_eq, Option.some.injEq, Prod.mk.injEq, and_true]
        omega
      next =>
        rw [takeFraction?_point (by decide) (by decide) (by simp only [Nat.pow_eq]; omega)
          ends.endsNumber]
        simp

theorem takeTime?_append (time : TimeOfDay) {rest : List Char} (ends : EndsTime rest) :
    takeTime? spacing (time.letters ++ rest) = some (time, rest) := by
  obtain ⟨hour, minute, second, nanosecond⟩ := time.isTime
  have known : TimeOfDay.of? time.hour time.minute time.second time.nanosecond = some time :=
    dif_pos time.isTime
  rw [takeTime?, takeHourMinute?, TimeOfDay.letters, List.append_assoc, List.append_assoc,
    List.append_assoc, takeTwoDigits?_append (by omega)]
  simp only [Option.bind_eq_bind, Option.bind_some, List.cons_append]
  rw [takeSeparator?_cons (by decide), Option.bind_some, takeTwoDigits?_append (by omega)]
  simp only [Option.bind_some, Option.pure_def]
  rw [takeSecond?, takeSeparator?_cons (by decide)]
  simp only [Option.bind_eq_bind, Option.bind_some]
  rw [takeTwoDigits?_append (by omega)]
  simp only [Option.bind_some]
  rw [takeFraction?_append nanosecond ends]
  simp only [Option.bind_some, Option.pure_def, known]

/-! Whole texts. -/

theorem complete?_end {α : Type} (value : α) : spacing.complete? (some (value, [])) = some value := by
  cases spacing <;> rfl

theorem readDate?_letters (date : Date) : readDate? spacing date.letters = some date := by
  rw [readDate?, ← List.append_nil date.letters, takeDate?_append, complete?_end]

theorem readTime?_letters (time : TimeOfDay) : readTime? spacing time.letters = some time := by
  rw [readTime?, ← List.append_nil time.letters, takeTime?_append time endsTime_nil,
    complete?_end]

theorem readDateTime?_letters (moment : DateTime) :
    readDateTime? spacing moment.letters = some moment := by
  rw [readDateTime?, DateTime.letters, takeDate?_append]
  simp only [Option.bind_eq_bind, Option.bind_some]
  rw [takeSeparator?_cons (by decide), Option.bind_some, ← List.append_nil moment.time.letters,
    takeTime?_append _ endsTime_nil]
  exact complete?_end moment

end Calendar

/-! Values. -/

namespace Value

theorem isSolid_integerDigits (number : Int) : Text.IsSolid (Number.integerDigits number) := by
  rw [Number.integerDigits]
  split <;> simp [Text.isBlank]

theorem isSolid_date (date : Date) : Text.IsSolid date.letters := by
  have year : Text.IsSolid (Date.yearLetters date.year) := by
    rw [Date.yearLetters]
    split
    · simp [Text.isBlank]
    · split <;> simp [Text.isBlank]
  simp [Date.letters, Text.isBlank, year]

theorem isSolid_time (time : TimeOfDay) : Text.IsSolid time.letters := by
  have fraction : Text.IsSolid (TimeOfDay.fractionLetters time.nanosecond) := by
    rw [TimeOfDay.fractionLetters]
    repeat' split
    all_goals simp [Text.isBlank]
  simp [TimeOfDay.letters, Text.isBlank, fraction]

theorem isSolid_dateTime (moment : DateTime) : Text.IsSolid moment.letters := by
  simp [DateTime.letters, Text.isBlank, isSolid_date, isSolid_time]

theorem read_display {value : Value} (noDecimal : value.type ≠ .decimal) :
    read value.type value.display = .ok value := by
  have read? : read? value.type value.display = some value := by
    cases value with
    | text content => rfl
    | int number =>
        simp [Value.read?, type, display, Text.trimLetters_eq_self (isSolid_integerDigits _),
          Number.readInt64?_integerDigits]
    | decimal number => exact absurd rfl noDecimal
    | boolean truth => cases truth <;> rfl
    | date day =>
        simp [Value.read?, type, display, Text.trimLetters_eq_self (isSolid_date day),
          Calendar.readDate?_letters]
    | time clock =>
        simp [Value.read?, type, display, Text.trimLetters_eq_self (isSolid_time clock),
          Calendar.readTime?_letters]
    | dateTime moment =>
        simp [Value.read?, type, display, Text.trimLetters_eq_self (isSolid_dateTime moment),
          Calendar.readDateTime?_letters]
  rw [read, read?]

end Value

theorem Constructors.construct_standard (type : ValueType) (written : String) :
    standard.construct type.tag written = Value.read type written := by
  cases type <;> rfl

end ReactiveForm
