import ReactiveForm.Json.Printer
import ReactiveForm.Json.Reader
import ReactiveForm.Proofs.Spelling

/-! Numbers as they stand in documents. Integers of 64 bits are read back. So is a decimal that is
read back when it stands alone: what comes after it makes no difference. -/

namespace ReactiveForm.Json

def EndsNumeral (rest : Input) : Prop :=
  ∀ letter, rest.head? = some (some letter) →
    letter.isDigit = false ∧ letter ≠ '.' ∧ letter ≠ 'e' ∧ letter ≠ 'E'

theorem endsNumeral_nil : EndsNumeral [] := by
  intro letter next
  cases next

theorem endsNumeral_cons {letter : Char} (rest : Input) (other : letter.isDigit = false ∧
    letter ≠ '.' ∧ letter ≠ 'e' ∧ letter ≠ 'E') : EndsNumeral (some letter :: rest) := by
  intro next same
  cases same
  exact other

section Numerals

variable {input rest left : Input} {digits : List Char}

theorem EndsNumeral.spanDigits (ends : EndsNumeral rest) : spanDigits rest = ([], rest) := by
  rw [spanDigits.eq_def]
  split
  next letter rest => rw [(ends letter rfl).1, if_neg Bool.false_ne_true]
  next => rfl

theorem EndsNumeral.readFraction? (ends : EndsNumeral rest) :
    readFraction? rest = some (none, rest) := by
  rw [readFraction?.eq_def]
  split
  next => exact absurd rfl (ends '.' rfl).2.1
  next => rfl

theorem EndsNumeral.readExponent? (ends : EndsNumeral rest) :
    readExponent? rest = some (none, rest) := by
  rw [readExponent?.eq_def]
  split
  next letter rest => rw [if_neg (not_or.mpr (ends letter rfl).2.2)]
  next => rfl

/-! A part of a number is read alike with more behind it. -/

theorem spanDigits_append (ends : EndsNumeral rest)
    (spanned : Json.spanDigits input = (digits, left)) :
    Json.spanDigits (input ++ rest) = (digits, left ++ rest) := by
  fun_induction Json.spanDigits input generalizing digits left with
  | case1 letter input digit digits' left' spans induction =>
      cases spanned
      rw [List.cons_append, Json.spanDigits, if_pos digit, induction spans]
  | case2 letter input other =>
      cases spanned
      rw [List.cons_append, Json.spanDigits, if_neg other]
  | case3 input other =>
      cases spanned
      cases input with
      | nil => exact ends.spanDigits
      | cons piece input =>
          cases piece with
          | none => rfl
          | some letter => exact absurd rfl (other letter input)

theorem readFraction?_append {fraction : Option (List Char)} (ends : EndsNumeral rest)
    (read : Json.readFraction? input = some (fraction, left)) :
    Json.readFraction? (input ++ rest) = some (fraction, left ++ rest) := by
  rw [Json.readFraction?.eq_def] at read
  split at read
  next input =>
    rw [List.cons_append, Json.readFraction?]
    cases spanned : Json.spanDigits input with
    | mk digits left =>
        rw [spanned] at read
        rw [spanDigits_append ends spanned]
        dsimp only at read ⊢
        split at read
        · cases read
        next some =>
          cases read
          rw [if_neg some]
  next other =>
    cases read
    cases input with
    | nil => exact ends.readFraction?
    | cons piece input =>
        rw [List.cons_append, Json.readFraction?.eq_def]
        split
        next same => exact absurd (congrArg (· :: input) (List.cons.inj same).1) (other input)
        next => rfl

def exponentSign : Input → Bool × Input
  | some '-' :: rest => (true, rest)
  | some '+' :: rest => (false, rest)
  | rest => (false, rest)

theorem readExponent?_cons {letter : Char} (marked : letter = 'e' ∨ letter = 'E') :
    Json.readExponent? (some letter :: input) =
      if (Json.spanDigits (exponentSign input).2).1.isEmpty then none
      else some (some ((exponentSign input).1, (Json.spanDigits (exponentSign input).2).1),
        (Json.spanDigits (exponentSign input).2).2) := by
  rw [Json.readExponent?.eq_def]
  dsimp only
  rw [if_pos marked]
  split
  · rfl
  · rfl
  next noMinus noPlus => rw [exponentSign.eq_3 _ noMinus noPlus]

theorem readExponent?_cons_of_not {letter : Char} (unmarked : ¬(letter = 'e' ∨ letter = 'E')) :
    Json.readExponent? (some letter :: input) = some (none, some letter :: input) := by
  rw [Json.readExponent?.eq_def]
  dsimp only
  rw [if_neg unmarked]

theorem exponentSign_cons {piece : Option Char} (noMinus : piece ≠ some '-')
    (noPlus : piece ≠ some '+') : exponentSign (piece :: input) = (false, piece :: input) := by
  rw [exponentSign.eq_def]
  split
  next same => exact absurd (List.cons.inj same).1 noMinus
  next same => exact absurd (List.cons.inj same).1 noPlus
  next => rfl

theorem exponentSign_append (some : input ≠ []) :
    exponentSign (input ++ rest) = ((exponentSign input).1, (exponentSign input).2 ++ rest) := by
  cases input with
  | nil => exact absurd rfl some
  | cons piece input =>
      by_cases minus : piece = Option.some '-'
      · rw [minus]
        rfl
      by_cases plus : piece = Option.some '+'
      · rw [plus]
        rfl
      rw [List.cons_append, exponentSign_cons minus plus, exponentSign_cons minus plus]
      rfl

theorem readExponent?_append {exponent : Option (Bool × List Char)} (ends : EndsNumeral rest)
    (read : Json.readExponent? input = some (exponent, left)) :
    Json.readExponent? (input ++ rest) = some (exponent, left ++ rest) := by
  cases input with
  | nil =>
      cases read
      exact ends.readExponent?
  | cons piece input =>
      cases piece with
      | none =>
          cases read
          rfl
      | some letter =>
          by_cases marked : letter = 'e' ∨ letter = 'E'
          · rw [readExponent?_cons marked] at read
            split at read
            · cases read
            next digits =>
              cases read
              have more : input ≠ [] := by
                rintro rfl
                exact digits rfl
              rw [List.cons_append, readExponent?_cons marked, exponentSign_append more,
                spanDigits_append ends rfl, if_neg digits]
          · rw [readExponent?_cons_of_not marked] at read
            cases read
            exact readExponent?_cons_of_not marked

theorem readNumeral?_append {negative : Bool} {numeral : Numeral}
    (ends : EndsNumeral rest) (read : readNumeral? negative input = some (numeral, left)) :
    readNumeral? negative (input ++ rest) = some (numeral, left ++ rest) := by
  rw [readNumeral?] at read ⊢
  cases spanned : Json.spanDigits input with
  | mk whole left =>
      rw [spanned] at read
      rw [spanDigits_append ends spanned]
      dsimp only at read ⊢
      split at read
      · cases read
      next fine =>
        rw [if_neg fine]
        rcases Option.bind_eq_some_iff.mp read with ⟨⟨fraction, afterFraction⟩, readFraction, read⟩
        rcases Option.bind_eq_some_iff.mp read with ⟨⟨exponent, afterExponent⟩, readExponent, read⟩
        cases read
        rw [readFraction?_append ends readFraction]
        simp only [Option.bind_eq_bind, Option.bind_some]
        rw [readExponent?_append ends readExponent]
        rfl

theorem spanDigits_row {written : List Char} (row : ∀ letter ∈ written, letter.isDigit = true)
    (ends : EndsNumeral rest) : Json.spanDigits (written.map some ++ rest) = (written, rest) := by
  induction written with
  | nil => exact ends.spanDigits
  | cons letter written induction =>
      rw [List.forall_mem_cons] at row
      rw [List.map_cons, List.cons_append, Json.spanDigits, if_pos row.1, induction row.2]

theorem head?_digits {number : Nat} (zero : (Number.digits number).head? = some '0') :
    number = 0 := by
  induction number using Nat.strongRecOn with
  | ind number induction =>
      rw [Number.digits, Nat.toDigits_eq_if (by decide)] at zero
      split at zero
      next small =>
        have digit : ∀ number < 10, [Nat.digitChar number].head? = some '0' → number = 0 := by
          decide
        exact digit number small zero
      next large =>
        rw [List.head?_append, Option.or_of_isSome (by simp [Nat.toDigits_ne_nil])] at zero
        have := induction (number / 10) (by omega) zero
        omega

theorem readNumeral?_digits {negative : Bool} (number : Nat) (ends : EndsNumeral rest) :
    readNumeral? negative ((Number.digits number).map some ++ rest) =
      some (⟨negative, Number.digits number, none, none⟩, rest) := by
  have some : (Number.digits number).isEmpty = false :=
    List.isEmpty_eq_false_iff.mpr Nat.toDigits_ne_nil
  have alone : ¬(1 < (Number.digits number).length ∧ (Number.digits number).head? = .some '0') := by
    rintro ⟨long, zero⟩
    rw [head?_digits zero] at long
    exact absurd long (by decide)
  rw [readNumeral?, spanDigits_row (fun _ => Number.isDigit_of_mem_digits) ends]
  dsimp only
  rw [if_neg (by simpa [some] using alone), ends.readFraction?]
  simp only [Option.bind_eq_bind, Option.bind_some]
  rw [ends.readExponent?]
  rfl

end Numerals

def FitsInteger (value : Int) : Prop :=
  Int64.minValue.toInt ≤ value ∧ value < UInt64.size

def ReadsBack (number : Float) : Prop :=
  read? (decimal number).compact = some (.decimal number)

theorem isDigit_ne {first other : Char} (digit : first.isDigit = true)
    (different : other.isDigit = false) : first ≠ other := by
  rintro rfl
  rw [digit] at different
  exact Bool.noConfusion different

section Numbers

variable {fuel remaining : Nat} {input more rest left : Input}

theorem skipGaps_of_not_isGap {piece : Option Char} (solid : isGap piece = false) (rest : Input) :
    skipGaps (piece :: rest) = piece :: rest := by
  rw [skipGaps, List.dropWhile_cons, solid, if_neg Bool.false_ne_true]

theorem skipGaps_append {piece : Option Char} (skipped : skipGaps input = piece :: more) :
    skipGaps (input ++ rest) = piece :: (more ++ rest) := by
  rw [skipGaps] at skipped ⊢
  rw [List.dropWhile_append, skipped, List.isEmpty_cons, if_neg Bool.false_ne_true]
  rfl

theorem isGap_of_isDigit {first : Char} (digit : first.isDigit = true) :
    isGap (some first) = false := by
  have others : first ≠ ' ' ∧ first ≠ '\n' ∧ first ≠ '\t' ∧ first ≠ '\r' :=
    ⟨isDigit_ne digit rfl, isDigit_ne digit rfl, isDigit_ne digit rfl, isDigit_ne digit rfl⟩
  simp [isGap, others]

theorem readValue?_digit {first : Char} (digit : first.isDigit = true)
    (next : skipGaps input = some first :: more) :
    readValue? (fuel + 1) remaining input =
      (readNumeral? false (some first :: more)).map
        fun (numeral, rest) => (numeral.value, rest) := by
  rw [readValue?.eq_def]
  dsimp only
  rw [next]
  split
  -- every branch but the last one begins with a character that is no digit
  all_goals first
    | next same => exact absurd (Option.some.inj (List.cons.inj same).1) (isDigit_ne digit rfl)
    | rfl

theorem readValue?_minus (next : skipGaps input = some '-' :: more) :
    readValue? (fuel + 1) remaining input =
      (readNumeral? true more).map fun (numeral, rest) => (numeral.value, rest) := by
  rw [readValue?.eq_def]
  dsimp only
  rw [next]
  rfl

theorem value_digits {number : Nat} (fits : number < UInt64.size) :
    Numeral.value ⟨false, Number.digits number, none, none⟩ = .integer number := by
  rw [Numeral.value]
  dsimp only
  rw [Number.digitsValue_digits, if_pos (by simpa using fits)]

theorem value_negative {number : Nat} (positive : 0 < number)
    (fits : Int64.minValue.toInt ≤ -(number : Int)) :
    Numeral.value ⟨true, Number.digits number, none, none⟩ = .integer (-number) := by
  rw [Numeral.value]
  dsimp only
  rw [Number.digitsValue_digits, if_neg (by simp), if_pos ⟨positive, fits⟩]

theorem readValue?_integer {value : Int} (fits : FitsInteger value) (ends : EndsNumeral rest) :
    readValue? (fuel + 1) remaining ((Number.integerDigits value).map some ++ rest) =
      some (.integer value, rest) := by
  rw [Number.integerDigits]
  split
  next negative =>
    have size : -(value.natAbs : Int) = value := by omega
    rw [List.map_cons, List.cons_append, readValue?_minus (skipGaps_of_not_isGap rfl _),
      readNumeral?_digits _ ends, Option.map_some]
    dsimp only
    rw [value_negative (by omega) (by rw [size]; exact fits.1), size]
  next nonnegative =>
    have size : (value.natAbs : Int) = value := by omega
    have below : value.natAbs < UInt64.size := by
      have := fits.2
      omega
    have read : readNumeral? false ((Number.digits value.natAbs).map some ++ rest) = _ :=
      readNumeral?_digits value.natAbs ends
    obtain ⟨first, digits, written⟩ :=
      List.exists_cons_of_ne_nil (Nat.toDigits_ne_nil (n := value.natAbs) (b := 10))
    have digit : first.isDigit = true :=
      @Number.isDigit_of_mem_digits value.natAbs first (by simp [written])
    have number := value_digits below
    rw [Number.digits, written] at read number ⊢
    rw [List.map_cons, List.cons_append] at read ⊢
    rw [readValue?_digit digit (skipGaps_of_not_isGap (isGap_of_isDigit digit) _), read,
      Option.map_some]
    dsimp only
    rw [number, size]

theorem exists_digit_of_readNumeral? {negative : Bool} {numeral : Numeral}
    (read : readNumeral? negative input = some (numeral, left)) :
    ∃ first more, input = some first :: more ∧ first.isDigit = true := by
  rw [readNumeral?] at read
  cases input with
  | nil => cases read
  | cons piece input =>
      cases piece with
      | none => cases read
      | some first =>
          refine ⟨first, input, rfl, ?_⟩
          by_contra other
          rw [spanDigits, if_neg other] at read
          cases read

theorem withinDepth_ne_decimal {container : Json} {number : Float}
    (other : container ≠ .decimal number) : withinDepth remaining container ≠ .decimal number := by
  rw [withinDepth]
  split
  · exact Json.noConfusion
  · exact other

/-- A decimal is read alike with more behind it. -/
theorem readValue?_append {number : Float} {enough most : Nat} (ends : EndsNumeral rest)
    (read : readValue? fuel remaining input = some (.decimal number, left)) :
    readValue? (enough + 1) most (input ++ rest) = some (.decimal number, left ++ rest) := by
  cases fuel with
  | zero => cases read
  | succ fuel =>
      rw [readValue?.eq_def] at read
      dsimp only at read
      -- Of all that a value can begin with, only a sign and a digit begin a number.
      split at read
      next => simp [readWord?] at read
      next => simp [readWord?] at read
      next => simp [readWord?] at read
      next =>
        rcases Option.map_eq_some_iff.mp read with ⟨⟨content?, after⟩, text, same⟩
        cases content? <;> cases (Prod.mk.inj same).1
      next =>
        split at read
        · exact absurd (Prod.mk.inj (Option.some.inj read)).1
            (withinDepth_ne_decimal Json.noConfusion)
        · rcases Option.bind_eq_some_iff.mp read with ⟨⟨items, after⟩, found, same⟩
          exact absurd (Prod.mk.inj (Option.some.inj same)).1
            (withinDepth_ne_decimal Json.noConfusion)
      next =>
        split at read
        · exact absurd (Prod.mk.inj (Option.some.inj read)).1
            (withinDepth_ne_decimal Json.noConfusion)
        · rcases Option.bind_eq_some_iff.mp read with ⟨⟨members?, after⟩, found, same⟩
          cases members? <;> exact absurd (Prod.mk.inj (Option.some.inj same)).1
            (withinDepth_ne_decimal Json.noConfusion)
      next minus =>
        rcases Option.map_eq_some_iff.mp read with ⟨⟨numeral, after⟩, found, same⟩
        obtain ⟨value, rfl⟩ := Prod.mk.inj same
        rw [readValue?_minus (skipGaps_append minus), readNumeral?_append ends found,
          Option.map_some]
        exact congrArg (fun value => some (value, _)) value
      next =>
        rcases Option.map_eq_some_iff.mp read with ⟨⟨numeral, after⟩, found, same⟩
        obtain ⟨value, rfl⟩ := Prod.mk.inj same
        rcases exists_digit_of_readNumeral? found with ⟨first, more, skipped, digit⟩
        rw [skipped] at found
        rw [readValue?_digit digit (skipGaps_append skipped), ← List.cons_append,
          readNumeral?_append ends found, Option.map_some]
        exact congrArg (fun value => some (value, _)) value

theorem skipGaps_append_of_empty (empty : (skipGaps left).isEmpty = true) :
    skipGaps (left ++ rest) = skipGaps rest := by
  rw [skipGaps] at empty ⊢
  rw [List.dropWhile_append, empty, if_pos rfl]
  rfl

theorem ReadsBack.readValue? {number : Float} (back : ReadsBack number) (ends : EndsNumeral rest) :
    ∃ left, readValue? (fuel + 1) remaining ((decimal number).compact.toList.map some ++ rest) =
      some (.decimal number, left) ∧ skipGaps left = skipGaps rest := by
  rw [ReadsBack, read?, readInput?] at back
  rcases Option.bind_eq_some_iff.mp back with ⟨⟨value, left⟩, read, complete⟩
  dsimp only at complete
  split at complete
  next empty =>
    cases complete
    exact ⟨left ++ rest, readValue?_append ends read, skipGaps_append_of_empty empty⟩
  next => cases complete

end Numbers

end ReactiveForm.Json
