import Mathlib.Data.List.TakeWhile
import ReactiveForm.Proofs.Nearness
import ReactiveForm.Proofs.Outline
import ReactiveForm.Proofs.Spelling
import ReactiveForm.Reference.Encoding

/-! References as text: which of them are read back from what is written for them. Every
reference that a text has is. One that was climbed until no step was left is not, nor is one
that lost the bracket behind a name of dots. -/

namespace ReactiveForm

/-! Letters and digits are no white space. -/

namespace Text

def blankRanges : List (Nat × Nat) :=
  [(0x85, 0x85), (0xA0, 0xA0), (0x1680, 0x1680), (0x2000, 0x200A), (0x2028, 0x2029),
    (0x202F, 0x202F), (0x205F, 0x205F), (0x3000, 0x3000)]

theorem blankRanges_disjoint :
    (alphanumericRanges.toList.all fun (first, last) => blankRanges.all fun (low, high) =>
      Nat.blt last low || Nat.blt high first) = true := by
  decide +kernel

theorem exists_blankRange {letter : Char} (blank : isBlank letter = true) :
    letter.val.toNat ≤ 0x20 ∨
      ∃ range ∈ blankRanges, range.1 ≤ letter.val.toNat ∧ letter.val.toNat ≤ range.2 := by
  simp only [isBlank, Bool.or_eq_true, Bool.and_eq_true, beq_iff_eq, decide_eq_true_eq] at blank
  simp only [blankRanges, List.mem_cons, List.not_mem_nil, or_false, exists_eq_or_imp,
    exists_eq_left]
  omega

theorem isBlank_of_isAlphanumeric {letter : Char} (alphanumeric : isAlphanumeric letter = true) :
    isBlank letter = false := by
  rw [isAlphanumeric] at alphanumeric
  split at alphanumeric
  next low =>
    have ascii : ∀ code < 128, (Char.ofNat code).isAlphanum = true →
        isBlank (Char.ofNat code) = false := by
      decide
    have printed := ascii letter.toNat (UInt32.lt_iff_toNat_lt.mp low)
    rw [Char.ofNat_toNat] at printed
    exact printed alphanumeric
  next high =>
    rw [Bool.eq_false_iff]
    intro blank
    have beyond : 128 ≤ letter.val.toNat :=
      Nat.not_lt.mp fun low => high (UInt32.lt_iff_toNat_lt.mpr low)
    rw [alphanumericRangesHold, Array.any_eq_true'] at alphanumeric
    obtain ⟨⟨first, last⟩, entry, within⟩ := alphanumeric
    rw [Bool.and_eq_true, decide_eq_true_eq, decide_eq_true_eq] at within
    rcases exists_blankRange blank with control | ⟨⟨low, high⟩, member, above, below⟩
    · omega
    · have disjoint := List.all_eq_true.mp blankRanges_disjoint (first, last)
        (Array.mem_toList_iff.mpr entry)
      have apart := List.all_eq_true.mp disjoint (low, high) member
      rw [Bool.or_eq_true, Nat.blt_eq, Nat.blt_eq] at apart
      dsimp only at above below within
      omega

end Text

/-! Steps. -/

namespace Step

theorem isBlank_of_isNameLetter {letter : Char} (isLetter : isNameLetter letter = true) :
    Text.isBlank letter = false := by
  simp only [isNameLetter, Bool.or_eq_true, beq_iff_eq] at isLetter
  rcases isLetter with (((rfl | rfl) | rfl) | rfl) | alphanumeric
  · rfl
  · rfl
  · rfl
  · rfl
  · exact Text.isBlank_of_isAlphanumeric alphanumeric

theorem isNameLetter_slash : isNameLetter '/' = false := by
  decide +kernel

theorem isNameLetter_bracket : isNameLetter '[' = false := by
  decide +kernel

/-- A step that some text has: its name is one, and its position fits in 64 bits. -/
structure IsNamed (step : Step) : Prop where
  name : isName step.name.toList = true
  position : ∀ position, step.multiplicity = .index position → position < UInt64.size

/-- The step is written like the context itself, or like a level above it. -/
def IsDots (step : Step) : Prop :=
  step = .unbound "." ∨ step = .unbound ".."

instance (step : Step) : Decidable step.IsDots :=
  inferInstanceAs (Decidable (_ ∨ _))

section Named

variable {step : Step}

theorem IsNamed.isNameLetter (named : step.IsNamed) :
    ∀ letter ∈ step.name.toList, isNameLetter letter = true := by
  have name := named.name
  rw [isName, Bool.and_eq_true] at name
  exact List.all_eq_true.mp name.2

theorem IsNamed.name_ne_nil (named : step.IsNamed) : step.name.toList ≠ [] := by
  have name := named.name
  rw [isName, Bool.and_eq_true, Bool.not_eq_true'] at name
  exact List.isEmpty_eq_false_iff.mp name.1

theorem IsNamed.not_mem (named : step.IsNamed) {letter : Char}
    (refused : Step.isNameLetter letter = false) : letter ∉ step.name.toList := by
  intro member
  rw [named.isNameLetter letter member] at refused
  exact Bool.noConfusion refused

theorem IsNamed.letters_ne_nil (named : step.IsNamed) : step.letters ≠ [] :=
  List.append_ne_nil_of_left_ne_nil named.name_ne_nil _

@[simp] theorem letters_unbound : Multiplicity.unbound.letters = [] :=
  rfl

@[simp] theorem letters_template :
    Multiplicity.template.letters = ['[', '@', 't', 'e', 'm', 'p', 'l', 'a', 't', 'e', ']'] :=
  String.toList_ofList

@[simp] theorem letters_index (position : Nat) :
    (Multiplicity.index position).letters = '[' :: (Number.digits position ++ [']']) :=
  rfl

theorem isSolid_multiplicity (multiplicity : Multiplicity) :
    Text.IsSolid multiplicity.letters := by
  cases multiplicity with
  | unbound => exact Text.isSolid_nil
  | template => simp [Text.isBlank]
  | index position => simp [Text.isBlank]

theorem IsNamed.isSolid_letters (named : step.IsNamed) : Text.IsSolid step.letters :=
  Text.isSolid_append.mpr
    ⟨fun letter member => isBlank_of_isNameLetter (named.isNameLetter letter member),
      isSolid_multiplicity step.multiplicity⟩

theorem not_mem_digits {letter : Char} (other : letter.isDigit = false) (number : Nat) :
    letter ∉ Number.digits number := by
  intro member
  rw [Number.isDigit_of_mem_digits member] at other
  exact Bool.noConfusion other

theorem IsNamed.slash_not_mem_letters (named : step.IsNamed) : '/' ∉ step.letters := by
  have bracket : '/' ∉ step.multiplicity.letters := by
    cases step.multiplicity with
    | unbound => exact List.not_mem_nil
    | template => simp
    | index position =>
        have digit : '/' ∉ Number.digits position := not_mem_digits rfl position
        simp [digit]
  rw [letters, List.mem_append, not_or]
  exact ⟨named.not_mem isNameLetter_slash, bracket⟩

theorem isBound_of_bracket_not_mem (none : ']' ∉ step.letters) : step.multiplicity = .unbound := by
  rw [letters, List.mem_append, not_or] at none
  cases bound : step.multiplicity with
  | unbound => rfl
  | template => simp [bound] at none
  | index position => simp [bound] at none

theorem isDots_of_letters (dots : step.letters = ['.'] ∨ step.letters = ['.', '.']) :
    step.IsDots := by
  -- Anything but dots would end in a bracket.
  have bare : step.multiplicity = .unbound := by
    apply isBound_of_bracket_not_mem
    rcases dots with dots | dots <;> simp [dots]
  obtain ⟨name, multiplicity⟩ := step
  subst bare
  simp only [letters, letters_unbound, List.append_nil] at dots
  rcases dots with dots | dots
  · exact .inl (congrArg unbound (String.toList_inj.mp dots))
  · exact .inr (congrArg unbound (String.toList_inj.mp dots))

theorem readMultiplicity_index {position : Nat} (fits : position < UInt64.size) :
    readMultiplicity (Number.digits position) = .ok (.index position) := by
  have other : Number.digits position ≠ "@template".toList := by
    intro same
    have sign : '@' ∈ Number.digits position := by simp [same]
    exact not_mem_digits rfl position sign
  rw [readMultiplicity, if_neg other, Number.readPosition?_digits fits]

theorem read_letters (named : step.IsNamed) : read step.letters = .ok step := by
  have plain : ∀ letter ∈ step.name.toList, (letter != '[') = true := fun letter member =>
    bne_iff_ne.mpr fun same => named.not_mem isNameLetter_bracket (same ▸ member)
  have name := named.name
  have position := named.position
  obtain ⟨written, multiplicity⟩ := step
  dsimp only at plain name position
  rw [read, letters, List.takeWhile_append_of_pos plain, List.dropWhile_append_of_pos plain]
  cases multiplicity with
  | unbound => simp [name, pure, Except.pure, bind, Except.bind]
  | template => simp [readMultiplicity, name, bind, Except.bind]
  | index place => simp [readMultiplicity_index (position place rfl), name, bind, Except.bind]

theorem lt_of_readPosition? {written : List Char} {position : Nat}
    (found : Number.readPosition? written = some position) : position < UInt64.size := by
  rw [Number.readPosition?.eq_def] at found
  split at found <;>
  · rcases Option.bind_eq_some_iff.mp found with ⟨value, -, fits⟩
    dsimp only at fits
    split at fits
    next within => exact Option.some.inj fits ▸ within
    next => cases fits

theorem readMultiplicity_ok {inner : List Char} {multiplicity : Multiplicity}
    (found : readMultiplicity inner = .ok multiplicity) :
    multiplicity ≠ .unbound ∧
      ∀ position, multiplicity = .index position → position < UInt64.size := by
  rw [readMultiplicity] at found
  split at found
  · cases found
    simp
  · split at found
    next position read =>
      cases found
      exact ⟨by simp, fun other same => Multiplicity.index.inj same ▸ lt_of_readPosition? read⟩
    next => cases found

theorem read_ok {segment : List Char} (found : read segment = .ok step) :
    step.IsNamed ∧ (step.multiplicity = .unbound → segment = step.name.toList) := by
  have named : ∀ {multiplicity : Multiplicity} {next : Step},
      (if isName (segment.takeWhile (· != '[')) = true then
        .ok ⟨String.ofList (segment.takeWhile (· != '[')), multiplicity⟩
      else .error (.badName (String.ofList (segment.takeWhile (· != '['))))) =
          (.ok next : Except Reference.Flaw Step) →
        isName next.name.toList = true ∧ next.multiplicity = multiplicity ∧
          next.name.toList = segment.takeWhile (· != '[') := by
    intro multiplicity next read
    split at read
    next name =>
      cases read
      rw [String.toList_ofList]
      exact ⟨name, rfl, rfl⟩
    next => cases read
  rw [read] at found
  dsimp only at found
  split at found
  next whole =>
    rw [pure_bind] at found
    rcases named found with ⟨name, same, letters⟩
    refine ⟨⟨name, by simp [same]⟩, fun _ => ?_⟩
    rw [letters, ← List.append_nil (segment.takeWhile _), ← whole, List.takeWhile_append_dropWhile]
  next inner =>
    split at found
    next =>
      rcases bind_eq_ok.mp found with ⟨multiplicity, bracket, found⟩
      rcases named found with ⟨name, same, letters⟩
      have bound := readMultiplicity_ok bracket
      exact ⟨⟨name, same ▸ bound.2⟩, fun unbound => absurd unbound (same ▸ bound.1)⟩
    next => cases found

end Named

end Step

/-! Paths. -/

namespace Reference

theorem joinSegments_cons (segment : List Char) {rest : List (List Char)} (more : rest ≠ []) :
    joinSegments (segment :: rest) = segment ++ '/' :: joinSegments rest := by
  cases rest with
  | nil => exact absurd rfl more
  | cons next rest => rfl

theorem splitSegments_append {segment : List Char} (whole : '/' ∉ segment) (rest : List Char) :
    splitSegments (segment ++ '/' :: rest) = segment :: splitSegments rest := by
  induction segment with
  | nil => rfl
  | cons first segment induction =>
      rw [List.mem_cons, not_or] at whole
      rw [List.cons_append, splitSegments, if_neg fun same => whole.1 same.symm,
        induction whole.2]

theorem splitSegments_eq_singleton {segment : List Char} (whole : '/' ∉ segment) :
    splitSegments segment = [segment] := by
  induction segment with
  | nil => rfl
  | cons first segment induction =>
      rw [List.mem_cons, not_or] at whole
      rw [splitSegments, if_neg fun same => whole.1 same.symm, induction whole.2]

theorem splitSegments_joinSegments {segments : List (List Char)} (some : segments ≠ [])
    (whole : ∀ segment ∈ segments, '/' ∉ segment) :
    splitSegments (joinSegments segments) = segments := by
  induction segments with
  | nil => exact absurd rfl some
  | cons segment rest induction =>
      rw [List.forall_mem_cons] at whole
      cases rest with
      | nil => exact splitSegments_eq_singleton whole.1
      | cons next rest =>
          rw [joinSegments_cons _ (List.cons_ne_nil _ _), splitSegments_append whole.1,
            induction (List.cons_ne_nil _ _) whole.2]

def IsNamed (reference : Reference) : Prop :=
  ∀ step ∈ reference.steps, step.IsNamed

/-- What is written for the reference says what it means: a path from the root has a step, and
no step is written as dots. -/
structure IsLegible (reference : Reference) : Prop where
  rooted : reference.isAbsolute = true → reference.steps ≠ []
  noDots : ∀ step ∈ reference.steps, ¬step.IsDots

theorem isLegible_iff {reference : Reference} : reference.IsLegible ↔
    (reference.isAbsolute = true → reference.steps ≠ []) ∧
      ∀ step ∈ reference.steps, ¬step.IsDots :=
  ⟨fun legible => ⟨legible.rooted, legible.noDots⟩, fun ⟨rooted, noDots⟩ => ⟨rooted, noDots⟩⟩

instance (reference : Reference) : Decidable reference.IsLegible :=
  decidable_of_iff _ isLegible_iff.symm

def IsParsed (reference : Reference) : Prop :=
  ∃ written, parse written = .ok reference

/-! What is read. -/

section Reading

variable {soFar reference : Reference} {segments : List (List Char)}

/-- Pieces that are read add steps that some text has, one for every piece of a path from the
root, and none of dots. -/
theorem readSegments_ok (found : readSegments soFar segments = .ok reference) :
    reference.isAbsolute = soFar.isAbsolute ∧ ∃ more, reference.steps = soFar.steps ++ more ∧
      (soFar.isAbsolute = true → more.length = segments.length) ∧
      ∀ step ∈ more, step.IsNamed ∧ ¬step.IsDots := by
  fun_induction readSegments with
  | case1 soFar =>
      cases found
      exact ⟨rfl, [], (List.append_nil _).symm, fun _ => rfl, List.forall_mem_nil _⟩
  | case2 => cases found
  | case3 => cases found
  | case4 soFar rest climbs induction =>
      rcases induction found with ⟨same, more, steps, -, each⟩
      refine ⟨same, more, steps, fun isAbsolute => ?_, each⟩
      simp [isAbsolute] at climbs
  | case5 soFar rest climb empty climbs induction =>
      rcases induction found with ⟨same, more, steps, -, each⟩
      have relative : soFar.isAbsolute = false := by
        rw [isAbsolute, climbs]
        rfl
      refine ⟨same.trans relative.symm, more, ?_, fun isAbsolute => ?_, each⟩
      · rw [empty]
        exact steps
      · rw [relative] at isAbsolute
        cases isAbsolute
  | case6 => cases found
  | case7 soFar segment rest some dot dots induction =>
      rcases bind_eq_ok.mp found with ⟨step, read, found⟩
      rcases induction step found with ⟨same, more, steps, count, each⟩
      rcases Step.read_ok read with ⟨named, bare⟩
      refine ⟨same, step :: more, ?_, fun isAbsolute => ?_, ?_⟩
      · rw [steps, List.append_assoc]
        rfl
      · rw [List.length_cons, List.length_cons, count isAbsolute]
      · refine List.forall_mem_cons.mpr ⟨⟨named, fun isDots => ?_⟩, each⟩
        rcases isDots with rfl | rfl
        · exact dot (bare rfl)
        · exact dots (bare rfl)

theorem splitSegments_ne_nil (letters : List Char) : splitSegments letters ≠ [] := by
  cases letters with
  | nil => exact List.cons_ne_nil _ _
  | cons letter rest =>
      rw [splitSegments]
      split
      · exact List.cons_ne_nil _ _
      · split <;> exact List.cons_ne_nil _ _

theorem readLetters_ok {letters : List Char} (found : readLetters letters = .ok reference) :
    reference.IsNamed ∧ reference.IsLegible := by
  rw [readLetters.eq_def] at found
  split at found
  next => cases found
  next => cases found
  next rest _ =>
    rcases readSegments_ok found with ⟨isAbsolute, more, steps, count, each⟩
    have steps : reference.steps = more := steps
    refine ⟨fun step member => (each step (steps ▸ member)).1, fun _ empty => ?_,
      fun step member => (each step (steps ▸ member)).2⟩
    have length := count rfl
    rw [← steps, empty] at length
    exact splitSegments_ne_nil rest (List.length_eq_zero_iff.mp length.symm)
  next =>
    rcases readSegments_ok found with ⟨isRelative, more, steps, -, each⟩
    have steps : reference.steps = more := steps
    refine ⟨fun step member => (each step (steps ▸ member)).1, fun isAbsolute => ?_,
      fun step member => (each step (steps ▸ member)).2⟩
    rw [isRelative] at isAbsolute
    cases isAbsolute

theorem IsParsed.isNamed_isLegible (parsed : reference.IsParsed) :
    reference.IsNamed ∧ reference.IsLegible := by
  rcases parsed with ⟨written, found⟩
  rw [parse, read] at found
  cases read : readLetters (Text.trimLetters written.toList) with
  | error flaw => simp [read, Except.mapError] at found
  | ok reference =>
      rw [read] at found
      cases found
      exact readLetters_ok read

end Reading

/-! What is written. -/

section Writing

variable {reference soFar : Reference} {steps : List Step} {step : Step}

theorem readSegments_cons_letters (named : step.IsNamed) (noDots : ¬step.IsDots)
    (rest : List (List Char)) : readSegments soFar (step.letters :: rest) =
      readSegments { soFar with steps := soFar.steps ++ [step] } rest := by
  rw [readSegments.eq_def]
  dsimp only
  split
  -- A piece has a meaning of its own only if it is empty or dots.
  next empty => exact absurd empty named.letters_ne_nil
  next dot => exact absurd (Step.isDots_of_letters (.inl dot)) noDots
  next dots => exact absurd (Step.isDots_of_letters (.inr dots)) noDots
  next =>
    rw [Step.read_letters named]
    rfl

theorem readSegments_letters (named : ∀ step ∈ steps, step.IsNamed)
    (noDots : ∀ step ∈ steps, ¬step.IsDots) : readSegments soFar (steps.map Step.letters) =
      .ok { soFar with steps := soFar.steps ++ steps } := by
  induction steps generalizing soFar with
  | nil =>
      rw [List.append_nil]
      rfl
  | cons step steps induction =>
      rw [List.forall_mem_cons] at named noDots
      rw [List.map_cons, readSegments_cons_letters named.1 noDots.1, induction named.2 noDots.2,
        List.append_assoc, List.singleton_append]

theorem readSegments_replicate (climb more : Nat) (rest : List (List Char)) :
    readSegments (relative climb []) (List.replicate more ['.', '.'] ++ rest) =
      readSegments (relative (climb + more) []) rest := by
  induction more generalizing climb with
  | zero => rfl
  | succ more induction =>
      rw [List.replicate_succ, List.cons_append]
      exact (induction (climb + 1)).trans (by rw [Nat.add_right_comm, Nat.add_assoc])

theorem readSegments_dots (isAbsolute : soFar.isAbsolute = true)
    (named : ∀ step ∈ steps, step.IsNamed) (dots : ∃ step ∈ steps, step.IsDots) :
    ∃ flaw, readSegments soFar (steps.map Step.letters) = .error flaw := by
  induction steps generalizing soFar with
  | nil =>
      rcases dots with ⟨step, member, -⟩
      cases member
  | cons step steps induction =>
      rw [List.forall_mem_cons] at named
      by_cases here : step.IsDots
      · rcases here with rfl | rfl
        · exact ⟨.lateDot, by
            rw [List.map_cons]
            simp [Step.letters, Step.unbound, readSegments, isAbsolute]⟩
        · refine ⟨.lateClimb, ?_⟩
          have origin : soFar.origin = .absolute := by simpa [Reference.isAbsolute] using isAbsolute
          rw [List.map_cons]
          simp [Step.letters, Step.unbound, readSegments, origin]
      · rw [List.map_cons, readSegments_cons_letters named.1 here]
        refine induction isAbsolute named.2 ?_
        simpa [here] using dots

/-! Pieces between slashes have something in them, and no slash. -/

section Pieces

variable {segments : List (List Char)} (some : segments ≠ [])
  (pieces : ∀ segment ∈ segments, segment ≠ [] ∧ '/' ∉ segment)

include some pieces

theorem splitSegments_pieces : splitSegments (joinSegments segments) = segments :=
  splitSegments_joinSegments some fun segment member => (pieces segment member).2

theorem joinSegments_ne_nil : joinSegments segments ≠ [] := by
  intro empty
  have split := splitSegments_pieces some pieces
  rw [empty] at split
  exact (pieces [] (split ▸ List.mem_cons_self)).1 rfl

theorem joinSegments_ne_slash (rest : List Char) : joinSegments segments ≠ '/' :: rest := by
  intro slash
  have split := splitSegments_pieces some pieces
  rw [slash] at split
  exact (pieces [] (split ▸ List.mem_cons_self)).1 rfl

theorem readLetters_slash :
    readLetters ('/' :: joinSegments segments) = readSegments (absolute []) segments := by
  rw [readLetters.eq_def]
  split
  next empty => cases empty
  next alone => exact absurd (List.cons.inj alone).2 (joinSegments_ne_nil some pieces)
  next rest _ same =>
    rw [← (List.cons.inj same).2, splitSegments_pieces some pieces]
  next other => exact absurd rfl (other _)

theorem readLetters_joinSegments :
    readLetters (joinSegments segments) = readSegments (relative 0 []) segments := by
  rw [readLetters.eq_def]
  split
  next empty => exact absurd empty (joinSegments_ne_nil some pieces)
  next slash => exact absurd slash (joinSegments_ne_slash some pieces [])
  next rest _ slash => exact absurd slash (joinSegments_ne_slash some pieces rest)
  next => rw [splitSegments_pieces some pieces]

end Pieces

theorem pieces_letters (named : ∀ step ∈ steps, step.IsNamed) :
    ∀ segment ∈ steps.map Step.letters, segment ≠ [] ∧ '/' ∉ segment := by
  intro segment member
  rcases List.mem_map.mp member with ⟨step, isStep, rfl⟩
  exact ⟨(named step isStep).letters_ne_nil, (named step isStep).slash_not_mem_letters⟩

theorem letters_absolute (some : steps ≠ []) :
    (absolute steps).letters = '/' :: joinSegments (steps.map Step.letters) := by
  induction steps with
  | nil => exact absurd rfl some
  | cons step steps induction =>
      cases steps with
      | nil => simp [letters, absolute, joinSegments]
      | cons next steps =>
          have rest := induction (List.cons_ne_nil _ _)
          rw [List.map_cons, joinSegments_cons _ (by simp), ← rest]
          rfl

theorem readLetters_absolute (named : ∀ step ∈ steps, step.IsNamed) (some : steps ≠ []) :
    readLetters (absolute steps).letters =
      readSegments (absolute []) (steps.map Step.letters) := by
  rw [letters_absolute some]
  exact readLetters_slash (by simpa using some) (pieces_letters named)

theorem readLetters_relative (named : ∀ step ∈ steps, step.IsNamed) (climb : Nat) :
    readLetters (relative climb steps).letters =
      readSegments (relative climb []) (steps.map Step.letters) := by
  have pieces : ∀ segment ∈ List.replicate climb ['.', '.'] ++ steps.map Step.letters,
      segment ≠ [] ∧ '/' ∉ segment := by
    intro segment member
    rcases List.mem_append.mp member with dots | isStep
    · rw [List.eq_of_mem_replicate dots]
      decide
    · exact pieces_letters named segment isStep
  have read := readSegments_replicate 0 climb (steps.map Step.letters)
  rw [Nat.zero_add] at read
  rw [← read, letters.eq_def, relative]
  dsimp only
  split
  next empty =>
    rw [empty]
    rfl
  next some =>
    exact readLetters_joinSegments (fun empty => some empty) pieces

theorem isSolid_joinSegments {segments : List (List Char)}
    (solid : ∀ segment ∈ segments, Text.IsSolid segment) :
    Text.IsSolid (joinSegments segments) := by
  induction segments with
  | nil => exact Text.isSolid_nil
  | cons segment rest induction =>
      rw [List.forall_mem_cons] at solid
      cases rest with
      | nil => exact solid.1
      | cons next rest =>
          rw [joinSegments_cons _ (List.cons_ne_nil _ _), Text.isSolid_append, Text.isSolid_cons]
          exact ⟨solid.1, by decide, induction solid.2⟩

theorem isSolid_letters (named : reference.IsNamed) : Text.IsSolid reference.letters := by
  have solid : ∀ segment ∈ reference.steps.map Step.letters, Text.IsSolid segment := by
    intro segment member
    rcases List.mem_map.mp member with ⟨step, isStep, rfl⟩
    exact (named step isStep).isSolid_letters
  rw [letters.eq_def]
  split
  next =>
    intro letter member
    rcases List.mem_flatMap.mp member with ⟨step, isStep, inStep⟩
    rcases List.mem_cons.mp inStep with rfl | inStep
    · decide
    · exact (named step isStep).isSolid_letters letter inStep
  next climb =>
    split
    next => simp [Text.isBlank]
    next =>
      refine isSolid_joinSegments fun segment member => ?_
      rcases List.mem_append.mp member with dots | isStep
      · rw [List.eq_of_mem_replicate dots]
        simp [Text.isBlank]
      · exact solid segment isStep

theorem parse_text_eq (named : reference.IsNamed) : parse reference.text =
    (readLetters reference.letters).mapError (.malformed reference.text) := by
  rw [parse, read, text, String.toList_ofList, Text.trimLetters_eq_self (isSolid_letters named)]

theorem parse_text (named : reference.IsNamed) (legible : reference.IsLegible) :
    parse reference.text = .ok reference := by
  have steps : ∀ soFar : Reference, readSegments soFar (reference.steps.map Step.letters) =
      .ok { soFar with steps := soFar.steps ++ reference.steps } :=
    fun soFar => readSegments_letters named legible.noDots
  rw [parse_text_eq named]
  obtain ⟨origin, path⟩ := reference
  cases origin with
  | absolute =>
      have read := readLetters_absolute named (legible.rooted rfl)
      rw [steps (absolute [])] at read
      exact congrArg (Except.mapError _) read
  | relative climb =>
      have read := readLetters_relative named climb
      rw [steps (relative climb [])] at read
      exact congrArg (Except.mapError _) read

theorem parse_text_of_not_isLegible (named : reference.IsNamed)
    (isAbsolute : reference.isAbsolute = true) (illegible : ¬reference.IsLegible) :
    ∃ error, parse reference.text = .error error := by
  have refused : ∃ flaw, readLetters reference.letters = .error flaw := by
    obtain ⟨origin, path⟩ := reference
    have root : origin = .absolute := by simpa [Reference.isAbsolute] using isAbsolute
    subst root
    by_cases empty : path = []
    · exact ⟨.empty, by rw [empty]; rfl⟩
    · have dots : ∃ step ∈ path, step.IsDots := by
        by_contra none
        exact illegible ⟨fun _ => empty, fun step member isDots => none ⟨step, member, isDots⟩⟩
      rcases @readSegments_dots (absolute []) path rfl named dots with ⟨flaw, refused⟩
      exact ⟨flaw, (readLetters_absolute named empty).trans refused⟩
  rcases refused with ⟨flaw, refused⟩
  exact ⟨.malformed reference.text flaw, by rw [parse_text_eq named, refused]; rfl⟩

theorem isParsed_iff : reference.IsParsed ↔ reference.IsNamed ∧ reference.IsLegible :=
  ⟨IsParsed.isNamed_isLegible, fun ⟨named, legible⟩ => ⟨_, parse_text named legible⟩⟩

end Writing

/-! What becomes of a reference when a rule is bound. -/

theorem anchor_isNamed {reference context anchored : Reference} (named : reference.IsNamed)
    (contextNamed : context.IsNamed) (found : reference.anchor context = .ok anchored) :
    anchored.IsNamed := by
  rw [anchor] at found
  split at found
  · split at found
    · cases found
    · split at found
      · cases found
      · cases found
        intro step member
        rcases List.mem_append.mp member with taken | own
        · exact contextNamed step (List.mem_of_mem_take taken)
        · exact named step own
  · cases found
    intro step member
    dsimp only [absolute] at member
    split at member
    · exact (mem_anchorSteps member).elim (named step) (contextNamed step)
    · exact named step member

theorem genericize_isNamed {reference : Reference} (named : reference.IsNamed) :
    reference.genericize.IsNamed := by
  intro step member
  rcases List.mem_map.mp member with ⟨own, isStep, rfl⟩
  exact ⟨(named own isStep).name, fun position bound => by cases bound⟩

/-! References in documents. -/

theorem ofJson?_toJson {reference : Reference} (parsed : reference.IsParsed) :
    ofJson? reference.toJson = some reference := by
  rcases parsed.isNamed_isLegible with ⟨named, legible⟩
  rw [toJson, ofJson?, Json.text?, Option.bind_some, parse_text named legible]
  rfl

theorem ofJson?_toJson_of_not_isLegible {reference : Reference} (named : reference.IsNamed)
    (isAbsolute : reference.isAbsolute = true) (illegible : ¬reference.IsLegible) :
    ofJson? reference.toJson = none := by
  rcases parse_text_of_not_isLegible named isAbsolute illegible with ⟨error, refused⟩
  rw [toJson, ofJson?, Json.text?, Option.bind_some, refused]
  rfl

end Reference

end ReactiveForm
