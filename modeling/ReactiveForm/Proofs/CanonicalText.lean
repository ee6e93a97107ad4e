import ReactiveForm.Proofs.Paths
import ReactiveForm.Proofs.Typing

/-! Canonical texts. Many texts are read as one answer or as one path. The text that is shown
for it is one of them, so that whatever was read is read again from there. The paths that are
read are those whose names are names and whose steps do not look like dots. -/

namespace ReactiveForm

/-! Answers. -/

namespace Value

theorem eq_type_or_text_of_read {type : ValueType} {written : String} {value : Value}
    (found : read type written = .ok value) :
    type = value.type ∨ type = .unspecified ∧ value = .text written := by
  rw [read] at found
  split at found
  next result read =>
    cases found
    by_cases typed : type = .unspecified
    · subst typed
      cases read
      exact .inr ⟨rfl, rfl⟩
    · exact .inl (type_of_read? read typed).symm
  next => cases found

/-- Every answer but a decimal is read from the text that is shown for it: for its own type,
and for any type for which a text was read as that answer. -/
theorem read_display_canonical {value : Value} (noDecimal : value.type ≠ .decimal) :
    read value.type value.display = .ok value ∧
    ∀ type written, read type written = .ok value → read type value.display = .ok value := by
  have again := read_display noDecimal
  refine ⟨again, fun type written found => ?_⟩
  rcases eq_type_or_text_of_read found with rfl | ⟨rfl, rfl⟩
  · exact again
  · rfl

/-- A leap second long before the year one, with more places than are kept. -/
theorem moment_read_display : ∃ value,
    read .dateTime " -44-3-15T 23:59:60.0000000019 " = .ok value ∧
    value.display = "-0044-03-15T23:59:60.000000001" ∧ value.type = .dateTime ∧
    read .dateTime "-0044-03-15T23:59:60.000000001" = .ok value := by
  have ready : (read .dateTime " -44-3-15T 23:59:60.0000000019 ").toOption.any (fun value =>
      decide (value.display = "-0044-03-15T23:59:60.000000001" ∧ value.type = .dateTime)) =
        true := by
    decide +kernel
  rcases exists_ok_of_any ready with ⟨value, found, ready⟩
  rcases of_decide_eq_true ready with ⟨shown, type⟩
  have noDecimal : value.type ≠ .decimal := by
    rw [type]
    decide
  have again := (read_display_canonical noDecimal).2 _ _ found
  rw [shown] at again
  exact ⟨value, found, shown, type, again⟩

end Value

/-! Paths. -/

def Origin.climb : Origin → Nat
  | .absolute => 0
  | .relative climb => climb

theorem Text.length_trimLetters_le (letters : List Char) :
    (trimLetters letters).length ≤ letters.length := by
  rw [trimLetters, List.length_reverse]
  calc (trimFront (trimFront letters).reverse).length
    _ ≤ (trimFront letters).reverse.length := (List.dropWhile_suffix _).length_le
    _ = (trimFront letters).length := List.length_reverse
    _ ≤ letters.length := (List.dropWhile_suffix _).length_le

namespace Reference

variable {reference soFar : Reference} {segments : List (List Char)}

theorem flatten_splitSegments (letters : List Char) :
    (splitSegments letters).flatten = letters.filter (· ≠ '/') := by
  induction letters with
  | nil => rfl
  | cons letter rest induction =>
      rw [splitSegments]
      split
      next slash =>
        rw [List.filter_cons_of_neg (by simpa using slash), ← induction]
        rfl
      next other =>
        rw [List.filter_cons_of_pos (by simpa using other), ← induction]
        split
        next none => exact absurd none (splitSegments_ne_nil rest)
        next segment segments split =>
          rw [split]
          rfl

/-- A path climbs no more levels than there are letters to say so. -/
theorem climb_le_of_readSegments (found : readSegments soFar segments = .ok reference) :
    reference.origin.climb ≤ soFar.origin.climb + segments.flatten.length := by
  fun_induction readSegments with
  | case1 soFar =>
      cases found
      exact Nat.le_add_right _ _
  | case2 => cases found
  | case3 => cases found
  | case4 soFar rest climbs induction =>
      have bound := induction found
      simp only [List.flatten_cons, List.length_append]
      omega
  | case5 soFar rest climb empty climbs induction =>
      have bound : reference.origin.climb ≤ climb + 1 + rest.flatten.length := induction found
      rw [climbs, Origin.climb]
      simp only [List.flatten_cons, List.length_append, List.length_cons, List.length_nil]
      omega
  | case6 => cases found
  | case7 soFar segment rest some dot dots induction =>
      rcases bind_eq_ok.mp found with ⟨step, read, found⟩
      have bound := induction step found
      simp only [List.flatten_cons, List.length_append] at bound ⊢
      omega

theorem climb_le_of_readLetters {letters : List Char}
    (found : readLetters letters = .ok reference) :
    reference.origin.climb ≤ letters.length := by
  have pieces (letters : List Char) : (splitSegments letters).flatten.length ≤ letters.length := by
    rw [flatten_splitSegments]
    exact List.length_filter_le _ _
  rw [readLetters.eq_def] at found
  split at found
  next => cases found
  next => cases found
  next rest _ =>
    have bound : reference.origin.climb ≤ 0 + _ := climb_le_of_readSegments found
    have fewer := pieces rest
    rw [List.length_cons]
    omega
  next =>
    have bound : reference.origin.climb ≤ 0 + _ := climb_le_of_readSegments found
    have fewer := pieces letters
    omega

theorem climb_le_of_parse {written : String} (found : parse written = .ok reference) :
    reference.origin.climb ≤ written.length := by
  have bound := climb_le_of_readLetters (mapError_eq_ok.mp found)
  have fewer := Text.length_trimLetters_le written.toList
  rw [String.length_toList] at fewer
  exact Nat.le_trans bound fewer

/-- A path is read from the text that is written for it if and only if its names are names, its
positions fit in 64 bits, it has a step if it begins at the root, and no step of it is written
as dots. Whatever is read is such a path, climbs no further than its text is long, and is read
again from the text that is written for it. -/
theorem parse_text_canonical (reference : Reference) (written : String) :
    (reference.IsNamed ∧ reference.IsLegible ↔ parse reference.text = .ok reference) ∧
    (parse written = .ok reference →
      reference.IsNamed ∧ reference.IsLegible ∧ reference.origin.climb ≤ written.length) ∧
    ((parse written).bind fun found => parse found.text) = parse written := by
  have sound {reference : Reference} {written : String} (found : parse written = .ok reference) :
      reference.IsNamed ∧ reference.IsLegible :=
    IsParsed.isNamed_isLegible ⟨written, found⟩
  refine ⟨⟨fun ⟨named, legible⟩ => parse_text named legible, sound⟩, fun found => ?_, ?_⟩
  · rcases sound found with ⟨named, legible⟩
    exact ⟨named, legible, climb_le_of_parse found⟩
  · cases found : parse written with
    | error _ => rfl
    | ok reference =>
        rcases sound found with ⟨named, legible⟩
        exact parse_text named legible

/-- The age of the second house above, in a text that says so in a longer way. -/
theorem house_parse_text :
    let age := relative 1 [⟨"house", .index 1⟩, .unbound "age"]
    parse " ./../house[+01]/age " = .ok age ∧ age.text = "../house[1]/age" ∧
    parse "../house[1]/age" = .ok age := by
  intro age
  have found : parse " ./../house[+01]/age " = .ok age := by decide +kernel
  have shown : age.text = "../house[1]/age" := by decide +kernel
  rcases (parse_text_canonical age " ./../house[+01]/age ").2.1 found with ⟨named, legible, -⟩
  have again := (parse_text_canonical age "").1.mp ⟨named, legible⟩
  rw [shown] at again
  exact ⟨found, shown, again⟩

end Reference

end ReactiveForm
