import Mathlib.Data.List.DropRight
import ReactiveForm.Proofs.Characters
import ReactiveForm.Proofs.Numerals

/-! Documents as bytes. What is written for a document is read back, down to the depth at which
containers can be used. -/

namespace ReactiveForm.Json

/-! Containers. -/

section Containers

variable {fuel remaining : Nat} {input left : Input}

theorem readValue?_skipGaps :
    readValue? fuel remaining (skipGaps input) = readValue? fuel remaining input := by
  have again : skipGaps (skipGaps input) = skipGaps input := List.dropWhile_idempotent _ _
  cases fuel with
  | zero => rfl
  | succ fuel =>
      rw [readValue?.eq_def, readValue?.eq_def]
      dsimp only
      rw [again]

theorem readItems?_skipGaps :
    readItems? fuel remaining (skipGaps input) = readItems? fuel remaining input := by
  cases fuel with
  | zero => rfl
  | succ fuel => rw [readItems?, readItems?, readValue?_skipGaps]

theorem readItems?_of_bracket {more : Input} (bracket : skipGaps input = some ']' :: more) :
    readItems? fuel remaining input = none := by
  have none : ∀ fuel, readValue? fuel remaining input = none := by
    intro fuel
    cases fuel with
    | zero => rfl
    | succ fuel =>
        rw [readValue?.eq_def]
        dsimp only
        rw [bracket]
        rfl
  cases fuel with
  | zero => rfl
  | succ fuel =>
      rw [readItems?, none]
      rfl

theorem readValue?_items {items : List Json}
    (read : readItems? fuel (remaining - 1) input = some (items, left)) :
    readValue? (fuel + 1) remaining (some '[' :: input) =
      some (withinDepth remaining (.array items), left) := by
  rw [readValue?.eq_def]
  dsimp only
  rw [skipGaps_of_not_isGap rfl]
  split
  next same => cases same
  next same => cases same
  next same => cases same
  next same => cases same
  next same =>
    cases same
    split
    next bracket =>
      rw [readItems?_of_bracket bracket] at read
      cases read
    next =>
      rw [readItems?_skipGaps, read]
      rfl
  next same => cases same
  next same => cases same
  next noArray _ _ => exact absurd rfl (noArray input)

theorem readValue?_members {members : List (String × Json)}
    (read : readMembers? fuel (remaining - 1) (some '"' :: input) = some (some members, left)) :
    readValue? (fuel + 1) remaining (some '{' :: some '"' :: input) =
      some (withinDepth remaining (.object members), left) := by
  have opened : readValue? (fuel + 1) remaining (some '{' :: some '"' :: input) =
      (readMembers? fuel (remaining - 1) (some '"' :: input)).bind fun read =>
        some (withinDepth remaining ((read.1.map Json.object).getD .unusable), read.2) := rfl
  rw [opened, read]
  rfl

theorem toList_enclose (level : Nat) (opening closing : Char) (items : List String) :
    (Setting.compact.enclose level opening closing items).toList =
      opening :: ([','].intercalate (items.map String.toList) ++ [closing]) := by
  rw [Setting.enclose]
  split
  next empty =>
    rw [List.isEmpty_iff.mp empty, String.toList_ofList]
    rfl
  next =>
    simp [Setting.compact, String.toList_append, String.toList_intercalate]

end Containers

/-! Whole documents. -/

mutual

def IsExact : Json → Prop
  | .integer value => FitsInteger value
  | .decimal number => ReadsBack number
  | .array items => AreExact items
  | .object members => MembersAreExact members
  | .unusable => False
  | .null | .boolean _ | .text _ => True

def AreExact : List Json → Prop
  | [] => True
  | item :: rest => item.IsExact ∧ AreExact rest

def MembersAreExact : List (String × Json) → Prop
  | [] => True
  | (_, value) :: rest => value.IsExact ∧ MembersAreExact rest

end

mutual

/-- The document as far as its containers can be used when so many more may lie around what is
usable. -/
def within (remaining : Nat) : Json → Json
  | .array items => withinDepth remaining (.array (itemsWithin (remaining - 1) items))
  | .object members => withinDepth remaining (.object (membersWithin (remaining - 1) members))
  | document => document

def itemsWithin (remaining : Nat) : List Json → List Json
  | [] => []
  | item :: rest => item.within remaining :: itemsWithin remaining rest

def membersWithin (remaining : Nat) : List (String × Json) → List (String × Json)
  | [] => []
  | (name, value) :: rest => (name, value.within remaining) :: membersWithin remaining rest

end

def itemLetters (level : Nat) (items : List Json) : List Char :=
  [','].intercalate ((writeItems .compact level items).map String.toList)

def memberLetters (level : Nat) (members : List (String × Json)) : List Char :=
  [','].intercalate ((writeMembers .compact level members).map String.toList)

theorem itemLetters_singleton (level : Nat) (item : Json) :
    itemLetters level [item] = (write .compact level item).toList := by
  simp [itemLetters, writeItems]

theorem itemLetters_cons (level : Nat) (item next : Json) (rest : List Json) :
    itemLetters level (item :: next :: rest) =
      (write .compact level item).toList ++ ',' :: itemLetters level (next :: rest) := by
  simp [itemLetters, writeItems, List.intercalate_cons_cons]

theorem memberLetters_singleton (level : Nat) (name : String) (value : Json) :
    memberLetters level [(name, value)] = '"' :: (name.toList.flatMap escapeLetter ++
      '"' :: ':' :: (write .compact level value).toList) := by
  simp [memberLetters, writeMembers, quote, Setting.compact]

theorem memberLetters_cons (level : Nat) (name : String) (value : Json) (next : String × Json)
    (rest : List (String × Json)) :
    memberLetters level ((name, value) :: next :: rest) =
      memberLetters level [(name, value)] ++ ',' :: memberLetters level (next :: rest) := by
  obtain ⟨name', value'⟩ := next
  simp [memberLetters, writeMembers, List.intercalate_cons_cons]

theorem memberLetters_eq_cons (level : Nat) (member : String × Json)
    (members : List (String × Json)) :
    ∃ letters, memberLetters level (member :: members) = '"' :: letters := by
  obtain ⟨name, value⟩ := member
  cases members with
  | nil => exact ⟨_, memberLetters_singleton level name value⟩
  | cons next members =>
      rw [memberLetters_cons, memberLetters_singleton]
      exact ⟨_, rfl⟩

section Writing

variable {fuel remaining level : Nat} {input rest : Input}

theorem readValue?_text (content : String) :
    readValue? (fuel + 1) remaining ((quote content).toList.map some ++ rest) =
      some (.text content, rest) := by
  have read := readText?_escaped content rest
  have opened : readValue? (fuel + 1) remaining (some '"' ::
      ((content.toList.flatMap escapeLetter).map some ++ some '"' :: rest)) =
        (readText? ((content.toList.flatMap escapeLetter).map some ++ some '"' :: rest)).map
          fun read => ((read.1.map Json.text).getD .unusable, read.2) := rfl
  rw [read] at opened
  simpa [quote] using opened

theorem readItems?_last {item : Json} {left : Input}
    (read : readValue? fuel remaining input = some (item, left))
    (next : skipGaps left = some ']' :: rest) :
    readItems? (fuel + 1) remaining input = some ([item], rest) := by
  rw [readItems?, read]
  simp only [Option.bind_eq_bind, Option.bind_some, next]

theorem readItems?_more {item : Json} {items : List Json} {left more : Input}
    (read : readValue? fuel remaining input = some (item, left))
    (next : skipGaps left = some ',' :: more)
    (others : readItems? fuel remaining more = some (items, rest)) :
    readItems? (fuel + 1) remaining input = some (item :: items, rest) := by
  rw [readItems?, read]
  simp only [Option.bind_eq_bind, Option.bind_some, next, others, Option.pure_def]

theorem skipGaps_colon : skipGaps (some ':' :: rest) = some ':' :: rest :=
  skipGaps_of_not_isGap rfl rest

theorem readMembers?_last {name : String} {value : Json} {left : Input}
    (read : readValue? fuel remaining input = some (value, left))
    (next : skipGaps left = some '}' :: rest) :
    readMembers? (fuel + 1) remaining (some '"' ::
      ((name.toList.flatMap escapeLetter).map some ++ some '"' :: some ':' :: input)) =
        some (some [(name, value)], rest) := by
  rw [readMembers?, skipGaps_of_not_isGap rfl]
  simp only [readText?_escaped, Option.bind_eq_bind, Option.bind_some,
    skipGaps_colon, read, next, Option.map_some]

theorem readMembers?_more {name : String} {value : Json} {members : List (String × Json)}
    {left more : Input} (read : readValue? fuel remaining input = some (value, left))
    (next : skipGaps left = some ',' :: more)
    (others : readMembers? fuel remaining more = some (some members, rest)) :
    readMembers? (fuel + 1) remaining (some '"' ::
      ((name.toList.flatMap escapeLetter).map some ++ some '"' :: some ':' :: input)) =
        some (some ((name, value) :: members), rest) := by
  rw [readMembers?, skipGaps_of_not_isGap rfl]
  simp only [readText?_escaped, Option.bind_eq_bind, Option.bind_some,
    skipGaps_colon, read, next, others, Option.map_some,
    Option.pure_def]

theorem readValue?_null : readValue? (fuel + 1) remaining
    ((write .compact level .null).toList.map some ++ rest) = some (.null, rest) := by
  have spelled : "null".toList = ['n', 'u', 'l', 'l'] := String.toList_ofList
  rw [write, spelled]
  rfl

theorem readValue?_boolean (truth : Bool) : readValue? (fuel + 1) remaining
    ((write .compact level (.boolean truth)).toList.map some ++ rest) =
      some (.boolean truth, rest) := by
  have spelledTrue : "true".toList = ['t', 'r', 'u', 'e'] := String.toList_ofList
  have spelledFalse : "false".toList = ['f', 'a', 'l', 's', 'e'] := String.toList_ofList
  cases truth with
  | true =>
      rw [write, spelledTrue]
      rfl
  | false =>
      rw [write, spelledFalse]
      rfl

theorem write_array (items : List Json) : (write .compact level (.array items)).toList =
    '[' :: (itemLetters (level + 1) items ++ [']']) := by
  rw [write, toList_enclose, itemLetters]

theorem write_object (members : List (String × Json)) :
    (write .compact level (.object members)).toList =
      '{' :: (memberLetters (level + 1) members ++ ['}']) := by
  rw [write, toList_enclose, memberLetters]

theorem readValue?_empty : readValue? (fuel + 1) remaining
    ((write .compact level (.array [])).toList.map some ++ rest) =
      some ((Json.array []).within remaining, rest) := by
  rw [write_array]
  rfl

theorem readValue?_memberless : readValue? (fuel + 1) remaining
    ((write .compact level (.object [])).toList.map some ++ rest) =
      some ((Json.object []).within remaining, rest) := by
  rw [write_object]
  rfl

end Writing

theorem endsNumeral_bracket (rest : Input) : EndsNumeral (some ']' :: rest) :=
  endsNumeral_cons rest (by decide)

theorem endsNumeral_brace (rest : Input) : EndsNumeral (some '}' :: rest) :=
  endsNumeral_cons rest (by decide)

theorem endsNumeral_comma (rest : Input) : EndsNumeral (some ',' :: rest) :=
  endsNumeral_cons rest (by decide)

mutual

/-- A document is read from what is written for it, whatever comes after it. -/
theorem readValue?_write : ∀ (document : Json) (fuel remaining level : Nat) (rest : Input),
    document.IsExact → EndsNumeral rest →
    (write .compact level document).toList.length ≤ fuel →
    ∃ left, readValue? (fuel + 1) remaining
        ((write .compact level document).toList.map some ++ rest) =
      some (document.within remaining, left) ∧ skipGaps left = skipGaps rest
  -- Letters pay for the fuel: an opening bracket for its list, every item for its own value. What
  -- is left is only determined up to gaps, since a decimal may be followed by some.
  | .null => fun _ _ _ rest _ _ _ => ⟨rest, readValue?_null, rfl⟩
  | .boolean truth => fun _ _ _ rest _ _ _ => ⟨rest, readValue?_boolean truth, rfl⟩
  | .integer value => by
      intro fuel remaining level rest exact ends enough
      rw [IsExact] at exact
      refine ⟨rest, ?_, rfl⟩
      rw [write, String.toList_ofList]
      exact readValue?_integer exact ends
  | .decimal number => by
      intro fuel remaining level rest exact ends enough
      rw [IsExact] at exact
      exact exact.readValue? ends
  | .text content => fun _ _ _ rest _ _ _ => ⟨rest, readValue?_text content, rfl⟩
  | .array [] => fun _ _ _ rest _ _ _ => ⟨rest, readValue?_empty, rfl⟩
  | .array (item :: items) => by
      intro fuel remaining level rest exact ends enough
      rw [IsExact] at exact
      rw [write_array] at enough ⊢
      have fits : (itemLetters (level + 1) (item :: items)).length + 2 ≤ fuel := by
        simp only [List.length_cons, List.length_append, List.length_nil] at enough
        omega
      obtain ⟨fuel, rfl⟩ := Nat.exists_eq_add_of_le' (Nat.le_trans (Nat.le_add_left 2 _) fits)
      have read := readItems?_write (item :: items) fuel (remaining - 1) (level + 1) rest
        (List.cons_ne_nil _ _) exact (Nat.le_of_add_le_add_right fits)
      refine ⟨rest, ?_, rfl⟩
      rw [List.map_cons, List.map_append, List.cons_append, List.append_assoc]
      exact readValue?_items read
  | .object [] => fun _ _ _ rest _ _ _ => ⟨rest, readValue?_memberless, rfl⟩
  | .object (member :: members) => by
      intro fuel remaining level rest exact ends enough
      rw [IsExact] at exact
      rw [write_object] at enough ⊢
      have fits : (memberLetters (level + 1) (member :: members)).length + 2 ≤ fuel := by
        simp only [List.length_cons, List.length_append, List.length_nil] at enough
        omega
      obtain ⟨fuel, rfl⟩ := Nat.exists_eq_add_of_le' (Nat.le_trans (Nat.le_add_left 2 _) fits)
      have read := readMembers?_write (member :: members) fuel (remaining - 1) (level + 1) rest
        (List.cons_ne_nil _ _) exact (Nat.le_of_add_le_add_right fits)
      refine ⟨rest, ?_, rfl⟩
      rcases memberLetters_eq_cons (level + 1) member members with ⟨letters, quoted⟩
      rw [quoted, List.map_cons] at read
      rw [quoted, List.map_cons, List.map_append, List.map_cons, List.cons_append,
        List.append_assoc]
      exact readValue?_members read
  | .unusable => by
      intro fuel remaining level rest exact ends enough
      rw [IsExact] at exact
      exact exact.elim

theorem readItems?_write : ∀ (items : List Json) (fuel remaining level : Nat) (rest : Input),
    items ≠ [] → AreExact items → (itemLetters level items).length ≤ fuel →
    readItems? (fuel + 2) remaining ((itemLetters level items).map some ++ some ']' :: rest) =
      some (itemsWithin remaining items, rest)
  | [] => fun _ _ _ _ none => absurd rfl none
  | [item] => by
      intro fuel remaining level rest _ exact enough
      rw [AreExact] at exact
      rw [itemLetters_singleton] at enough ⊢
      rcases readValue?_write item fuel remaining level _ exact.1 (endsNumeral_bracket rest) enough
        with ⟨left, read, next⟩
      exact readItems?_last read next
  | item :: next :: items => by
      intro fuel remaining level rest _ exact enough
      rw [AreExact] at exact
      rw [itemLetters_cons] at enough ⊢
      rw [List.length_append, List.length_cons] at enough
      rw [List.map_append, List.map_cons, List.append_assoc, List.cons_append]
      rcases readValue?_write item fuel remaining level _ exact.1 (endsNumeral_comma _) (by omega)
        with ⟨left, read, comma⟩
      obtain ⟨fuel, rfl⟩ := Nat.exists_eq_add_of_le' (show 1 ≤ fuel by omega)
      have read' := readItems?_write (next :: items) fuel remaining level rest
        (List.cons_ne_nil _ _) exact.2 (by omega)
      exact readItems?_more read comma read'

theorem readMembers?_write : ∀ (members : List (String × Json)) (fuel remaining level : Nat)
    (rest : Input), members ≠ [] → MembersAreExact members →
    (memberLetters level members).length ≤ fuel →
    readMembers? (fuel + 2) remaining
        ((memberLetters level members).map some ++ some '}' :: rest) =
      some (some (membersWithin remaining members), rest)
  | [] => fun _ _ _ _ none => absurd rfl none
  | [(name, value)] => by
      intro fuel remaining level rest _ exact enough
      rw [MembersAreExact] at exact
      have fits : (write .compact level value).toList.length ≤ fuel := by
        rw [memberLetters_singleton] at enough
        simp only [List.length_cons, List.length_append] at enough
        omega
      rcases readValue?_write value fuel remaining level _ exact.1 (endsNumeral_brace rest) fits
        with ⟨left, read, brace⟩
      rw [memberLetters_singleton]
      simp only [List.map_cons, List.map_append, List.cons_append, List.append_assoc]
      exact readMembers?_last read brace
  | (name, value) :: next :: members => by
      intro fuel remaining level rest _ exact enough
      rw [MembersAreExact] at exact
      rw [memberLetters_cons, List.length_append, List.length_cons] at enough
      have fits : (write .compact level value).toList.length ≤ fuel := by
        rw [memberLetters_singleton] at enough
        simp only [List.length_cons, List.length_append] at enough
        omega
      rcases readValue?_write value fuel remaining level _ exact.1 (endsNumeral_comma _) fits
        with ⟨left, read, comma⟩
      obtain ⟨fuel, rfl⟩ := Nat.exists_eq_add_of_le' (show 1 ≤ fuel by omega)
      have read' := readMembers?_write (next :: members) fuel remaining level rest
        (List.cons_ne_nil _ _) exact.2 (by omega)
      rw [memberLetters_cons, memberLetters_singleton]
      simp only [List.map_cons, List.map_append, List.cons_append, List.append_assoc]
      exact readMembers?_more read comma read'

end

theorem read_compact {document : Json} (exact : document.IsExact) :
    read? document.compact = some (document.within greatestDepth) := by
  have enough : document.compact.toList.length ≤ 2 * (document.compact.toList.map some).length := by
    rw [List.length_map]
    exact Nat.le_mul_of_pos_left _ (by decide)
  rcases readValue?_write document _ greatestDepth 0 [] exact endsNumeral_nil enough with
    ⟨left, read, complete⟩
  rw [List.append_nil] at read
  have value : readValue? (2 * (document.compact.toList.map some).length + 1) greatestDepth
      (document.compact.toList.map some) = some (document.within greatestDepth, left) := read
  rw [read?, readInput?, value]
  simp only [Option.bind_eq_bind, Option.bind_some, complete]
  rfl

theorem readBytes?_compact {document : Json} (exact : document.IsExact) :
    readBytes? (Text.Utf8.encode document.compact) = some (document.within greatestDepth) := by
  rw [readBytes?, Text.Utf8.pieces_encode]
  exact read_compact exact

/-! Depth. -/

theorem withinDepth_of_pos {remaining : Nat} (positive : 0 < remaining) (container : Json) :
    withinDepth remaining container = container :=
  if_neg (Nat.ne_of_gt positive)

mutual

theorem within_eq_self : ∀ (document : Json) (remaining : Nat), document.depth ≤ remaining →
    document.within remaining = document
  | .array items => by
      intro remaining shallow
      rw [depth] at shallow
      rw [within, withinDepth_of_pos (by omega),
        itemsWithin_eq_self items (remaining - 1) (by omega)]
  | .object members => by
      intro remaining shallow
      rw [depth] at shallow
      rw [within, withinDepth_of_pos (by omega),
        membersWithin_eq_self members (remaining - 1) (by omega)]
  | .null | .boolean _ | .integer _ | .decimal _ | .text _ | .unusable => fun _ _ => rfl

theorem itemsWithin_eq_self : ∀ (items : List Json) (remaining : Nat),
    depth.depthOfItems items ≤ remaining → itemsWithin remaining items = items
  | [] => fun _ _ => rfl
  | item :: items => by
      intro remaining shallow
      rw [depth.depthOfItems] at shallow
      rw [itemsWithin, within_eq_self item remaining (by omega),
        itemsWithin_eq_self items remaining (by omega)]

theorem membersWithin_eq_self : ∀ (members : List (String × Json)) (remaining : Nat),
    depth.depthOfMembers members ≤ remaining → membersWithin remaining members = members
  | [] => fun _ _ => rfl
  | (name, value) :: members => by
      intro remaining shallow
      rw [depth.depthOfMembers] at shallow
      rw [membersWithin, within_eq_self value remaining (by omega),
        membersWithin_eq_self members remaining (by omega)]

end

end ReactiveForm.Json
