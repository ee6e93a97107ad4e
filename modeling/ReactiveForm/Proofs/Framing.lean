import ReactiveForm.Storage.Container

/-! Files of sections, there and back. Of a file that is read, everything up to the end of
the last body is settled by its sections, but for the minor version; and the reader looks at
no position outside the file. Of digests it is only used how long they are. -/

namespace ReactiveForm.Container

/-! Numbers. -/

@[simp] theorem length_littleEndian (width number : Nat) :
    (littleEndian width number).length = width := by
  induction width generalizing number with
  | zero => rfl
  | succ width induction => rw [littleEndian, List.length_cons, induction]

def numbersOf : (width : Nat) → Nat
  | 0 => 1
  | width + 1 => 256 * numbersOf width

theorem ofLittleEndian_littleEndian {width number : Nat} (fits : number < numbersOf width) :
    ofLittleEndian (littleEndian width number) = number := by
  induction width generalizing number with
  | zero =>
      rw [numbersOf] at fits
      rw [littleEndian, ofLittleEndian]
      omega
  | succ width induction =>
      rw [numbersOf] at fits
      have higher : number / 256 < numbersOf width := Nat.div_lt_of_lt_mul fits
      rw [littleEndian, ofLittleEndian, induction higher, UInt8.toNat_ofNat']
      omega

theorem littleEndian_ofLittleEndian (bytes : List UInt8) :
    littleEndian bytes.length (ofLittleEndian bytes) = bytes := by
  induction bytes with
  | nil => rfl
  | cons byte rest induction =>
      have low := byte.toNat_lt
      have first : UInt8.ofNat (ofLittleEndian (byte :: rest)) = byte := by
        apply UInt8.toNat_inj.mp
        rw [UInt8.toNat_ofNat', ofLittleEndian]
        omega
      have higher : ofLittleEndian (byte :: rest) / 256 = ofLittleEndian rest := by
        rw [ofLittleEndian]
        omega
      rw [List.length_cons, littleEndian, first, higher, induction]

theorem ofLittleEndian_lt (bytes : List UInt8) :
    ofLittleEndian bytes < numbersOf bytes.length := by
  induction bytes with
  | nil => decide
  | cons byte rest induction =>
      have low := byte.toNat_lt
      rw [ofLittleEndian, List.length_cons, numbersOf]
      omega

/-! The table. -/

theorem exists_eight {bytes : List UInt8} (long : entryLength ≤ bytes.length) :
    ∃ a b c d e f g h rest, bytes = a :: b :: c :: d :: e :: f :: g :: h :: rest := by
  rcases bytes with _ | ⟨a, _ | ⟨b, _ | ⟨c, _ | ⟨d, _ | ⟨e, _ | ⟨f, _ | ⟨g, _ | ⟨h, rest⟩⟩⟩⟩⟩⟩⟩⟩
  case cons.cons.cons.cons.cons.cons.cons.cons => exact ⟨a, b, c, d, e, f, g, h, rest, rfl⟩
  all_goals
    simp only [List.length_cons, List.length_nil, entryLength] at long
    omega

def entryOf (part : Section) : Entry := ⟨part.tag, part.body.length⟩

def Entry.bytes (entry : Entry) : List UInt8 :=
  entry.tag.bytes ++ littleEndian 4 entry.length

theorem length_table (entries : List Entry) :
    (entries.flatMap Entry.bytes).length = entries.length * entryLength := by
  induction entries with
  | nil => rfl
  | cons entry rest induction =>
      rw [List.flatMap_cons, List.length_append, induction, List.length_cons, Nat.succ_mul,
        Nat.add_comm]
      rfl

theorem table_entryOf (parts : List Section) :
    (parts.map entryOf).flatMap Entry.bytes = parts.flatMap entryBytes := by
  rw [List.flatMap_map]
  rfl

theorem readTable_written {parts : List Section}
    (short : ∀ part ∈ parts, part.body.length < UInt32.size) (rest : List UInt8) :
    readTable parts.length (parts.flatMap entryBytes ++ rest) = (parts.map entryOf, rest) := by
  induction parts with
  | nil => rfl
  | cons part parts induction =>
      have ⟨here, later⟩ := List.forall_mem_cons.mp short
      have length : ofLittleEndian (littleEndian 4 part.body.length) = part.body.length :=
        ofLittleEndian_littleEndian here
      have entry : ofLittleEndian [UInt8.ofNat part.body.length,
          UInt8.ofNat (part.body.length / 256), UInt8.ofNat (part.body.length / 256 / 256),
          UInt8.ofNat (part.body.length / 256 / 256 / 256)] = part.body.length := length
      rw [List.flatMap_cons, List.append_assoc, List.length_cons]
      simp only [entryBytes, Tag.bytes, littleEndian, List.cons_append, List.nil_append,
        readTable, induction later, entry, List.map_cons, entryOf]

theorem readTable_read {count : Nat} {bytes : List UInt8}
    (long : count * entryLength ≤ bytes.length) :
    (readTable count bytes).1.length = count ∧
      (∀ entry ∈ (readTable count bytes).1, entry.length < UInt32.size) ∧
      bytes = (readTable count bytes).1.flatMap Entry.bytes ++ (readTable count bytes).2 := by
  induction count generalizing bytes with
  | zero => simp [readTable]
  | succ count induction =>
      have one : entryLength ≤ bytes.length :=
        Nat.le_trans (Nat.le_mul_of_pos_left _ count.succ_pos) long
      rcases exists_eight one with ⟨a, b, c, d, e, f, g, h, rest, rfl⟩
      have longRest : count * entryLength ≤ rest.length := by
        simp only [List.length_cons, entryLength] at long ⊢
        omega
      rcases induction longRest with ⟨length, short, written⟩
      have first : Entry.bytes ⟨⟨a, b, c, d⟩, ofLittleEndian [e, f, g, h]⟩ =
          [a, b, c, d, e, f, g, h] :=
        congrArg ([a, b, c, d] ++ ·) (littleEndian_ofLittleEndian [e, f, g, h])
      rw [readTable]
      refine ⟨by rw [List.length_cons, length], ?_, ?_⟩
      · exact List.forall_mem_cons.mpr ⟨ofLittleEndian_lt [e, f, g, h], short⟩
      · rw [List.flatMap_cons, first, List.append_assoc, ← written]
        rfl

theorem readTable_rest {count : Nat} {bytes : List UInt8}
    (long : count * entryLength ≤ bytes.length) :
    (readTable count bytes).2 = bytes.drop (count * entryLength) := by
  rcases readTable_read long with ⟨length, -, written⟩
  have table := length_table (readTable count bytes).1
  rw [length] at table
  rw [← table]
  exact (written ▸ List.drop_left).symm

/-! The bodies. -/

theorem readBodies_eq_ok_iff {size offset : Nat} {entries : List Entry} {bytes : List UInt8}
    {parts : List Section} :
    readBodies size offset entries bytes = .ok parts ↔
      entries = parts.map entryOf ∧ ∃ tail, bytes = parts.flatMap Section.body ++ tail := by
  induction entries generalizing offset bytes parts with
  | nil =>
      rw [readBodies, Except.ok.injEq]
      constructor
      · rintro rfl
        exact ⟨rfl, bytes, rfl⟩
      · rintro ⟨entries, -⟩
        exact (List.map_eq_nil_iff.mp entries.symm).symm
  | cons entry rest induction =>
      rw [readBodies]
      by_cases long : entry.length ≤ bytes.length
      · rw [if_neg (Nat.not_lt.mpr long)]
        constructor
        · intro done
          cases others : readBodies size (offset + entry.length) rest
              (bytes.drop entry.length) with
          | error error =>
              rw [others] at done
              cases done
          | ok parts =>
              rw [others] at done
              cases done
              rcases induction.mp others with ⟨rfl, tail, bodies⟩
              refine ⟨?_, tail, ?_⟩
              · rw [List.map_cons, entryOf, List.length_take, Nat.min_eq_left long]
              · rw [List.flatMap_cons, List.append_assoc, ← bodies, List.take_append_drop]
        · rintro ⟨entries, tail, rfl⟩
          rcases List.map_eq_cons_iff.mp entries.symm with ⟨part, parts, rfl, rfl, rfl⟩
          have others : readBodies size (offset + part.body.length) (parts.map entryOf)
              (parts.flatMap Section.body ++ tail) = .ok parts := induction.mpr ⟨rfl, tail, rfl⟩
          rw [List.flatMap_cons, List.append_assoc, entryOf, List.drop_left, List.take_left, others]
          rfl
      · rw [if_pos (Nat.not_le.mp long)]
        constructor
        · intro done
          cases done
        · rintro ⟨entries, tail, rfl⟩
          rcases List.map_eq_cons_iff.mp entries.symm with ⟨part, parts, rfl, rfl, rfl⟩
          refine absurd ?_ long
          rw [List.flatMap_cons, List.append_assoc, List.length_append, entryOf]
          exact Nat.le_add_right _ _

theorem readContent_eq_ok_iff {size count : Nat} {bytes : List UInt8} {parts : List Section} :
    readContent size count bytes = .ok parts ↔
      parts.length = count ∧ (∀ part ∈ parts, part.body.length < UInt32.size) ∧
        ∃ tail, bytes = parts.flatMap entryBytes ++ (parts.flatMap Section.body ++ tail) := by
  rw [readContent]
  by_cases long : count * entryLength ≤ bytes.length
  · rw [if_neg (Nat.not_lt.mpr long), readBodies_eq_ok_iff]
    constructor
    · rintro ⟨entries, tail, bodies⟩
      rcases readTable_read long with ⟨length, short, table⟩
      rw [entries] at length short table
      refine ⟨by rwa [List.length_map] at length, fun part member => ?_, tail, ?_⟩
      · exact short _ (List.mem_map_of_mem member)
      · rw [bodies, table_entryOf] at table
        exact table
    · rintro ⟨rfl, short, tail, rfl⟩
      rw [readTable_written short]
      exact ⟨rfl, tail, rfl⟩
  · rw [if_pos (Nat.not_le.mp long)]
    constructor
    · intro done
      cases done
    · rintro ⟨rfl, -, tail, rfl⟩
      refine absurd ?_ long
      rw [List.length_append, ← table_entryOf, length_table, List.length_map]
      exact Nat.le_add_right _ _

/-! Files. -/

def close (written : List UInt8) : List UInt8 := written ++ Sha256.digest written

def unclosed (bytes : List UInt8) : List UInt8 := bytes.take (bytes.length - digestLength)

theorem unclosed_append {written stored : List UInt8} (length : stored.length = digestLength) :
    unclosed (written ++ stored) = written := by
  rw [unclosed, List.length_append, length, Nat.add_sub_cancel, List.take_left]

theorem unclosed_close (written : List UInt8) : unclosed (close written) = written :=
  unclosed_append (Sha256.length_digest written)

theorem unclosed_frame (parts : List Section) : unclosed (frame parts) = content 0 parts :=
  unclosed_close (content 0 parts)

theorem content_eq (minor : UInt8) (parts : List Section) (tail : List UInt8) :
    content minor parts ++ tail =
      0x46 :: 0x44 :: 0x46 :: 0x00 :: majorVersion :: minor ::
        UInt8.ofNat parts.length :: UInt8.ofNat (parts.length / 256) ::
          (parts.flatMap entryBytes ++ (parts.flatMap Section.body ++ tail)) := by
  rw [content, List.append_assoc, List.append_assoc]
  rfl

section Preamble

variable {a b c d major minor low high : UInt8} {covered stored : List UInt8}

theorem read_cons (length : stored.length = digestLength) :
    read (a :: b :: c :: d :: major :: minor :: low :: high :: (covered ++ stored)) =
      if [a, b, c, d] ≠ mark then .error .markMissing
      else if major ≠ majorVersion then .error (.unsupportedVersion major minor)
      else if Sha256.digest (a :: b :: c :: d :: major :: minor :: low :: high :: covered) ≠
          stored then
        .error (.digestMismatch stored
          (Sha256.digest (a :: b :: c :: d :: major :: minor :: low :: high :: covered)))
      else
        readContent (covered.length + digestLength + 8) (ofLittleEndian [low, high]) covered := by
  have size : (a :: b :: c :: d :: major :: minor :: low :: high :: (covered ++ stored)).length =
      covered.length + digestLength + 8 := by
    rw [← length, ← List.length_append]
    rfl
  have enough : ¬ covered.length + digestLength + 8 < 8 + digestLength := by omega
  have ending : covered.length + digestLength + 8 - digestLength = covered.length + 8 := by omega
  simp only [read, size, preambleLength, if_neg enough, ending, List.take_succ_cons,
    List.take_zero, List.drop_succ_cons, List.drop_zero, List.take_left, List.drop_left]

end Preamble

theorem exists_preamble {bytes : List UInt8}
    (long : preambleLength + digestLength ≤ bytes.length) :
    ∃ a b c d major minor low high covered stored, stored.length = digestLength ∧
      bytes = a :: b :: c :: d :: major :: minor :: low :: high :: (covered ++ stored) := by
  rcases exists_eight (Nat.le_trans (Nat.le_add_right _ _) long) with
    ⟨a, b, c, d, major, minor, low, high, rest, rfl⟩
  have longRest : digestLength ≤ rest.length := by
    simp only [List.length_cons, preambleLength] at long
    omega
  refine ⟨a, b, c, d, major, minor, low, high, rest.take (rest.length - digestLength),
    rest.drop (rest.length - digestLength), ?_, by rw [List.take_append_drop]⟩
  rw [List.length_drop]
  omega

theorem read_close {parts : List Section} (few : parts.length < UInt16.size)
    (short : ∀ part ∈ parts, part.body.length < UInt32.size) (minor : UInt8)
    (tail : List UInt8) : read (close (content minor parts ++ tail)) = .ok parts := by
  have count : ofLittleEndian [UInt8.ofNat parts.length, UInt8.ofNat (parts.length / 256)] =
      parts.length := @ofLittleEndian_littleEndian 2 parts.length few
  rw [close, content_eq]
  simp only [List.cons_append]
  have marked : ¬ ([0x46, 0x44, 0x46, 0x00] : List UInt8) ≠ mark := not_not_intro rfl
  rw [read_cons (Sha256.length_digest _), if_neg marked, if_neg (not_not_intro rfl),
    if_neg (not_not_intro rfl), count]
  exact readContent_eq_ok_iff.mpr ⟨rfl, short, tail, rfl⟩

theorem exists_content_of_read {bytes : List UInt8} {parts : List Section}
    (done : read bytes = .ok parts) :
    parts.length < UInt16.size ∧ (∀ part ∈ parts, part.body.length < UInt32.size) ∧
      ∃ minor tail, bytes = close (content minor parts ++ tail) := by
  by_cases long : preambleLength + digestLength ≤ bytes.length
  · rcases exists_preamble long with
      ⟨a, b, c, d, major, minor, low, high, covered, stored, length, rfl⟩
    rw [read_cons length] at done
    split at done
    · cases done
    next marked =>
      split at done
      · cases done
      next version =>
        split at done
        · cases done
        next digest =>
          rcases readContent_eq_ok_iff.mp done with ⟨count, short, tail, rfl⟩
          cases Decidable.not_not.mp marked
          cases Decidable.not_not.mp version
          have few : parts.length < UInt16.size := count ▸ ofLittleEndian_lt [low, high]
          have numbers : [UInt8.ofNat parts.length, UInt8.ofNat (parts.length / 256)] =
              [low, high] := by
            rw [count]
            exact littleEndian_ofLittleEndian [low, high]
          rcases List.cons.inj numbers with ⟨first, second⟩
          refine ⟨few, short, minor, tail, ?_⟩
          rw [close, content_eq, first, (List.cons.inj second).1, Decidable.not_not.mp digest]
          rfl
  · rw [read, if_pos (Nat.not_le.mp long)] at done
    cases done

/-- A file is read as some sections iff it is the preamble with any minor version, the
table, the bodies, anything else, and the digest of all that. -/
theorem read_eq_ok_iff {bytes : List UInt8} {parts : List Section} :
    read bytes = .ok parts ↔
      parts.length < UInt16.size ∧ (∀ part ∈ parts, part.body.length < UInt32.size) ∧
        ∃ minor tail, bytes = close (content minor parts ++ tail) := by
  refine ⟨exists_content_of_read, ?_⟩
  rintro ⟨few, short, minor, tail, rfl⟩
  exact read_close few short minor tail

/-! Positions. The same reader, with every look at a position of the file. -/

def slice? (bytes : List UInt8) (first beyond : Nat) : Option (List UInt8) :=
  if first ≤ beyond ∧ beyond ≤ bytes.length then
    some ((bytes.drop first).take (beyond - first))
  else none

def entryAt? (bytes : List UInt8) (position : Nat) : Option Entry := do
  let tag : Tag := ⟨← bytes[position]?, ← bytes[position + 1]?, ← bytes[position + 2]?,
    ← bytes[position + 3]?⟩
  let length := ofLittleEndian [← bytes[position + 4]?, ← bytes[position + 5]?,
    ← bytes[position + 6]?, ← bytes[position + 7]?]
  return ⟨tag, length⟩

/-- Read so many entries, from a position on, and the body of each, from an offset on.
A body that ends beyond what the digest covers is no look outside, but an error. -/
def sectionsAt? (size : Nat) (covered : List UInt8) : (count position offset : Nat) →
    Option (Except ContainerError (List Section))
  | 0, _, _ => some (.ok [])
  | count + 1, position, offset => do
      let entry ← entryAt? covered position
      let ending := offset + entry.length
      match slice? covered offset ending with
      | none => some (.error (.tooShort (ending + digestLength) size))
      | some body => do
          let others ← sectionsAt? size covered count (position + entryLength) ending
          return others.map (⟨entry.tag, body⟩ :: ·)

def contentAt? (size count : Nat) (covered : List UInt8) :
    Option (Except ContainerError (List Section)) :=
  let tableEnd := preambleLength + count * entryLength
  match slice? covered preambleLength tableEnd with
  | none => some (.error (.tooShort (tableEnd + digestLength) size))
  | some _ => sectionsAt? size covered count preambleLength tableEnd

/-- Read a file by looking at its positions. There is no result if one is outside. -/
def readAt? (bytes : List UInt8) : Option (Except ContainerError (List Section)) :=
  let size := bytes.length
  if size < preambleLength + digestLength then
    some (.error (.tooShort (preambleLength + digestLength) size))
  else do
    let begun ← slice? bytes 0 4
    let major ← bytes[4]?
    let minor ← bytes[5]?
    let covered ← slice? bytes 0 (size - digestLength)
    let stored ← slice? bytes (size - digestLength) size
    let count := ofLittleEndian [← covered[6]?, ← covered[7]?]
    if begun ≠ mark then some (.error .markMissing)
    else if major ≠ majorVersion then some (.error (.unsupportedVersion major minor))
    else if Sha256.digest covered ≠ stored then
      some (.error (.digestMismatch stored (Sha256.digest covered)))
    else contentAt? size count covered

theorem slice?_append (before middle after : List UInt8) :
    slice? (before ++ (middle ++ after)) before.length (before.length + middle.length) =
      some middle := by
  rw [slice?, if_pos, List.drop_left, Nat.add_sub_cancel_left, List.take_left]
  simp only [List.length_append]
  omega

theorem slice?_drop {bytes : List UInt8} {offset length : Nat} (within : offset ≤ bytes.length) :
    slice? bytes offset (offset + length) =
      if (bytes.drop offset).length < length then none
      else some ((bytes.drop offset).take length) := by
  rw [slice?, Nat.add_sub_cancel_left, List.length_drop]
  by_cases long : offset + length ≤ bytes.length
  · rw [if_pos ⟨Nat.le_add_right _ _, long⟩, if_neg (by omega)]
  · rw [if_neg fun both => long both.2, if_pos (by omega)]

theorem entryAt?_of_drop {bytes : List UInt8} {position : Nat} {a b c d e f g h : UInt8}
    {rest : List UInt8} (here : bytes.drop position = a :: b :: c :: d :: e :: f :: g :: h :: rest) :
    entryAt? bytes position = some ⟨⟨a, b, c, d⟩, ofLittleEndian [e, f, g, h]⟩ := by
  have look (number : Nat) : bytes[position + number]? =
      (a :: b :: c :: d :: e :: f :: g :: h :: rest)[number]? := by
    rw [← List.getElem?_drop, here]
  rw [entryAt?, ← Nat.add_zero position]
  simp only [Nat.add_assoc, look]
  rfl

/-- Behind a preamble no look is outside: the table was measured before, and every body is
measured before it is cut out. -/
theorem sectionsAt?_eq_readBodies {size count position offset : Nat} {covered : List UInt8}
    (long : position + count * entryLength ≤ covered.length) (within : offset ≤ covered.length) :
    sectionsAt? size covered count position offset =
      some (readBodies size offset (readTable count (covered.drop position)).1
        (covered.drop offset)) := by
  induction count generalizing position offset with
  | zero => rfl
  | succ count induction =>
      rw [Nat.succ_mul] at long
      have eight : entryLength ≤ (covered.drop position).length := by
        rw [List.length_drop]
        omega
      rcases exists_eight eight with ⟨a, b, c, d, e, f, g, h, rest, here⟩
      have next : covered.drop (position + entryLength) = rest := by
        rw [← List.drop_drop, here]
        rfl
      rw [sectionsAt?, entryAt?_of_drop here, here, readTable]
      generalize ofLittleEndian [e, f, g, h] = length
      simp only [Option.bind_eq_bind, Option.bind_some, slice?_drop within, readBodies]
      by_cases short : (covered.drop offset).length < length
      · simp only [if_pos short]
      · simp only [if_neg short]
        rw [List.length_drop] at short
        rw [induction (by omega) (by omega), next, List.drop_drop]
        cases readBodies size (offset + length) (readTable count rest).1
          (covered.drop (offset + length)) <;> rfl

theorem contentAt?_eq_readContent {size count : Nat} {covered : List UInt8}
    (long : preambleLength ≤ covered.length) :
    contentAt? size count covered =
      some (readContent size count (covered.drop preambleLength)) := by
  rw [contentAt?, slice?_drop long, readContent]
  by_cases short : (covered.drop preambleLength).length < count * entryLength
  · rw [if_pos short, if_pos short]
  · rw [if_neg short, if_neg short]
    rw [List.length_drop] at short
    have tableEnd : preambleLength + count * entryLength ≤ covered.length := by omega
    have rest : (readTable count (covered.drop preambleLength)).2 =
        covered.drop (preambleLength + count * entryLength) := by
      rw [readTable_rest (by rw [List.length_drop]; omega), List.drop_drop]
    change sectionsAt? size covered count preambleLength (preambleLength + count * entryLength) =
      some (readBodies size (preambleLength + count * entryLength)
        (readTable count (covered.drop preambleLength)).1
        (readTable count (covered.drop preambleLength)).2)
    rw [rest]
    exact sectionsAt?_eq_readBodies tableEnd tableEnd

theorem readAt?_eq_read (bytes : List UInt8) : readAt? bytes = some (read bytes) := by
  by_cases long : preambleLength + digestLength ≤ bytes.length
  · rcases exists_preamble long with
      ⟨a, b, c, d, major, minor, low, high, covered, stored, length, rfl⟩
    rw [read_cons length]
    generalize whole : a :: b :: c :: d :: major :: minor :: low :: high :: covered = before
    have bytes : a :: b :: c :: d :: major :: minor :: low :: high :: (covered ++ stored) =
        before ++ stored := by
      rw [← whole]
      rfl
    have begun : slice? (before ++ stored) 0 4 = some [a, b, c, d] := by
      rw [← whole]
      exact slice?_append [] [a, b, c, d] _
    have upToDigest : slice? (before ++ stored) 0 before.length = some before := by
      simpa using slice?_append [] before stored
    have digest : slice? (before ++ stored) before.length (before.length + stored.length) =
        some stored := by
      simpa using slice?_append before stored []
    have enough : ¬ before.length + digestLength < preambleLength + digestLength := by
      rw [← whole]
      simp only [List.length_cons, preambleLength]
      omega
    rw [bytes, readAt?, List.length_append, length, if_neg enough, Nat.add_sub_cancel, ← length,
      begun, upToDigest, digest, ← whole]
    simp only [Option.bind_eq_bind, Option.bind_some, List.cons_append, List.getElem?_cons_succ,
      List.getElem?_cons_zero]
    rw [contentAt?_eq_readContent (by simp [preambleLength])]
    -- The mark, the version and the digest are checked in the same order.
    split
    · rfl
    · split
      · rfl
      · split
        · rfl
        · rw [Nat.add_right_comm]
          rfl
  · rw [readAt?, read, if_pos (Nat.not_le.mp long), if_pos (Nat.not_le.mp long)]

/-! What a file holds. -/

theorem set_content (minor other : UInt8) (parts : List Section) :
    (content other parts).set 5 minor = content minor parts := by
  rw [← List.append_nil (content other parts), ← List.append_nil (content minor parts),
    content_eq, content_eq]
  rfl

def bodyStart (parts before : List Section) : Nat :=
  preambleLength + parts.length * entryLength + (before.flatMap Section.body).length

/-- A file holds sections: up to the end of their last body it is what is written for
them, but for the minor version. Its end is the digest of all that stands before it, and
no body reaches into the digest. -/
structure Holds (bytes : List UInt8) (parts : List Section) : Prop where
  written : ∃ minor,
    bytes.take (unclosed (frame parts)).length = (unclosed (frame parts)).set 5 minor
  digest : bytes.drop (bytes.length - digestLength) = Sha256.digest (unclosed bytes)
  apart : (unclosed (frame parts)).length + digestLength ≤ bytes.length
  bodies : ∀ before part after, parts = before ++ part :: after →
    slice? bytes (bodyStart parts before) (bodyStart parts before + part.body.length) =
        some part.body ∧
      bodyStart parts before + part.body.length + digestLength ≤ bytes.length

theorem length_content (minor : UInt8) (parts : List Section) :
    (content minor parts).length = (unclosed (frame parts)).length := by
  rw [unclosed_frame, ← set_content minor 0, List.length_set]

theorem exists_around_body (minor : UInt8) (before : List Section) (part : Section)
    (after : List Section) :
    ∃ start rest, content minor (before ++ part :: after) = start ++ (part.body ++ rest) ∧
      start.length = bodyStart (before ++ part :: after) before := by
  generalize parts : before ++ part :: after = all
  refine ⟨mark ++ [majorVersion, minor] ++ littleEndian 2 all.length ++ all.flatMap entryBytes ++
    before.flatMap Section.body, after.flatMap Section.body, ?_, ?_⟩
  · rw [content, ← parts, List.flatMap_append (f := Section.body), List.flatMap_cons,
      ← List.append_assoc]
  · rw [List.length_append, List.length_append, ← table_entryOf, length_table, List.length_map]
    rfl

theorem holds_close (minor : UInt8) (parts : List Section) (tail : List UInt8) :
    Holds (close (content minor parts ++ tail)) parts := by
  have length : (close (content minor parts ++ tail)).length =
      (unclosed (frame parts)).length + tail.length + digestLength := by
    rw [close, List.length_append, List.length_append, length_content, Sha256.length_digest]
    rfl
  refine ⟨⟨minor, ?_⟩, ?_, ?_, ?_⟩
  · rw [close, List.append_assoc, ← length_content minor, List.take_left, unclosed_frame,
      set_content]
  · rw [unclosed_close, length, Nat.add_sub_cancel, ← length_content minor, ← List.length_append,
      close, List.drop_left]
  · omega
  · rintro before part after rfl
    rcases exists_around_body minor before part after with ⟨start, rest, around, begins⟩
    have size := congrArg List.length around
    rw [length_content, List.length_append, List.length_append, begins] at size
    constructor
    · rw [close, around, List.append_assoc, List.append_assoc, List.append_assoc, ← begins]
      exact slice?_append start part.body _
    · omega

theorem Holds.exists_tail {bytes : List UInt8} {parts : List Section} (holds : Holds bytes parts) :
    ∃ minor tail, bytes = close (content minor parts ++ tail) := by
  rcases holds.written with ⟨minor, written⟩
  have apart := holds.apart
  generalize size : (unclosed (frame parts)).length = length at written apart
  have closed : bytes = close (unclosed bytes) := by
    rw [close, ← holds.digest, unclosed, List.take_append_drop]
  refine ⟨minor, (unclosed bytes).drop length, ?_⟩
  have begun : (unclosed bytes).take length = content minor parts := by
    rw [unclosed, List.take_take, Nat.min_eq_left (by omega), written, unclosed_frame, set_content]
  rw [← begun, List.take_append_drop]
  exact closed

/-- What is framed is read again. Reading looks at no position outside the file, and it
finds exactly the sections that the file holds: there are no more of them than can be
counted, and no body is longer than can be said. -/
theorem framed_sections :
    (∀ parts : List Section, parts.length ≤ 65535 →
      (∀ part ∈ parts, part.body.length < UInt32.size) → read (frame parts) = .ok parts) ∧
    ∀ bytes : List UInt8, readAt? bytes = some (read bytes) ∧
      ∀ parts, read bytes = .ok parts ↔ parts.length ≤ 65535 ∧
        (∀ part ∈ parts, part.body.length < UInt32.size) ∧ Holds bytes parts := by
  refine ⟨fun parts few short => ?_, fun bytes => ⟨readAt?_eq_read bytes, fun parts => ?_⟩⟩
  · have read := read_close (Nat.lt_succ_of_le few) short 0 []
    rwa [List.append_nil] at read
  · rw [read_eq_ok_iff]
    constructor
    · rintro ⟨few, short, minor, tail, rfl⟩
      exact ⟨Nat.le_of_lt_succ few, short, holds_close minor parts tail⟩
    · rintro ⟨few, short, holds⟩
      exact ⟨Nat.lt_succ_of_le few, short, holds.exists_tail⟩

/-- A file of a later minor version, with a byte between its only body and the digest. -/
theorem framed_sections_later :
    ∃ bytes parts, read bytes = .ok parts ∧ parts.length ≤ 65535 ∧
      (∀ part ∈ parts, part.body.length < UInt32.size) ∧ Holds bytes parts ∧
      read (frame parts) = .ok parts := by
  let parts : List Section := [⟨⟨0x4D, 0x45, 0x54, 0x41⟩, [0x7B, 0x7D]⟩]
  let file := close (content 7 parts ++ [0xFF])
  have found : (read file).toOption = some parts := by decide +kernel
  have done : read file = .ok parts := by
    cases outcome : read file with
    | error error =>
        rw [outcome] at found
        cases found
    | ok others =>
        rw [outcome] at found
        cases found
        rfl
  rcases ((framed_sections.2 file).2 parts).mp done with ⟨few, short, holds⟩
  exact ⟨file, parts, done, few, short, holds, framed_sections.1 parts few short⟩

end ReactiveForm.Container
