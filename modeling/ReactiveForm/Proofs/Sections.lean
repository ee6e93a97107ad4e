import ReactiveForm.Proofs.Framing
import ReactiveForm.Proofs.Outline
import ReactiveForm.Storage.StoredForm

/-! Which sections of a file matter. A form is read from the first section of each of its parts.
Sections that are no part of a form may stand anywhere, and more of them may come in; the parts
may come in any order. -/

namespace ReactiveForm

theorem Part.mem_all (part : Part) : part ∈ Part.all := by
  cases part <;> decide

theorem Part.tag_injective : Function.Injective Part.tag := by
  intro left right same
  cases left <;> cases right <;> first | rfl | exact absurd same (by decide)

def Section.isKnown (part : Section) : Bool := (Part.ofTag? part.tag).isSome

theorem Section.isKnown_of_tag {found : Section} {part : Part} (tag : found.tag = part.tag) :
    found.isKnown = true := by
  rw [isKnown, Part.ofTag?, List.find?_isSome]
  exact ⟨part, part.mem_all, by rw [tag, beq_self_eq_true]⟩

namespace StoredForm

open Container

variable {parts others : List Section}

/-- The first section of each part that there is. -/
def firstSections (parts : List Section) : List Section :=
  Part.all.filterMap fun part => parts.find? (·.tag == part.tag)

theorem mem_firstSections {found : Section} :
    found ∈ firstSections parts ↔ ∃ part : Part, parts.find? (·.tag == part.tag) = some found := by
  rw [firstSections, List.mem_filterMap]
  exact exists_congr fun part => and_iff_right part.mem_all

theorem mem_of_mem_firstSections {found : Section} (member : found ∈ firstSections parts) :
    found ∈ parts := by
  rcases mem_firstSections.mp member with ⟨part, first⟩
  exact List.mem_of_find?_eq_some first

theorem length_firstSections_le (parts : List Section) :
    (firstSections parts).length ≤ Part.all.length :=
  List.length_filterMap_le _ _

theorem nodup_tags_firstSections (parts : List Section) :
    ((firstSections parts).map Section.tag).Nodup := by
  rw [firstSections, List.map_filterMap]
  refine List.Nodup.filterMap (fun left right tag here there => ?_) (by decide)
  rcases Option.map_eq_some_iff.mp here with ⟨first, found, rfl⟩
  rcases Option.map_eq_some_iff.mp there with ⟨other, foundToo, same⟩
  exact Part.tag_injective <|
    (eq_key_of_find? found).symm.trans (same.symm.trans (eq_key_of_find? foundToo))

/-- In whatever order the first sections of the parts are kept, each of them is found. -/
theorem find?_of_perm_firstSections {kept : List Section}
    (keeps : kept.Perm (firstSections parts)) (part : Part) :
    kept.find? (·.tag == part.tag) = parts.find? (·.tag == part.tag) := by
  have distinct : (kept.map Section.tag).Nodup :=
    (keeps.map Section.tag).nodup_iff.mpr (nodup_tags_firstSections parts)
  cases first : parts.find? (·.tag == part.tag) with
  | some found =>
      have tag : found.tag = part.tag := eq_key_of_find? first
      rw [← tag]
      exact find?_of_nodup_map distinct (keeps.mem_iff.mpr (mem_firstSections.mpr ⟨part, first⟩))
  | none =>
      rw [List.find?_eq_none] at first ⊢
      exact fun found member => first found (mem_of_mem_firstSections (keeps.mem_iff.mp member))

theorem find?_filter_isKnown (parts : List Section) (part : Part) :
    (parts.filter Section.isKnown).find? (·.tag == part.tag) =
      parts.find? (·.tag == part.tag) := by
  rw [List.find?_filter]
  congr 1
  funext found
  cases here : found.tag == part.tag with
  | false => simp
  | true => simp [Section.isKnown_of_tag (eq_of_beq here)]

/-! What is read depends on the first sections of the parts. -/

theorem decode_congr {α : Type} {part : Part} {decode? : Json → Option α}
    (same : others.find? (·.tag == part.tag) = parts.find? (·.tag == part.tag)) :
    decode others part decode? = decode parts part decode? := by
  rw [decode, decode, body, body, same]

theorem ofSections_congr (constructors : Constructors)
    (same : ∀ part : Part, others.find? (·.tag == part.tag) = parts.find? (·.tag == part.tag)) :
    ofSections constructors others = ofSections constructors parts := by
  rw [ofSections, ofSections, decode_congr (same _), decode_congr (same _), decode_congr (same _)]

theorem ofBytes_frame (few : parts.length ≤ 65535)
    (short : ∀ part ∈ parts, part.body.length < UInt32.size) (constructors : Constructors) :
    ofBytes constructors (frame parts) = ofSections constructors parts := by
  have read := read_close (Nat.lt_succ_of_le few) short 0 []
  rw [List.append_nil] at read
  have whole : frame parts = close (content 0 parts) := rfl
  rw [ofBytes, readSections, whole, read]
  rfl

/-- Of the sections of a file, only the first ones of the parts matter, in any order. Sections
that are no part of a form can be added, removed and moved: what is read stays the same, and
so does the error if it cannot be read. -/
theorem ofBytes_frame_firstSections (few : parts.length ≤ 65535)
    (short : ∀ part ∈ parts, part.body.length < UInt32.size) (constructors : Constructors) :
    (∀ kept : List Section, kept.Perm (firstSections parts) →
      ofBytes constructors (frame kept) = ofBytes constructors (frame parts)) ∧
    ∀ others : List Section, others.length ≤ 65535 →
      (∀ part ∈ others, part.body.length < UInt32.size) →
      others.filter Section.isKnown = parts.filter Section.isKnown →
      ofBytes constructors (frame others) = ofBytes constructors (frame parts) := by
  rw [ofBytes_frame few short]
  constructor
  · intro kept keeps
    have length : kept.length ≤ 3 := keeps.length_eq ▸ length_firstSections_le parts
    rw [ofBytes_frame (by omega) fun part member =>
      short part (mem_of_mem_firstSections (keeps.mem_iff.mp member))]
    exact ofSections_congr constructors (find?_of_perm_firstSections keeps)
  · intro others fewToo shortToo same
    rw [ofBytes_frame fewToo shortToo]
    refine ofSections_congr constructors fun part => ?_
    rw [← find?_filter_isKnown, same, find?_filter_isKnown]

end StoredForm

/-! A memo that somebody has written a note into. -/

namespace Memo

def stored : StoredForm :=
  ⟨.none, "memo", .ofRoot (.leaf (.blank "data" (.index 0))), [], .standard⟩

def part (part : Part) : Section :=
  ⟨part.tag, Text.Utf8.encode (StoredForm.document stored part).compact⟩

def note : Section := ⟨⟨0x4E, 0x4F, 0x54, 0x45⟩, Text.Utf8.encode "reviewed"⟩

def noted : List Section :=
  [part .nodes, note, part .rules, ⟨Part.nodes.tag, []⟩, note, part .particulars]

def bare : List Section :=
  [part .nodes, part .rules, ⟨Part.nodes.tag, []⟩, part .particulars]

end Memo

/-- With the notes or without them, and with the sections in the order in which they were
written, the memo is read. -/
theorem memo_ofBytes_frame : ∃ memo,
    StoredForm.ofBytes .standard (Container.frame Memo.noted) = .ok memo ∧
    StoredForm.ofBytes .standard (Container.frame Memo.bare) = .ok memo ∧
    StoredForm.ofBytes .standard (StoredForm.bytes Memo.stored) = .ok memo ∧
    memo.title = "memo" := by
  have few : Memo.noted.length ≤ 65535 := by decide
  have short : ∀ part ∈ Memo.noted, part.body.length < UInt32.size := by decide +kernel
  have readable : (StoredForm.ofSections .standard Memo.noted).toOption.any
      (·.title == "memo") = true := by
    decide +kernel
  rcases exists_ok_of_any readable with ⟨memo, read, title⟩
  have noted := (StoredForm.ofBytes_frame few short .standard).trans read
  rcases StoredForm.ofBytes_frame_firstSections few short .standard with ⟨kept, added⟩
  have written : (StoredForm.sections Memo.stored).Perm (StoredForm.firstSections Memo.noted) := by
    decide +kernel
  have bare := added Memo.bare (by decide) (by decide +kernel) (by decide +kernel)
  exact ⟨memo, noted, bare.trans noted, (kept _ written).trans noted, eq_of_beq title⟩

end ReactiveForm
