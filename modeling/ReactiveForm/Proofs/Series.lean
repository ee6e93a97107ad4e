import Mathlib.Data.List.DropRight
import ReactiveForm.Proofs.Numbering
import ReactiveForm.Proofs.Relocation

/-! One member more or less in a series. Where the template of a series stands
before its members, the members are still numbered in document order, and both
lists of children differ in the one member and in the numbers behind it. -/

namespace ReactiveForm

section Lists

variable {α : Type} {holds : α → Bool} {element : α} {list : List α}

theorem insertAfterLast?_eq_none (none : insertAfterLast? holds element list = none) :
    ∀ other ∈ list, holds other = false := by
  induction list with
  | nil => simp
  | cons head tail induction =>
      rw [insertAfterLast?] at none
      split at none
      · cases none
      next inTail =>
        split at none
        · cases none
        next here => exact List.forall_mem_cons.mpr ⟨by simpa using here, induction inTail⟩

theorem insertAfterLast?_eq_some {result : List α}
    (some : insertAfterLast? holds element list = some result) :
    ∃ before last after, list = before ++ last :: after ∧ holds last = true ∧
      (∀ other ∈ after, holds other = false) ∧ result = before ++ last :: element :: after := by
  induction list generalizing result with
  | nil => cases some
  | cons head tail induction =>
      rw [insertAfterLast?] at some
      split at some
      next inserted inTail =>
        cases some
        rcases induction inTail with ⟨before, last, after, rfl, here, others, rfl⟩
        exact ⟨head :: before, last, after, rfl, here, others, rfl⟩
      next inTail =>
        split at some
        next here =>
          cases some
          exact ⟨[], head, tail, rfl, here, insertAfterLast?_eq_none inTail, rfl⟩
        · cases some

theorem insertBeforeFirst_split (holds : α → Bool) (element : α) (list : List α) :
    ∃ before after, list = before ++ after ∧ (∀ other ∈ before, holds other = false) ∧
      insertBeforeFirst holds element list = before ++ element :: after := by
  induction list with
  | nil => exact ⟨[], [], rfl, by simp, rfl⟩
  | cons head tail induction =>
      rw [insertBeforeFirst]
      split
      · exact ⟨[], head :: tail, rfl, by simp, rfl⟩
      next here =>
        rcases induction with ⟨before, after, rfl, others, inserted⟩
        refine ⟨head :: before, after, rfl, ?_, by rw [inserted]; rfl⟩
        exact List.forall_mem_cons.mpr ⟨by simpa using here, others⟩

theorem takeFirst?_eq_some {taken : α} {rest : List α}
    (some : takeFirst? holds list = some (taken, rest)) :
    ∃ before after, list = before ++ taken :: after ∧ rest = before ++ after ∧
      holds taken = true := by
  induction list generalizing rest with
  | nil => cases some
  | cons head tail induction =>
      rw [takeFirst?] at some
      split at some
      next here =>
        cases some
        exact ⟨[], tail, rfl, rfl, here⟩
      · rcases Option.map_eq_some_iff.mp some with ⟨⟨found, others⟩, inTail, equal⟩
        cases equal
        rcases induction inTail with ⟨before, after, rfl, rfl, here⟩
        exact ⟨head :: before, after, rfl, rfl, here⟩

theorem range'_of_append {β : Type} {number : Nat → β} {first second : List β} {next count : Nat}
    (sequence : first ++ second = (List.range' next count).map number) :
    first = (List.range' next first.length).map number ∧
      second = (List.range' (next + first.length) second.length).map number ∧
      count = first.length + second.length := by
  have lengths : count = first.length + second.length := by
    simpa using (congrArg List.length sequence).symm
  rw [lengths, ← List.range'_append_1, List.map_append] at sequence
  rcases List.append_inj sequence (by simp) with ⟨firsts, seconds⟩
  exact ⟨firsts, seconds, lengths⟩

end Lists

namespace Node

theorem counted_iff {name : String} {children : List Node} :
    Counted name children ↔ ∃ count, numbers name children = (List.range' 0 count).map .index := by
  simp only [Counted, numbers, List.range_eq_range']

@[simp] theorem numbers_append (name : String) (first second : List Node) :
    numbers name (first ++ second) = numbers name first ++ numbers name second := by
  simp [numbers]

theorem length_numbers (name : String) (children : List Node) :
    (numbers name children).length = (children.filter (isMember name)).length := by
  rw [numbers, List.length_map]

theorem numbers_cons_member {name : String} {node : Node} (member : node.isMember name = true)
    (rest : List Node) :
    numbers name (node :: rest) = node.facts.multiplicity :: numbers name rest := by
  simp [numbers, member]

theorem numbers_cons_other {name : String} {node : Node} (other : node.isMember name = false)
    (rest : List Node) : numbers name (node :: rest) = numbers name rest := by
  simp [numbers, other]

theorem numbers_eq_nil {name : String} {children : List Node}
    (none : ∀ child ∈ children, child.isMember name = false) : numbers name children = [] := by
  rw [numbers, List.map_eq_nil_iff, List.filter_eq_nil_iff]
  intro child member
  simp [none child member]

theorem isMember_iff {name : String} {node : Node} :
    node.isMember name = true ↔ node.facts.name = name ∧ node.isTemplate = false := by
  simp [isMember]

theorem precedes_iff {name : String} {position : Nat} {node : Node} :
    node.precedes name position = true ↔ node.facts.name = name ∧
      ∀ number, node.facts.multiplicity = .index number → number < position := by
  rw [precedes, Bool.and_eq_true, beq_iff_eq]
  refine and_congr_right fun _ => ?_
  split
  next number index => simp [index]
  next none => exact ⟨fun _ number index => absurd index (none number), fun _ => rfl⟩

/-! Shifted siblings. -/

section Shift

variable {name : String} {position : Nat}

theorem shift_cases (name : String) (position : Nat) (node : Node) :
    (∃ number, position ≤ number ∧ node.facts.name = name ∧
      node.facts.multiplicity = .index number ∧
      node.shift name position = node.placed (.index (number + 1))) ∨
    node.shift name position = node := by
  rw [shift]
  split
  next named =>
    split
    next number index =>
      split
      next behind => exact .inl ⟨number, behind, named, index, rfl⟩
      next => exact .inr rfl
    next => exact .inr rfl
  next => exact .inr rfl

theorem shift_other {node : Node} (other : node.isMember name = false) :
    node.shift name position = node := by
  refine (node.shift_cases name position).resolve_left ?_
  rintro ⟨number, -, named, index, -⟩
  have isMember : node.isMember name = true :=
    isMember_iff.mpr ⟨named, by simp [isTemplate, index]⟩
  rw [other] at isMember
  cases isMember

theorem step_shift (name : String) (position : Nat) (node : Node) :
    (node.shift name position).step = node.step.shift name position := by
  rcases node.shift_cases name position with ⟨number, behind, named, index, moved⟩ | same
  · rw [moved, Node.step, Node.step, named, index]
    simp [placed, Node.withFacts, Step.shift, behind, named]
  · rw [same]
    rcases node.step.shift_cases name position with ⟨number, behind, step, -⟩ | ⟨stays, -⟩
    · -- A sibling with this step would have been shifted.
      have named : node.facts.name = name := congrArg Step.name step
      have index : node.facts.multiplicity = .index number := congrArg Step.multiplicity step
      have moved := congrArg (fun node : Node => node.facts.multiplicity) same
      simp [shift, named, index, behind, placed, Node.withFacts] at moved
    · exact stays.symm

@[simp] theorem name_shift (node : Node) :
    (node.shift name position).facts.name = node.facts.name := by
  rcases node.shift_cases name position with ⟨number, -, -, -, moved⟩ | same
  · rw [moved]
    rfl
  · rw [same]

@[simp] theorem isTemplate_shift (node : Node) :
    (node.shift name position).isTemplate = node.isTemplate := by
  rcases node.shift_cases name position with ⟨number, -, -, index, moved⟩ | same
  · rw [moved, isTemplate, isTemplate, index]
    rfl
  · rw [same]

@[simp] theorem isMember_shift (other : String) (node : Node) :
    (node.shift name position).isMember other = node.isMember other := by
  simp [isMember]

theorem shift_eq_withFacts (name : String) (position : Nat) (node : Node) :
    ∃ facts, node.shift name position = node.withFacts fun _ => facts := by
  rcases node.shift_cases name position with ⟨number, -, -, -, moved⟩ | same
  · exact ⟨_, moved⟩
  · refine ⟨node.facts, same.trans ?_⟩
    cases node
    rfl

theorem shift_numbered {node : Node} :
    (node.shift name position).Numbered ↔ node.Numbered := by
  rcases shift_eq_withFacts name position node with ⟨facts, shifted⟩
  rw [shifted]
  refine ⟨fun numbered => ?_, fun numbered => numbered.withFacts _⟩
  have back := numbered.withFacts fun _ => node.facts
  cases node
  exact back

@[simp] theorem precedes_shift (node : Node) :
    (node.shift name position).precedes name position = node.precedes name position := by
  rcases node.shift_cases name position with ⟨number, behind, named, index, moved⟩ | same
  · have apart : ¬ number < position := by omega
    have further : ¬ number + 1 < position := by omega
    simp [moved, precedes, placed, Node.withFacts, index, apart, further]
  · rw [same]

theorem numbers_map_shift (children : List Node) :
    numbers name (children.map (shift name position)) =
      (numbers name children).map fun multiplicity =>
        (Step.shift name position ⟨name, multiplicity⟩).multiplicity := by
  induction children with
  | nil => rfl
  | cons child rest induction =>
      cases here : child.isMember name with
      | false =>
          rw [List.map_cons, numbers_cons_other (by simpa using here), numbers_cons_other here,
            induction]
      | true =>
          have named := (isMember_iff.mp here).1
          have moved : (child.shift name position).facts.multiplicity =
              (Step.shift name position ⟨name, child.facts.multiplicity⟩).multiplicity := by
            have step := congrArg Step.multiplicity (step_shift name position child)
            rwa [Node.step, Node.step, named] at step
          rw [List.map_cons, numbers_cons_member (by simpa using here), numbers_cons_member here,
            induction, List.map_cons, moved]

theorem numbers_map_shift_other {other : String} (apart : other ≠ name) (children : List Node) :
    numbers other (children.map (shift name position)) = numbers other children := by
  induction children with
  | nil => rfl
  | cons child rest induction =>
      cases here : child.isMember other with
      | false =>
          rw [List.map_cons, numbers_cons_other (by simpa using here), numbers_cons_other here,
            induction]
      | true =>
          have stays : child.shift name position = child := by
            refine (child.shift_cases name position).resolve_left ?_
            rintro ⟨number, -, named, -⟩
            simp only [isMember, named, Bool.and_eq_true, beq_iff_eq] at here
            exact apart here.1.symm
          rw [List.map_cons, stays, numbers_cons_member here, numbers_cons_member here, induction]

theorem numbers_map_shift_before {children : List Node} {next count : Nat}
    (sequence : numbers name children = (List.range' next count).map .index)
    (before : next + count ≤ position) :
    numbers name (children.map (shift name position)) = (List.range' next count).map .index := by
  rw [numbers_map_shift, sequence, List.map_map]
  apply List.map_congr_left
  intro number member
  have apart : ¬ position ≤ number := by
    have := (List.mem_range'_1.mp member).2
    omega
  simp [Step.shift, apart]

theorem numbers_map_shift_behind {children : List Node} {next count : Nat}
    (sequence : numbers name children = (List.range' next count).map .index)
    (behind : position ≤ next) :
    numbers name (children.map (shift name position)) =
      (List.range' (next + 1) count).map .index := by
  rw [numbers_map_shift, sequence, List.map_map, List.range'_eq_map_range,
    List.range'_eq_map_range, List.map_map, List.map_map]
  apply List.map_congr_left
  intro number _
  have moved : position ≤ next + number := by omega
  simp [Step.shift, moved]
  omega

end Shift

/-! Templates first. -/

def Leads (children : List Node) : Prop :=
  children.Pairwise fun earlier later =>
    later.isTemplate = true → earlier.facts.name = later.facts.name → earlier.isTemplate = true

/-- The template of every series stands before its members. -/
inductive TemplatesLead : Node → Prop where
  | intro {facts : Facts} {children : List Node} (leads : Leads children)
      (below : ∀ child ∈ children, child.TemplatesLead) : TemplatesLead ⟨facts, children⟩

namespace TemplatesLead

variable {node : Node}

theorem leads (lead : node.TemplatesLead) : Leads node.children := by
  cases lead with
  | intro leads _ => exact leads

theorem child (lead : node.TemplatesLead) : ∀ child ∈ node.children, child.TemplatesLead := by
  cases lead with
  | intro _ below => exact below

theorem of_children (leads : Leads node.children)
    (below : ∀ child ∈ node.children, child.TemplatesLead) : node.TemplatesLead := by
  cases node
  exact .intro leads below

theorem withFacts (lead : node.TemplatesLead) (change : Facts → Facts) :
    (node.withFacts change).TemplatesLead := by
  cases lead with
  | intro leads below => exact .intro leads below

end TemplatesLead

instance (children : List Node) : Decidable (Leads children) :=
  inferInstanceAs (Decidable (children.Pairwise fun earlier later =>
    later.isTemplate = true → earlier.facts.name = later.facts.name → earlier.isTemplate = true))

mutual

def templatesLead : Node → Bool
  | ⟨_, children⟩ => decide (Leads children) && allTemplatesLead children

def allTemplatesLead : List Node → Bool
  | [] => true
  | node :: rest => node.templatesLead && allTemplatesLead rest

end

theorem allTemplatesLead_eq_all (nodes : List Node) :
    allTemplatesLead nodes = nodes.all templatesLead := by
  induction nodes with
  | nil => rfl
  | cons node rest induction => rw [allTemplatesLead, induction, List.all_cons]

theorem templatesLead_iff {node : Node} : node.templatesLead = true ↔ node.TemplatesLead := by
  induction node using Node.induct with
  | step facts children induction =>
      rw [templatesLead, allTemplatesLead_eq_all, Bool.and_eq_true, decide_eq_true_eq,
        List.all_eq_true]
      constructor
      · rintro ⟨leads, below⟩
        exact .intro leads fun child member => (induction child member).mp (below child member)
      · rintro ⟨leads, below⟩
        exact ⟨leads, fun child member => (induction child member).mpr (below child member)⟩

instance (node : Node) : Decidable node.TemplatesLead :=
  decidable_of_iff _ templatesLead_iff

theorem shift_templatesLead {name : String} {position : Nat} {node : Node} :
    (node.shift name position).TemplatesLead ↔ node.TemplatesLead := by
  rcases shift_eq_withFacts name position node with ⟨facts, shifted⟩
  rw [shifted]
  refine ⟨fun lead => ?_, fun lead => lead.withFacts _⟩
  have back := lead.withFacts fun _ => node.facts
  cases node
  exact back

theorem leads_map {change : Node → Node} (name : ∀ node, (change node).facts.name = node.facts.name)
    (template : ∀ node, (change node).isTemplate = node.isTemplate) {children : List Node} :
    Leads (children.map change) ↔ Leads children := by
  simp only [Leads, List.pairwise_map, name, template]

theorem templatesLead_outline {node : Node} : node.outline.TemplatesLead ↔ node.TemplatesLead := by
  induction node using Node.induct with
  | step facts children induction =>
      have leads : Leads (children.map outline) ↔ Leads children :=
        leads_map (fun node => by simp [Facts.blank]) isTemplate_outline
      rw [outline, outlineAll_eq_map]
      constructor
      · rintro ⟨outlined, below⟩
        refine .intro (leads.mp outlined) fun child member => ?_
        exact (induction child member).mp (below _ (List.mem_map_of_mem member))
      · rintro ⟨lead, below⟩
        refine .intro (leads.mpr lead) fun child member => ?_
        rcases List.mem_map.mp member with ⟨original, inChildren, rfl⟩
        exact (induction original inChildren).mpr (below original inChildren)

theorem TemplatesLead.of_outline {node other : Node} (lead : node.TemplatesLead)
    (same : other.outline = node.outline) : other.TemplatesLead := by
  rw [← templatesLead_outline, same, templatesLead_outline]
  exact lead

theorem Leads.congr {lefts rights : List Node} (leads : Leads lefts)
    (same : lefts.map step = rights.map step) : Leads rights := by
  have bySteps (children : List Node) : Leads children ↔
      (children.map step).Pairwise fun earlier later => later.multiplicity = .template →
        earlier.name = later.name → earlier.multiplicity = .template := by
    rw [Leads, List.pairwise_map]
    simp [isTemplate, Node.step]
  rwa [bySteps, ← same, ← bySteps]

/-- The members of every series are numbered, and its template stands before
them. -/
structure IsOrderly (node : Node) : Prop where
  numbered : node.Numbered
  lead : node.TemplatesLead

theorem IsOrderly.copy {node : Node} (orderly : node.IsOrderly) (multiplicity : Multiplicity) :
    (node.copy multiplicity).IsOrderly :=
  ⟨orderly.numbered.copy multiplicity,
    (orderly.lead.of_outline (outline_reset node)).withFacts _⟩

theorem IsOrderly.child {node : Node} (orderly : node.IsOrderly) :
    ∀ child ∈ node.children, child.IsOrderly := fun child member =>
  ⟨orderly.numbered.child child member, orderly.lead.child child member⟩

/-! One member more. -/

/-- The children `big` of a node are `small` and one more member, behind which
the numbers of the series have gone up. -/
structure Grows (name : String) (position : Nat) (small : List Node) (member : Node)
    (big : List Node) : Prop where
  step : member.step = ⟨name, .index position⟩
  split : ∃ before after, small = before ++ after ∧
    big = before.map (shift name position) ++ member :: after.map (shift name position)

section Grows

variable {name : String} {position : Nat} {small big : List Node} {member : Node}

theorem isTemplate_of_step (step : member.step = ⟨name, .index position⟩) :
    member.isTemplate = false := by
  have index : member.facts.multiplicity = .index position := congrArg Step.multiplicity step
  simp [isTemplate, index]

theorem insertMember_split (node child : Node) (position : Nat) :
    ∃ before after,
      node.children = before ++ after ∧
      (node.insertMember child position).children =
        before.map (shift child.facts.name (min position (node.memberCount child.facts.name))) ++
          (child.placed (.index (min position (node.memberCount child.facts.name)))).inherit
            node.isRelevant ::
          after.map (shift child.facts.name (min position (node.memberCount child.facts.name))) ∧
      (∀ sibling ∈ after, sibling.precedes child.facts.name
        (min position (node.memberCount child.facts.name)) = false) ∧
      ((∃ early last, before = early ++ [last] ∧ last.precedes child.facts.name
          (min position (node.memberCount child.facts.name)) = true) ∨
        ∀ sibling ∈ before, sibling.facts.name ≠ child.facts.name) := by
  rw [insertMember]
  dsimp only
  generalize min position (node.memberCount child.facts.name) = number
  split
  next children inserted =>
    rcases insertAfterLast?_eq_some inserted with
      ⟨before, last, after, siblings, precedes, others, rfl⟩
    rcases List.map_eq_append_iff.mp siblings with ⟨early, rest, children, rfl, split⟩
    rcases List.map_eq_cons_iff.mp split with ⟨last, late, rfl, rfl, rfl⟩
    refine ⟨early ++ [last], late, by simp [children], by simp, ?_, .inl ⟨early, last, rfl, ?_⟩⟩
    · intro sibling inLate
      rw [← precedes_shift]
      exact others _ (List.mem_map_of_mem inLate)
    · rwa [precedes_shift] at precedes
  next none =>
    rcases insertBeforeFirst_split
      (·.facts.name == child.facts.name) ((child.placed (.index number)).inherit node.isRelevant)
      (node.children.map (shift child.facts.name number)) with
      ⟨before, after, siblings, others, inserted⟩
    rcases List.map_eq_append_iff.mp siblings with ⟨early, late, children, rfl, rfl⟩
    refine ⟨early, late, children, inserted, ?_, .inr ?_⟩
    · intro sibling inLate
      rw [← precedes_shift]
      refine insertAfterLast?_eq_none none _ (List.mem_map_of_mem ?_)
      rw [children]
      exact List.mem_append_right _ inLate
    · intro sibling inEarly
      simpa using others _ (List.mem_map_of_mem inEarly)

/-! The place of a template. -/

def membersInFront (name : String) (children : List Node) : Nat :=
  (numbers name (children.rdropWhile (!isAt name .template ·))).length

theorem membersInFront_le (name : String) (children : List Node) :
    membersInFront name children ≤ (numbers name children).length :=
  (((List.rdropWhile_prefix _ children).sublist.filter _).map _).length_le

theorem membersInFront_append {before after : List Node}
    (none : ∀ sibling ∈ after, sibling.isAt name .template = false) :
    membersInFront name (before ++ after) = membersInFront name before := by
  rw [membersInFront, membersInFront, List.rdropWhile, List.reverse_append,
    List.dropWhile_append_of_pos, List.rdropWhile]
  intro sibling member
  simp [none sibling (List.mem_reverse.mp member)]

theorem membersInFront_concat {early : List Node} {last : Node}
    (template : last.isAt name .template = true) :
    membersInFront name (early ++ [last]) = (numbers name (early ++ [last])).length := by
  rw [membersInFront, List.rdropWhile_concat_neg _ _ _ (by simp [template])]

theorem Leads.membersInFront_eq_zero {children : List Node} (leads : Leads children)
    (name : String) : membersInFront name children = 0 := by
  rw [membersInFront, List.length_eq_zero_iff]
  rcases List.eq_nil_or_concat (children.rdropWhile (!isAt name .template ·)) with
    none | ⟨early, last, split⟩
  · rw [none]
    rfl
  · rw [List.concat_eq_append] at split
    have template : last.isAt name .template = true := by
      have stopped := List.rdropWhile_last_not (!isAt name .template ·) children (by simp [split])
      simpa [split] using stopped
    rw [isAt, Bool.and_eq_true, beq_iff_eq, beq_iff_eq] at template
    have inFront : Leads (early ++ [last]) := by
      rw [← split]
      exact leads.sublist (List.rdropWhile_prefix _ _).sublist
    rw [split]
    refine numbers_eq_nil fun sibling member => ?_
    rw [← Bool.not_eq_true, isMember_iff]
    rintro ⟨named, live⟩
    have lastIsTemplate : last.isTemplate = true := by simp [isTemplate, template.2]
    rcases List.mem_append.mp member with isEarly | isLast
    · have lead := (List.pairwise_append.mp inFront).2.2 sibling isEarly last (by simp)
        lastIsTemplate (named.trans template.1.symm)
      rw [lead] at live
      cases live
    · rw [List.mem_singleton.mp isLast, lastIsTemplate] at live
      cases live

theorem le_length_numbers_before {before after : List Node} {count : Nat}
    (sequence : numbers name (before ++ after) = (List.range' 0 count).map .index)
    (place : position ≤ count)
    (others : ∀ sibling ∈ after, sibling.precedes name position = false) :
    position ≤ (numbers name before).length := by
  rw [numbers_append] at sequence
  rcases range'_of_append sequence with ⟨-, seconds, counts⟩
  by_contra small
  -- The first member behind would have to have a number from the place on.
  have next : Multiplicity.index (numbers name before).length ∈ numbers name after := by
    rw [seconds, Nat.zero_add]
    exact List.mem_map_of_mem (List.mem_range'_1.mpr ⟨Nat.le_refl _, by omega⟩)
  rcases List.mem_map.mp next with ⟨sibling, inSeries, index⟩
  rcases List.mem_filter.mp inSeries with ⟨inAfter, isMember⟩
  have ahead : sibling.precedes name position = true := by
    refine precedes_iff.mpr ⟨(isMember_iff.mp isMember).1, fun number same => ?_⟩
    rw [index] at same
    cases same
    omega
  rw [others sibling inAfter] at ahead
  cases ahead

theorem length_numbers_before {before after : List Node} {count : Nat}
    (sequence : numbers name (before ++ after) = (List.range' 0 count).map .index)
    (place : position ≤ count) (others : ∀ sibling ∈ after, sibling.precedes name position = false)
    (precede : (∃ early last, before = early ++ [last] ∧ last.precedes name position = true) ∨
      ∀ sibling ∈ before, sibling.facts.name ≠ name) :
    (numbers name before).length = max position (membersInFront name (before ++ after)) := by
  have noTemplate : ∀ sibling ∈ after, sibling.isAt name .template = false := by
    intro sibling inAfter
    rw [← Bool.not_eq_true, isAt, Bool.and_eq_true, beq_iff_eq, beq_iff_eq]
    rintro ⟨named, template⟩
    have ahead := (@precedes_iff name position sibling).mpr ⟨named, fun number index => by
      rw [template] at index
      cases index⟩
    rw [others sibling inAfter] at ahead
    cases ahead
  have lower := le_length_numbers_before sequence place others
  have inFront := membersInFront_le name before
  rw [membersInFront_append noTemplate]
  rcases precede with ⟨early, last, rfl, here⟩ | none
  · rcases precedes_iff.mp here with ⟨named, smaller⟩
    cases template : last.isTemplate with
    | true =>
        have isTemplate : last.isAt name .template = true := by
          rw [isAt, named, beq_self_eq_true, Bool.true_and]
          exact template
        have all := @membersInFront_concat _ early _ isTemplate
        omega
    | false =>
        -- The last one before the place has the largest number there.
        have single : numbers name [last] = [last.facts.multiplicity] :=
          numbers_cons_member (isMember_iff.mpr ⟨named, template⟩) []
        have lengths : (numbers name (early ++ [last])).length = (numbers name early).length + 1 := by
          rw [numbers_append, single, List.length_append, List.length_singleton]
        rw [numbers_append] at sequence
        have firsts := (range'_of_append sequence).1
        rw [lengths, numbers_append, single, List.range'_concat, List.map_append] at firsts
        have index : last.facts.multiplicity = .index (numbers name early).length := by
          simpa using (List.append_inj' firsts rfl).2
        have := smaller _ index
        omega
  · have empty : numbers name before = [] := by
      refine numbers_eq_nil fun sibling inBefore => ?_
      rw [← Bool.not_eq_true, isMember_iff]
      exact fun isMember => none sibling inBefore isMember.1
    have lengths : (numbers name before).length = 0 := by simp [empty]
    omega

/-- A new number between others, which make room, is in order if it counts those before it. -/
theorem numbers_grown_iff {before after : List Node} {count : Nat}
    (sequence : numbers name (before ++ after) = (List.range' 0 count).map .index) :
    (∃ bigCount, numbers name (before.map (shift name position)) ++
        .index position :: numbers name (after.map (shift name position)) =
      (List.range' 0 bigCount).map .index) ↔
    (numbers name before).length = position := by
  rw [numbers_append] at sequence
  rcases range'_of_append sequence with ⟨smaller, larger, counts⟩
  constructor
  · rintro ⟨bigCount, bigSequence⟩
    rcases range'_of_append bigSequence with ⟨-, fromNew, -⟩
    rw [List.length_cons, List.range'_succ, List.map_cons, Nat.zero_add] at fromNew
    have same := Multiplicity.index.inj (List.cons.inj fromNew).1
    rw [numbers_map_shift, List.length_map] at same
    exact same.symm
  · intro here
    have rest : (numbers name after).length = count - position := by omega
    rw [here] at smaller larger
    rw [rest, Nat.zero_add] at larger
    have whole : List.range' 0 (count + 1) =
        List.range' 0 position ++ position :: List.range' (position + 1) (count - position) := by
      have parts : count + 1 = position + (count - position + 1) := by omega
      rw [parts, ← List.range'_append_1, Nat.zero_add, List.range'_succ]
    refine ⟨count + 1, ?_⟩
    rw [numbers_map_shift_before smaller (by omega),
      numbers_map_shift_behind larger (Nat.le_refl _), whole, List.map_append, List.map_cons]

theorem insertMember_grows (node child : Node) (position : Nat) :
    Grows child.facts.name (min position (node.memberCount child.facts.name)) node.children
      ((child.placed (.index (min position (node.memberCount child.facts.name)))).inherit
        node.isRelevant) (node.insertMember child position).children := by
  rcases insertMember_split node child position with ⟨before, after, children, inserted, -⟩
  exact ⟨by simp [Node.step, placed, Node.withFacts], before, after, children, inserted⟩

theorem Grows.mem_cases (grows : Grows name position small member big) {child : Node}
    (inBig : child ∈ big) :
    child = member ∨ ∃ original ∈ small, child = original.shift name position := by
  rcases grows.split with ⟨before, after, rfl, rfl⟩
  rcases List.mem_append.mp inBig with shifted | inRest
  · rcases List.mem_map.mp shifted with ⟨original, inBefore, rfl⟩
    exact .inr ⟨original, List.mem_append_left _ inBefore, rfl⟩
  · rcases List.mem_cons.mp inRest with rfl | shifted
    · exact .inl rfl
    · rcases List.mem_map.mp shifted with ⟨original, inAfter, rfl⟩
      exact .inr ⟨original, List.mem_append_right _ inAfter, rfl⟩

theorem Grows.numbers_other (grows : Grows name position small member big) {other : String}
    (apart : other ≠ name) : numbers other big = numbers other small := by
  rcases grows.split with ⟨before, after, rfl, rfl⟩
  have outside : member.isMember other = false := by
    rw [← Bool.not_eq_true, isMember_iff]
    rintro ⟨named, -⟩
    exact apart (named.symm.trans (congrArg Step.name grows.step))
  rw [numbers_append, numbers_cons_other outside, numbers_map_shift_other apart,
    numbers_map_shift_other apart, numbers_append]

theorem Numbered.of_children {node : Node} (counted : ∀ name, Counted name node.children)
    (below : ∀ child ∈ node.children, child.Numbered) : node.Numbered := by
  cases node
  exact .intro counted below

theorem counted_insertMember_iff {node child : Node}
    (counted : Counted child.facts.name node.children) (position : Nat) :
    Counted child.facts.name (node.insertMember child position).children ↔
      membersInFront child.facts.name node.children ≤ position := by
  rcases insertMember_split node child position with
    ⟨before, after, children, inserted, others, precede⟩
  have members : node.memberCount child.facts.name =
      (numbers child.facts.name node.children).length :=
    (length_numbers _ _).symm
  have inFront := membersInFront_le child.facts.name node.children
  rcases counted_iff.mp counted with ⟨count, sequence⟩
  have counts : node.memberCount child.facts.name = count := by rw [members, sequence]; simp
  generalize place : min position (node.memberCount child.facts.name) = number at *
  have isMember : ((child.placed (.index number)).inherit node.isRelevant).isMember
      child.facts.name = true := by
    rw [isMember_iff, isTemplate]
    simp [placed, Node.withFacts]
  have index : ((child.placed (.index number)).inherit
      node.isRelevant).facts.multiplicity = .index number := by
    simp [placed, Node.withFacts]
  have behind := length_numbers_before (children ▸ sequence) (by omega) others precede
  rw [← children] at behind
  rw [children] at sequence
  rw [counted_iff, inserted, numbers_append, numbers_cons_member isMember, index,
    numbers_grown_iff sequence, behind]
  omega

theorem Numbered.insertMember_iff {node child : Node} (numbered : node.Numbered)
    (childNumbered : child.Numbered) (position : Nat) :
    (node.insertMember child position).Numbered ↔
      membersInFront child.facts.name node.children ≤ position := by
  have grows := insertMember_grows node child position
  rw [← counted_insertMember_iff (numbered.counted child.facts.name)]
  constructor
  · exact fun bigNumbered => bigNumbered.counted child.facts.name
  · intro bigCounted
    refine .of_children (fun other => ?_) fun sibling inChildren => ?_
    · by_cases same : other = child.facts.name
      · exact same ▸ bigCounted
      · have counted := counted_iff.mp (numbered.counted other)
        rw [← grows.numbers_other same] at counted
        exact counted_iff.mpr counted
    · rcases grows.mem_cases inChildren with rfl | ⟨original, inSmall, rfl⟩
      · exact (childNumbered.withFacts ({ · with multiplicity := .index (min position _) })).of_outline
          (outline_inherit _ _)
      · exact shift_numbered.mpr (numbered.child original inSmall)

theorem Numbered.insertMember {node child : Node} (numbered : node.Numbered)
    (leads : Leads node.children) (childNumbered : child.Numbered) (position : Nat) :
    (node.insertMember child position).Numbered := by
  rw [numbered.insertMember_iff childNumbered, leads.membersInFront_eq_zero]
  exact Nat.zero_le _

theorem TemplatesLead.insertMember {node child : Node} (lead : node.TemplatesLead)
    (childLead : child.TemplatesLead) (position : Nat) :
    (node.insertMember child position).TemplatesLead := by
  rcases insertMember_split node child position with ⟨before, after, children, inserted, others, -⟩
  have grows := insertMember_grows node child position
  generalize min position (node.memberCount child.facts.name) = number at *
  have leads : Leads ((before ++ after).map (shift child.facts.name number)) := by
    rw [leads_map name_shift isTemplate_shift, ← children]
    exact lead.leads
  rw [List.map_append, Leads, List.pairwise_append] at leads
  rcases leads with ⟨early, late, across⟩
  have live : ((child.placed (.index number)).inherit node.isRelevant).isTemplate = false := by
    simp [isTemplate, placed, Node.withFacts]
  have named : ((child.placed (.index number)).inherit node.isRelevant).facts.name =
      child.facts.name := by
    simp [placed, Node.withFacts]
  refine .of_children ?_ fun sibling inChildren => ?_
  · rw [inserted]
    refine List.pairwise_append.mpr ⟨early, List.pairwise_cons.mpr ⟨?_, late⟩, ?_⟩
    · -- A template would have preceded the place.
      intro sibling inAfter template sameName
      rcases List.mem_map.mp inAfter with ⟨original, behind, rfl⟩
      rw [isTemplate_shift] at template
      rw [named, name_shift] at sameName
      have ahead : original.precedes child.facts.name number = true := by
        refine precedes_iff.mpr ⟨sameName.symm, fun other index => ?_⟩
        simp [isTemplate, index] at template
      rw [others original behind] at ahead
      cases ahead
    · intro earlier inBefore later member
      rcases List.mem_cons.mp member with rfl | inAfter
      · intro template
        rw [live] at template
        cases template
      · exact across earlier inBefore later inAfter
  · rcases grows.mem_cases inChildren with rfl | ⟨original, inSmall, rfl⟩
    · exact (childLead.withFacts ({ · with multiplicity := .index number })).of_outline
        (outline_inherit _ _)
    · exact shift_templatesLead.mpr (lead.child original inSmall)

/-! One member less. -/

theorem renumberFrom_append (name : String) (next : Nat) (first second : List Node) :
    renumberFrom name next (first ++ second) =
      renumberFrom name next first ++
        renumberFrom name (next + (numbers name first).length) second := by
  induction first generalizing next with
  | nil => rfl
  | cons child rest induction =>
      cases here : child.isMember name with
      | true =>
          rw [List.cons_append, renumberFrom, if_pos here, renumberFrom, if_pos here, induction,
            numbers_cons_member here, List.length_cons, List.cons_append, Nat.add_right_comm]
          rfl
      | false => simp [renumberFrom, here, induction, numbers_cons_other here]

theorem placed_self {node : Node} {multiplicity : Multiplicity}
    (same : node.facts.multiplicity = multiplicity) : node.placed multiplicity = node := by
  subst same
  cases node
  rfl

theorem range'_of_cons {child : Node} {rest : List Node} {next count : Nat}
    (here : child.isMember name = true)
    (sequence : numbers name (child :: rest) = (List.range' next count).map .index) :
    ∃ fewer, child.facts.multiplicity = .index next ∧
      numbers name rest = (List.range' (next + 1) fewer).map .index := by
  rw [numbers_cons_member here] at sequence
  cases count with
  | zero => cases sequence
  | succ fewer =>
      rw [List.range'_succ, List.map_cons] at sequence
      exact ⟨fewer, List.cons.inj sequence⟩

theorem renumberFrom_eq_self {children : List Node} {next count : Nat}
    (sequence : numbers name children = (List.range' next count).map .index) :
    renumberFrom name next children = children := by
  induction children generalizing next count with
  | nil => rfl
  | cons child rest induction =>
      cases here : child.isMember name with
      | true =>
          rcases range'_of_cons here sequence with ⟨fewer, index, sequence⟩
          rw [renumberFrom, if_pos here, placed_self index, induction sequence]
      | false =>
          rw [numbers_cons_other here] at sequence
          simp [renumberFrom, here, induction sequence]

/-- Members that have closed a gap go back when it opens. -/
theorem map_shift_renumberFrom {children : List Node} {next count : Nat}
    (sequence : numbers name children = (List.range' (next + 1) count).map .index)
    (behind : position ≤ next) :
    (renumberFrom name next children).map (shift name position) = children := by
  induction children generalizing next count with
  | nil => rfl
  | cons child rest induction =>
      cases here : child.isMember name with
      | true =>
          rcases range'_of_cons here sequence with ⟨fewer, index, sequence⟩
          have back : (child.placed (.index next)).shift name position = child := by
            have named := (isMember_iff.mp here).1
            have moved : (child.placed (.index next)).shift name position =
                child.placed (.index (next + 1)) := by
              simp [shift, placed, Node.withFacts, named, behind]
            rw [moved, placed_self index]
          rw [renumberFrom, if_pos here, List.map_cons, back, induction sequence (by omega)]
      | false =>
          rw [numbers_cons_other here] at sequence
          rw [renumberFrom, if_neg (by simp [here]), List.map_cons, shift_other here,
            induction sequence behind]

theorem map_shift_eq_self {children : List Node} {count : Nat}
    (sequence : numbers name children = (List.range' 0 count).map .index)
    (before : count ≤ position) : children.map (shift name position) = children := by
  have stay : ∀ child ∈ children, child.shift name position = child := by
    intro child inChildren
    refine (child.shift_cases name position).resolve_left ?_
    rintro ⟨number, behind, named, index, -⟩
    have isMember : child.isMember name = true :=
      isMember_iff.mpr ⟨named, by simp [isTemplate, index]⟩
    have inSeries : child.facts.multiplicity ∈ numbers name children :=
      List.mem_map_of_mem (List.mem_filter.mpr ⟨inChildren, isMember⟩)
    rw [sequence, index] at inSeries
    rcases List.mem_map.mp inSeries with ⟨other, inRange, same⟩
    have := (List.mem_range'_1.mp inRange).2
    cases same
    omega
  rw [List.map_congr_left stay, List.map_id']

theorem facts_removeMember? {node removed remaining : Node} {name : String} {position : Nat}
    (found : node.removeMember? name position = some (removed, remaining)) :
    remaining.facts = node.facts := by
  rw [removeMember?] at found
  rcases Option.map_eq_some_iff.mp found with ⟨_, -, equal⟩
  cases equal
  rfl

theorem removeMember?_grows {node removed remaining : Node}
    (counted : Counted name node.children)
    (found : node.removeMember? name position = some (removed, remaining)) :
    remaining.facts = node.facts ∧
      Grows name position remaining.children removed node.children := by
  rw [removeMember?] at found
  rcases Option.map_eq_some_iff.mp found with ⟨⟨taken, rest⟩, took, equal⟩
  cases equal
  rcases takeFirst?_eq_some took with ⟨before, after, children, rfl, here⟩
  simp only [isAt, Bool.and_eq_true, beq_iff_eq] at here
  rcases here with ⟨named, index⟩
  have isMember : removed.isMember name = true :=
    isMember_iff.mpr ⟨named, by simp [isTemplate, index]⟩
  rcases counted_iff.mp counted with ⟨count, sequence⟩
  rw [children, numbers_append, numbers_cons_member isMember] at sequence
  rcases range'_of_append sequence with ⟨smaller, larger, -⟩
  rw [Nat.zero_add, List.length_cons, List.range'_succ, List.map_cons, index] at larger
  rcases List.cons.inj larger with ⟨place, larger⟩
  rw [← Multiplicity.index.inj place] at smaller larger
  have length : (numbers name before).length = position := (Multiplicity.index.inj place).symm
  refine ⟨rfl, by rw [Node.step, named, index], before, renumberFrom name position after, ?_, ?_⟩
  · rw [renumber, renumberFrom_append, renumberFrom_eq_self smaller, Nat.zero_add, length]
  · rw [map_shift_eq_self smaller (Nat.le_refl _), map_shift_renumberFrom larger (Nat.le_refl _),
      children]

theorem Grows.leads (grows : Grows name position small member big) (leads : Leads big) :
    Leads small := by
  rcases grows.split with ⟨before, after, rfl, rfl⟩
  have fewer : ((before ++ after).map (shift name position)).Sublist
      (before.map (shift name position) ++ member :: after.map (shift name position)) := by
    rw [List.map_append]
    exact (List.Sublist.refl _).append (List.sublist_cons_self _ _)
  exact (leads_map name_shift isTemplate_shift).mp (List.Pairwise.sublist fewer leads)

theorem Grows.mem_of_small (grows : Grows name position small member big) {child : Node}
    (inSmall : child ∈ small) : child.shift name position ∈ big := by
  rcases grows.split with ⟨before, after, rfl, rfl⟩
  rw [List.mem_append, List.mem_cons]
  rcases List.mem_append.mp inSmall with inBefore | inAfter
  · exact .inl (List.mem_map_of_mem inBefore)
  · exact .inr (.inr (List.mem_map_of_mem inAfter))

theorem Numbered.removeMember {node removed remaining : Node} (numbered : node.Numbered)
    (found : node.removeMember? name position = some (removed, remaining)) :
    remaining.Numbered := by
  have grows := (removeMember?_grows (numbered.counted name) found).2
  refine .of_children (fun other => ?_) fun child inChildren => ?_
  · by_cases same : other = name
    · subst same
      rw [removeMember?] at found
      rcases Option.map_eq_some_iff.mp found with ⟨⟨taken, rest⟩, -, equal⟩
      cases equal
      exact counted_iff.mpr ⟨_, renumberFrom_counted other 0 rest⟩
    · have counted := counted_iff.mp (numbered.counted other)
      rw [grows.numbers_other same] at counted
      exact counted_iff.mpr counted
  · exact shift_numbered.mp (numbered.child _ (grows.mem_of_small inChildren))

theorem TemplatesLead.removeMember {node removed remaining : Node} (lead : node.TemplatesLead)
    (counted : Counted name node.children)
    (found : node.removeMember? name position = some (removed, remaining)) :
    remaining.TemplatesLead := by
  have grows := (removeMember?_grows counted found).2
  refine .of_children (grows.leads lead.leads) fun child inChildren => ?_
  exact shift_templatesLead.mp (lead.child _ (grows.mem_of_small inChildren))

end Grows

end Node

theorem AnswerTree.SameShape.isOrderly {left right : AnswerTree} (shape : left.SameShape right)
    (orderly : right.root.IsOrderly) : left.root.IsOrderly :=
  ⟨shape.numbered orderly.numbered, orderly.lead.of_outline shape⟩

end ReactiveForm
