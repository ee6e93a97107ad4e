import ReactiveForm.Proofs.Nearness

/-! What the tests of patterns mean. A pattern stands for the references that have its
names and say which member they mean wherever the pattern leaves that open. Two patterns
intersect if they stand for one reference together. One covers another if it stands for
the beginning of a reference that the other stands for. -/

namespace ReactiveForm

/-! Multiplicities. -/

namespace Multiplicity

structure Matches (single pattern : Multiplicity) : Prop where
  bound : single.isBound = true
  admitted : pattern = .unbound ∨ pattern = single

theorem overlaps_iff {left right : Multiplicity} :
    left.overlaps right = true ↔ left = .unbound ∨ right = .unbound ∨ left = right := by
  cases left <;> cases right <;> simp [overlaps]

theorem exists_matches (pattern : Multiplicity) :
    ∃ single : Multiplicity, single.Matches pattern := by
  cases pattern with
  | unbound => exact ⟨.index 0, rfl, .inl rfl⟩
  | template => exact ⟨.template, rfl, .inr rfl⟩
  | index position => exact ⟨.index position, rfl, .inr rfl⟩

theorem overlaps_iff_exists_matches {left right : Multiplicity} :
    left.overlaps right = true ↔
      ∃ single : Multiplicity, single.Matches left ∧ single.Matches right := by
  rw [overlaps_iff]
  constructor
  · intro overlap
    rcases overlap with rfl | rfl | rfl
    · rcases exists_matches right with ⟨single, inRight⟩
      exact ⟨single, ⟨inRight.bound, .inl rfl⟩, inRight⟩
    · rcases exists_matches left with ⟨single, inLeft⟩
      exact ⟨single, inLeft, inLeft.bound, .inl rfl⟩
    · rcases exists_matches left with ⟨single, inBoth⟩
      exact ⟨single, inBoth, inBoth⟩
  · intro found
    rcases found with ⟨single, inLeft, inRight⟩
    rcases inLeft.admitted with free | same
    · exact .inl free
    · rcases inRight.admitted with free | sameToo
      · exact .inr (.inl free)
      · exact .inr (.inr (same.trans sameToo.symm))

end Multiplicity

/-! Steps. -/

namespace Step

structure Matches (single pattern : Step) : Prop where
  name : single.name = pattern.name
  multiplicity : single.multiplicity.Matches pattern.multiplicity

theorem exists_matches (pattern : Step) : ∃ single : Step, single.Matches pattern := by
  rcases Multiplicity.exists_matches pattern.multiplicity with ⟨multiplicity, isMatch⟩
  exact ⟨⟨pattern.name, multiplicity⟩, rfl, isMatch⟩

theorem overlaps_iff_exists_matches {left right : Step} :
    left.overlaps right = true ↔ ∃ single : Step, single.Matches left ∧ single.Matches right := by
  rw [overlaps_iff, Multiplicity.overlaps_iff_exists_matches]
  constructor
  · intro overlap
    rcases overlap with ⟨sameName, multiplicity, inLeft, inRight⟩
    exact ⟨⟨left.name, multiplicity⟩, ⟨rfl, inLeft⟩, sameName, inRight⟩
  · intro found
    rcases found with ⟨single, inLeft, inRight⟩
    exact ⟨inLeft.name.symm.trans inRight.name, single.multiplicity, inLeft.multiplicity,
      inRight.multiplicity⟩

theorem Matches.unbound {single pattern : Step} (isMatch : single.Matches pattern) :
    single.Matches (.unbound pattern.name) :=
  ⟨isMatch.name, isMatch.multiplicity.bound, .inl rfl⟩

end Step

/-! Lists that are related through a third. -/

theorem forall₂_exists_iff {α β γ : Type} {first : γ → α → Prop} {second : γ → β → Prop}
    {lefts : List α} {rights : List β} :
    List.Forall₂ (fun left right => ∃ middle, first middle left ∧ second middle right)
        lefts rights ↔
      ∃ middles, List.Forall₂ first middles lefts ∧ List.Forall₂ second middles rights := by
  constructor
  · intro related
    induction related with
    | nil => exact ⟨[], .nil, .nil⟩
    | cons here _ induction =>
        rcases here with ⟨middle, isFirst, isSecond⟩
        rcases induction with ⟨middles, firsts, seconds⟩
        exact ⟨middle :: middles, .cons isFirst firsts, .cons isSecond seconds⟩
  · intro found
    rcases found with ⟨middles, firsts, seconds⟩
    induction firsts generalizing rights with
    | nil =>
        cases seconds
        exact .nil
    | cons isFirst _ induction =>
        cases seconds with
        | cons isSecond seconds => exact .cons ⟨_, isFirst, isSecond⟩ (induction seconds)

namespace Reference

/-! References. -/

/-- A reference to one node that a pattern stands for. -/
structure Matches (single pattern : Reference) : Prop where
  origin : single.origin = pattern.origin
  steps : List.Forall₂ Step.Matches single.steps pattern.steps

theorem exists_matching_steps (patterns : List Step) :
    ∃ singles, List.Forall₂ Step.Matches singles patterns := by
  induction patterns with
  | nil => exact ⟨[], .nil⟩
  | cons pattern patterns induction =>
      rcases Step.exists_matches pattern with ⟨single, here⟩
      rcases induction with ⟨singles, below⟩
      exact ⟨single :: singles, .cons here below⟩

theorem Matches.genericize {single pattern : Reference} (isMatch : single.Matches pattern) :
    single.Matches pattern.genericize := by
  refine ⟨isMatch.origin, ?_⟩
  rw [Reference.genericize, List.forall₂_map_right_iff]
  exact isMatch.steps.imp fun _ _ => Step.Matches.unbound

theorem intersects_iff_exists_matches {left right : Reference} :
    left.intersects right = true ↔
      ∃ single : Reference, single.Matches left ∧ single.Matches right := by
  rw [intersects_iff]
  simp only [Step.overlaps_iff_exists_matches, forall₂_exists_iff]
  constructor
  · intro overlap
    rcases overlap with ⟨origin, singles, inLeft, inRight⟩
    exact ⟨⟨left.origin, singles⟩, ⟨rfl, inLeft⟩, origin, inRight⟩
  · intro found
    rcases found with ⟨single, inLeft, inRight⟩
    exact ⟨inLeft.origin.symm.trans inRight.origin, single.steps, inLeft.steps, inRight.steps⟩

/-! One reference above another. -/

structure IsBeginning (above below : Reference) : Prop where
  origin : above.origin = below.origin
  steps : above.steps <+: below.steps

theorem stepsOverlap_take (left right : List Step) :
    stepsOverlap left (right.take left.length) = stepsOverlap left right := by
  induction left generalizing right with
  | nil => simp [stepsOverlap]
  | cons first left induction =>
      cases right with
      | nil => rfl
      | cons second right =>
          rw [List.length_cons, List.take_succ_cons, stepsOverlap, stepsOverlap, induction]

/-- To cover is to intersect what is left of the other after as many steps. -/
theorem covers_eq_intersects_take (above below : Reference) :
    above.covers below =
      above.intersects { below with steps := below.steps.take above.steps.length } := by
  have lengths : (above.steps.length == min above.steps.length below.steps.length) =
      decide (above.steps.length ≤ below.steps.length) := by
    rw [Bool.eq_iff_iff, beq_iff_eq, decide_eq_true_eq]
    omega
  rw [covers, intersects, stepsOverlap_take, List.length_take, lengths]

theorem Matches.take {single pattern : Reference} (isMatch : single.Matches pattern)
    (count : Nat) : Matches { single with steps := single.steps.take count }
      { pattern with steps := pattern.steps.take count } :=
  ⟨isMatch.origin, List.forall₂_take count isMatch.steps⟩

theorem Matches.exists_extension {first pattern : Reference} {count : Nat}
    (isMatch : first.Matches { pattern with steps := pattern.steps.take count }) :
    ∃ single : Reference, single.Matches pattern ∧ first.IsBeginning single := by
  rcases exists_matching_steps (pattern.steps.drop count) with ⟨rest, below⟩
  refine ⟨{ first with steps := first.steps ++ rest }, ⟨isMatch.origin, ?_⟩, rfl,
    List.prefix_append _ _⟩
  rw [← List.take_append_drop count pattern.steps]
  exact List.rel_append isMatch.steps below

theorem covers_iff_exists_matches {above below : Reference} :
    above.covers below = true ↔ ∃ single : Reference, single.Matches below ∧
      ∃ first : Reference, first.IsBeginning single ∧ first.Matches above := by
  rw [covers_eq_intersects_take, intersects_iff_exists_matches]
  constructor
  · intro found
    rcases found with ⟨first, inAbove, inBelow⟩
    -- The other pattern may have more steps, for which some members have to be chosen.
    rcases inBelow.exists_extension with ⟨single, isMatch, begins⟩
    exact ⟨single, isMatch, first, begins, inAbove⟩
  · intro found
    rcases found with ⟨single, isMatch, first, begins, inAbove⟩
    have count : first.steps.length = above.steps.length := inAbove.steps.length_eq
    have isTaken : first = { single with steps := single.steps.take above.steps.length } := by
      rw [Reference.mk.injEq, ← count]
      exact ⟨begins.origin, List.prefix_iff_eq_take.mp begins.steps⟩
    refine ⟨first, inAbove, ?_⟩
    rw [isTaken]
    exact isMatch.take above.steps.length

/-- Two patterns intersect if they stand for one reference together. One covers another
if it stands for the beginning of a reference that the other stands for. So what intersects
or covers does so all the more with everything left open. -/
theorem intersects_covers_iff_matches (left right : Reference) :
    (left.intersects right = true ↔
      ∃ single : Reference, single.Matches left ∧ single.Matches right) ∧
    (left.covers right = true ↔ ∃ single : Reference, single.Matches right ∧
      ∃ first : Reference, first.IsBeginning single ∧ first.Matches left) ∧
    (left.intersects right = true →
      left.genericize.intersects right = true ∧ left.intersects right.genericize = true) ∧
    (left.covers right = true →
      left.genericize.covers right = true ∧ left.covers right.genericize = true) := by
  refine ⟨intersects_iff_exists_matches, covers_iff_exists_matches, ?_, ?_⟩
  · simp only [intersects_iff_exists_matches]
    intro found
    rcases found with ⟨single, inLeft, inRight⟩
    exact ⟨⟨single, inLeft.genericize, inRight⟩, ⟨single, inLeft, inRight.genericize⟩⟩
  · simp only [covers_iff_exists_matches]
    intro found
    rcases found with ⟨single, inRight, first, begins, inLeft⟩
    exact ⟨⟨single, inRight, first, begins, inLeft.genericize⟩,
      ⟨single, inRight.genericize, first, begins, inLeft⟩⟩

/-- Two houses are apart, and their series is not apart from either. -/
example : let house (position : Nat) := absolute [⟨"house", .index position⟩]
    (house 0).intersects (house 1) = false ∧
      (house 0).genericize.intersects (house 1) = true := by
  decide

end Reference

end ReactiveForm
