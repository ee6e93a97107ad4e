import ReactiveForm.Proofs.Restoring

/-! Where a rule fires for some anchors. Its target takes over the steps of an anchor as
far as their names agree, and from there on every member is meant. So it leads to all nodes
of the target that are, as far as the names agree, in the members of the anchor. -/

namespace ReactiveForm

/-! Lists. -/

theorem nodup_eraseDups {α : Type} [BEq α] [LawfulBEq α] :
    ∀ list : List α, list.eraseDups.Nodup
  | [] => List.nodup_nil
  | first :: rest => by
      rw [List.eraseDups_cons, List.nodup_cons]
      constructor
      · simp [List.mem_eraseDups]
      · exact nodup_eraseDups (rest.filter fun other => !other == first)
termination_by list => list.length
decreasing_by exact Nat.lt_succ_of_le (List.length_filter_le _ _)

theorem forall₂_append_iff {α β : Type} {relation : α → β → Prop} {first second : List α}
    {list : List β} :
    List.Forall₂ relation (first ++ second) list ↔
      List.Forall₂ relation first (list.take first.length) ∧
        List.Forall₂ relation second (list.drop first.length) := by
  constructor
  · intro each
    have taken := List.forall₂_take first.length each
    have dropped := List.forall₂_drop first.length each
    rw [List.take_left] at taken
    rw [List.drop_left] at dropped
    exact ⟨taken, dropped⟩
  · intro parts
    rw [← List.take_append_drop first.length list]
    exact List.rel_append parts.1 parts.2

theorem Step.list_ext {left right : List Step} (names : left.map Step.name = right.map Step.name)
    (multiplicities : left.map Step.multiplicity = right.map Step.multiplicity) : left = right := by
  induction left generalizing right with
  | nil =>
      cases right with
      | nil => rfl
      | cons _ _ => cases names
  | cons first left induction =>
      cases right with
      | nil => cases names
      | cons second right =>
          rcases List.cons.inj names with ⟨sameName, names⟩
          rcases List.cons.inj multiplicities with ⟨sameMultiplicity, multiplicities⟩
          rw [induction names multiplicities, List.cons.injEq, Step.mk.injEq]
          exact ⟨⟨sameName, sameMultiplicity⟩, rfl⟩

/-! What steps lead to where no two siblings have the same key. -/

theorem Node.cons_mem_live_iff {node : Node} {first : Step} {path : List Step} :
    first :: path ∈ node.live.map (·.1) ↔ ∃ child ∈ node.children,
      child.isTemplate = false ∧ child.step = first ∧ path ∈ child.live.map (·.1) := by
  have under (child : Node) : first :: path ∈ (child.live.map (Entry.under child.step)).map (·.1) ↔
      child.step = first ∧ path ∈ child.live.map (·.1) := by
    simp [Entry.under, and_comm]
  rw [live_eq, List.map_cons, List.mem_cons, liveAll_eq_flatMap, List.map_flatMap,
    List.mem_flatMap]
  simp only [under, List.mem_filter, Bool.not_eq_true', reduceCtorEq, false_or, and_assoc]

theorem Node.isTemplate_eq_false_iff {node : Node} :
    node.isTemplate = false ↔ node.step.multiplicity ≠ .template := by
  simp [isTemplate, step]

namespace AnswerTree

theorem Place.mem_below_iff {place next : Place} (keyed : place.node.IsKeyed) {step : Step}
    (live : step.multiplicity ≠ .template) : next ∈ place.below step ↔
      ∃ child ∈ place.node.children, child.isTemplate = false ∧ Denotes step child.step ∧
        next = ⟨place.reference.child child.facts.name child.facts.multiplicity, child⟩ := by
  rw [below]
  split
  next unbound =>
    rw [List.mem_map]
    constructor
    · intro found
      rcases found with ⟨child, inSeries, rfl⟩
      rcases List.mem_filter.mp inSeries with ⟨inChildren, isMember⟩
      rcases Node.isMember_iff.mp isMember with ⟨named, isLive⟩
      have notTemplate := Node.isTemplate_eq_false_iff.mp isLive
      have denotes := (denotes_of_unbound unbound notTemplate).mpr named.symm
      refine ⟨child, inChildren, isLive, denotes, ?_⟩
      rw [named]
    · intro found
      rcases found with ⟨child, inChildren, isLive, denotes, rfl⟩
      have notTemplate := Node.isTemplate_eq_false_iff.mp isLive
      have named : step.name = child.facts.name :=
        (denotes_of_unbound unbound notTemplate).mp denotes
      have isMember := Node.isMember_iff.mpr ⟨named.symm, isLive⟩
      refine ⟨child, List.mem_filter.mpr ⟨inChildren, isMember⟩, ?_⟩
      rw [named]
  next isBound =>
    simp only [List.mem_map, Option.mem_toList,
      denotes_of_bound (Multiplicity.isBound_iff.mpr isBound)]
    constructor
    · intro found
      rcases found with ⟨child, isChild, rfl⟩
      have isAt := List.find?_some isChild
      simp only [Node.isAt, Bool.and_eq_true, beq_iff_eq] at isAt
      refine ⟨child, List.mem_of_find?_eq_some isChild, ?_, ?_, ?_⟩
      · simpa [Node.isTemplate, isAt.2] using live
      · rw [Node.step, isAt.1, isAt.2]
      · rw [isAt.1, isAt.2]
    · intro found
      rcases found with ⟨child, inChildren, isLive, rfl, rfl⟩
      exact ⟨child, keyed.child?_eq_some inChildren isLive, rfl⟩

theorem Place.mem_reach_iff {steps path : List Step} {place : Place} (keyed : place.node.IsKeyed)
    (live : ∀ step ∈ steps, step.multiplicity ≠ .template) :
    { place.reference with steps := place.reference.steps ++ path } ∈
        (place.reach steps).map (·.reference) ↔
      path ∈ place.node.live.map (·.1) ∧ List.Forall₂ Denotes steps path := by
  induction steps generalizing place path with
  | nil =>
      rw [List.forall₂_nil_left_iff, reach, List.map_singleton, List.mem_singleton]
      -- No steps lead to the node itself, and the path to it is empty.
      constructor
      · intro same
        have none : path = [] := by simpa using congrArg Reference.steps same
        rw [none, Node.live_eq]
        exact ⟨List.mem_cons_self, rfl⟩
      · intro here
        rw [here.2, List.append_nil]
  | cons step steps induction =>
      rcases List.forall_mem_cons.mp live with ⟨here, liveBelow⟩
      constructor
      · intro member
        rcases List.mem_map.mp member with ⟨next, reached, whole⟩
        rcases List.mem_flatMap.mp reached with ⟨between, first, later⟩
        rcases (mem_below_iff keyed here).mp first with ⟨child, inChildren, isLive, denotes, rfl⟩
        rcases reach_denotes later with ⟨rest, -, same⟩
        -- The references of both ends say that the path leads through the child.
        have isPath : path = child.step :: rest := by
          simpa [Reference.child, Node.step] using congrArg Reference.steps (whole.symm.trans same)
        rcases (induction (keyed.child child inChildren) liveBelow).mp
          (List.mem_map.mpr ⟨next, later, same⟩) with ⟨inLive, below⟩
        rw [isPath]
        exact ⟨Node.cons_mem_live_iff.mpr ⟨child, inChildren, isLive, rfl, inLive⟩,
          .cons denotes below⟩
      · intro found
        rcases found with ⟨inLive, denotes⟩
        cases denotes with
        | cons first below =>
            rcases Node.cons_mem_live_iff.mp inLive with ⟨child, inChildren, isLive, rfl, inBelow⟩
            have isBelow := (mem_below_iff keyed here).mpr ⟨child, inChildren, isLive, first, rfl⟩
            have reached := (@induction _ (Place.mk
              (place.reference.child child.facts.name child.facts.multiplicity) child)
              (keyed.child child inChildren) liveBelow).mpr ⟨inBelow, below⟩
            rcases List.mem_map.mp reached with ⟨next, later, same⟩
            refine List.mem_map.mpr ⟨next, List.mem_flatMap.mpr ⟨_, isBelow, later⟩, ?_⟩
            rw [same]
            simp [Reference.child, Node.step]

theorem mem_expand_iff {tree : AnswerTree} (keyed : tree.root.IsKeyed) {reference : Reference}
    (absolute : reference.origin = .absolute)
    (live : ∀ step ∈ reference.steps, step.multiplicity ≠ .template) {context : Option Reference}
    {found : List Reference} (expanded : tree.expand reference context = .ok found)
    {place : Reference} : place ∈ found ↔
      place ∈ tree.references ∧ List.Forall₂ Denotes reference.steps place.steps := by
  rw [expand_of_absolute absolute] at expanded
  rcases reference with ⟨origin, steps⟩
  cases absolute
  rw [references_eq_paths, List.mem_map]
  cases steps with
  | nil =>
      cases expanded
      constructor
      · intro member
        cases member
      · intro both
        rcases both with ⟨⟨path, -, rfl⟩, denotes⟩
        cases denotes
  | cons first rest =>
      rcases reach_of_expandAbsolute expanded with ⟨overlaps, rfl⟩
      have below (path : List Step) := @Place.mem_reach_iff rest path
        ⟨tree.rootReference, tree.root⟩ keyed (List.forall_mem_cons.mp live).2
      constructor
      · intro member
        rcases List.mem_map.mp member with ⟨next, reached, rfl⟩
        rcases Place.reach_denotes reached with ⟨path, -, whole⟩
        rcases (below path).mp (List.mem_map.mpr ⟨next, reached, whole⟩) with ⟨inLive, denotes⟩
        rw [whole]
        exact ⟨⟨path, inLive, rfl⟩, .cons (denotes_of_overlaps_index overlaps) denotes⟩
      · intro both
        rcases both with ⟨⟨path, inLive, rfl⟩, denotes⟩
        cases denotes with
        | cons _ denotes => exact (below path).mpr ⟨inLive, denotes⟩

theorem of_mem_references {tree : AnswerTree} {place : Reference}
    (member : place ∈ tree.references) :
    place.origin = .absolute ∧ ∀ step ∈ place.steps, step.multiplicity ≠ .template := by
  rw [references_eq_paths] at member
  rcases List.mem_map.mp member with ⟨path, inPaths, rfl⟩
  rcases List.mem_map.mp inPaths with ⟨entry, inLive, rfl⟩
  exact ⟨rfl, List.forall_mem_cons.mpr
    ⟨Multiplicity.noConfusion, Node.not_template_of_mem_live inLive⟩⟩

end AnswerTree

/-! What a pattern denotes for some context. -/

namespace Reference

/-- As far as the names of a pattern and an anchor agree, a place has the multiplicities of
the anchor. -/
def Carries (place anchor pattern : Reference) : Prop :=
  (place.steps.take (pattern.shared anchor)).map Step.multiplicity =
    (anchor.steps.take (pattern.shared anchor)).map Step.multiplicity

/-- A pattern denotes all that has its names and, as far as these agree with the names of the
context, the same members as the context. -/
theorem forall₂_denotes_anchorSteps {pattern context path : List Step}
    (unbound : ∀ step ∈ pattern, step.multiplicity = .unbound)
    (bound : ∀ step ∈ context, step.multiplicity.isBound = true)
    (live : ∀ step ∈ path, step.multiplicity ≠ .template) :
    List.Forall₂ AnswerTree.Denotes (anchorSteps pattern context) path ↔
      pattern.map Step.name = path.map Step.name ∧
        (path.take (sharedSteps pattern context)).map Step.multiplicity =
          (context.take (sharedSteps pattern context)).map Step.multiplicity := by
  rcases le_sharedSteps_iff.mp (Nat.le_refl (sharedSteps pattern context)) with
    ⟨-, inContext, agree⟩
  rw [anchorSteps_eq_append unbound, forall₂_append_iff, List.length_take_of_le inContext,
    AnswerTree.forall₂_denotes_of_bound fun step member => bound step (List.mem_of_mem_take member),
    AnswerTree.forall₂_denotes_of_unbound
      (fun step member => unbound step (List.mem_of_mem_drop member))
      fun step member => live step (List.mem_of_mem_drop member)]
  -- Up to this count the names agree; that it is the greatest one plays no part from here on.
  generalize sharedSteps pattern context = count at agree
  constructor
  · intro parts
    rcases parts with ⟨taken, others⟩
    refine ⟨?_, congrArg _ taken⟩
    rw [← List.take_append_drop count pattern, List.map_append, agree, ← taken, others,
      ← List.map_append, List.take_append_drop]
  · intro both
    rcases both with ⟨names, multiplicities⟩
    refine ⟨Step.list_ext ?_ multiplicities, ?_⟩
    · rw [← agree, List.map_take, List.map_take, names]
    · rw [List.map_drop, List.map_drop, names]

end Reference

/-! Where a rule fires. -/

namespace Engine

variable {tree : AnswerTree} {rule : Rule} {place : Reference}

theorem mem_targetsNear_iff (keyed : tree.root.IsKeyed) (isPattern : rule.target.IsPattern)
    {anchor : Reference} (live : anchor.IsLive) {found : List Reference}
    (located : targetsNear tree rule anchor = .ok found) : place ∈ found ↔
      place ∈ tree.references ∧ rule.target.intersects place = true ∧
        place.Carries anchor rule.target := by
  have anchored := Reference.anchor_of_absolute isPattern.absolute live.absolute
  rw [targetsNear, anchored] at located
  rw [AnswerTree.mem_expand_iff keyed rfl (isPattern.not_template_of_anchor live anchored) located]
  apply and_congr_right
  intro member
  rcases AnswerTree.of_mem_references member with ⟨absolute, placeLive⟩
  rw [Reference.absolute, Reference.forall₂_denotes_anchorSteps isPattern.unbound
    live.isPlace.bound placeLive, Reference.Carries, Reference.shared, Reference.intersects_iff,
    Reference.forall₂_overlaps_of_unbound isPattern.unbound, isPattern.absolute, absolute,
    eq_self_iff_true, true_and]

/-- Where no two siblings have the same key, the targets of a rule near some anchors are,
each once, the live nodes of its target that carry the multiplicities of one of the anchors
as far as the names of target and anchor agree. -/
theorem targets_carry_anchor (keyed : tree.root.IsKeyed) (isPattern : rule.target.IsPattern)
    {anchors : List Reference} (nonempty : anchors ≠ []) (live : ∀ anchor ∈ anchors, anchor.IsLive)
    {found : List Reference} (located : targets tree rule anchors = .ok found) :
    found.Nodup ∧ ∀ place, place ∈ found ↔
      place ∈ tree.references ∧ rule.target.intersects place = true ∧
        ∃ anchor ∈ anchors, place.Carries anchor rule.target := by
  constructor
  · rw [targets, if_neg (by simpa using nonempty)] at located
    rcases map_eq_ok.mp located with ⟨lists, -, rfl⟩
    exact nodup_eraseDups lists.flatten
  · intro place
    rcases mem_targets nonempty located with ⟨near, far⟩
    constructor
    · intro member
      rcases far place member with ⟨anchor, inAnchors, places, isNear, inNear⟩
      rcases (mem_targetsNear_iff keyed isPattern (live anchor inAnchors) isNear).mp inNear with
        ⟨inTree, isTarget, carries⟩
      exact ⟨inTree, isTarget, anchor, inAnchors, carries⟩
    · intro found
      rcases found with ⟨inTree, isTarget, anchor, inAnchors, carries⟩
      rcases near anchor inAnchors with ⟨places, isNear, subset⟩
      apply subset
      exact (mem_targetsNear_iff keyed isPattern (live anchor inAnchors) isNear).mpr
        ⟨inTree, isTarget, carries⟩

end Engine

/-! Parcels that are weighed again. -/

namespace Order

def nodeAt (path : List (String × Nat)) : Reference :=
  .absolute (⟨"data", .index 0⟩ :: path.map fun entry => ⟨entry.1, .index entry.2⟩)

theorem nodeAt_isLive (path : List (String × Nat)) : (nodeAt path).IsLive := by
  refine ⟨rfl, List.forall_mem_cons.mpr ⟨⟨0, rfl⟩, ?_⟩⟩
  exact List.forall_mem_map.mpr fun entry _ => ⟨entry.2, rfl⟩

def weighing : Rule where
  effect := .required
  expression := .count (every ["box"])
  target := every ["box", "parcel"]
  triggers := []

def touched : List Reference :=
  [nodeAt [("box", 1), ("parcel", 0)], nodeAt [("box", 0)], nodeAt [("box", 0), ("seal", 2)],
    nodeAt [("box", 0), ("parcel", 1)]]

end Order

/-- The seal leads to the parcels of its box, though the box has no seal. -/
theorem packed_targets_carry_anchor : ∃ tree found,
    Order.packed.tree .standard = .ok tree ∧ tree.root.IsKeyed ∧
    Engine.targets tree Order.weighing Order.touched = .ok found ∧
    found = [Order.nodeAt [("box", 1), ("parcel", 0)], Order.nodeAt [("box", 0), ("parcel", 0)],
      Order.nodeAt [("box", 0), ("parcel", 1)]] ∧
    found.Nodup ∧ ∀ place, place ∈ found ↔
      place ∈ tree.references ∧ (Order.every ["box", "parcel"]).intersects place = true ∧
        ∃ anchor ∈ Order.touched, place.Carries anchor (Order.every ["box", "parcel"]) := by
  have ready : (Order.packed.tree .standard).toOption.any (fun tree =>
      decide (Engine.targets tree Order.weighing Order.touched =
        .ok [Order.nodeAt [("box", 1), ("parcel", 0)], Order.nodeAt [("box", 0), ("parcel", 0)],
          Order.nodeAt [("box", 0), ("parcel", 1)]])) = true := by
    decide +kernel
  rcases exists_ok_of_any ready with ⟨tree, described, ready⟩
  have located := of_decide_eq_true ready
  have keyed := (Node.IsDistinct.of_numbered (Definition.tree_numbered described)).isKeyed
  have isPattern : Order.weighing.target.IsPattern := by decide
  have live : ∀ anchor ∈ Order.touched, anchor.IsLive := by
    simp [Order.touched, Order.nodeAt_isLive]
  have carried := Engine.targets_carry_anchor keyed isPattern (by decide) live located
  exact ⟨tree, _, described, keyed, located, rfl, carried⟩

end ReactiveForm
