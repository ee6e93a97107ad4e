import ReactiveForm.Proofs.Replay

/-! What a path from the root resolves to. Where no two members of a series have the
same number, it is the part of the document that the path intersects. Resolving fails
only where the path leaves the document before its last step. -/

namespace ReactiveForm

namespace AnswerTree

open Reference

variable {tree : AnswerTree}

/-! Places that are where they say. -/

def Place.IsIn (tree : AnswerTree) (place : Place) : Prop :=
  tree.find? place.reference = some place.node

theorem Place.isIn_root (tree : AnswerTree) : Place.IsIn tree ⟨tree.rootReference, tree.root⟩ :=
  find?_rootReference tree

theorem Place.IsIn.below {place next : Place} (isIn : place.IsIn tree)
    (distinct : place.node.IsDistinct) {step : Step} (member : next ∈ place.below step) :
    next.IsIn tree := by
  rw [Place.below] at member
  split at member
  next =>
    rcases List.mem_map.mp member with ⟨child, inSeries, rfl⟩
    rcases List.mem_filter.mp inSeries with ⟨inChildren, isMember⟩
    rcases Node.isMember_iff.mp isMember with ⟨named, live⟩
    rcases distinct.exists_index inChildren live with ⟨position, index⟩
    have bound : child.facts.multiplicity.isBound = true := by rw [index]; rfl
    rw [IsIn, find?_child isIn bound, ← named]
    exact distinct.child?_eq_some inChildren live
  next bound =>
    rcases List.mem_map.mp member with ⟨child, found, rfl⟩
    rw [IsIn, find?_child isIn (Multiplicity.isBound_iff.mpr bound)]
    exact Option.mem_toList.mp found

theorem Place.node_isDistinct (distinct : tree.root.IsDistinct) {place : Place}
    (isIn : place.IsIn tree) : place.node.IsDistinct :=
  find?_hereditary (fun _ => Node.IsDistinct.child) distinct isIn

theorem Place.IsIn.reach (distinct : tree.root.IsDistinct) {steps : List Step} {place next : Place}
    (isIn : place.IsIn tree) (member : next ∈ place.reach steps) : next.IsIn tree := by
  induction steps generalizing place with
  | nil =>
      cases List.mem_singleton.mp member
      exact isIn
  | cons step rest induction =>
      rcases List.mem_flatMap.mp member with ⟨between, first, later⟩
      exact induction (isIn.below (Place.node_isDistinct distinct isIn) first) later

/-- Whatever a reference resolves to, even inside a template, is a node of the tree. -/
theorem exists_of_mem_expandAbsolute (distinct : tree.root.IsDistinct) {reference : Reference}
    {found : List Reference} (expanded : tree.expandAbsolute reference = .ok found)
    {place : Reference} (member : place ∈ found) : ∃ node, tree.find? place = some node := by
  rcases reference with ⟨origin, steps⟩
  cases steps with
  | nil =>
      cases expanded
      cases member
  | cons first rest =>
      rcases reach_of_expandAbsolute expanded with ⟨-, rfl⟩
      rcases List.mem_map.mp member with ⟨next, reached, rfl⟩
      exact ⟨next.node, (Place.isIn_root tree).reach distinct reached⟩

theorem follow_append_of_descendant? {whole : Reference} {path rest : List Step} {place : Place}
    {node : Node} (bound : ∀ step ∈ path, step.multiplicity.isBound = true)
    (reached : place.node.descendant? path = some node) :
    follow whole (path ++ rest) [place] =
      follow whole rest [⟨{ place.reference with steps := place.reference.steps ++ path }, node⟩] := by
  induction path generalizing place with
  | nil =>
      cases reached
      simp
  | cons step path induction =>
      rcases List.forall_mem_cons.mp bound with ⟨here, bound⟩
      rcases Option.bind_eq_some_iff.mp reached with ⟨child, found, reached⟩
      have named : place.node.hasChildNamed step.name = true :=
        Node.hasChildNamed_iff.mpr ⟨child, List.mem_of_find?_eq_some found, by
          have isAt := List.find?_some found
          simp only [Node.isAt, Bool.and_eq_true, beq_iff_eq] at isAt
          exact isAt.1⟩
      have below : place.below step =
          [⟨place.reference.child step.name step.multiplicity, child⟩] := by
        rw [Place.below]
        split
        next unbound =>
          rw [unbound] at here
          cases here
        next => simp [found]
      have next : [place].mapM (Place.next whole step (path ++ rest).isEmpty) =
          .ok [[⟨place.reference.child step.name step.multiplicity, child⟩]] := by
        rw [List.mapM_cons, Place.next, if_pos named, below]
        rfl
      rw [List.cons_append, follow_cons, next]
      refine (induction bound reached).trans ?_
      simp [Reference.child]

theorem follow_singleton (whole : Reference) (step : Step) (place : Place) :
    follow whole [step] [place] = .ok (place.below step) := by
  have next : [place].mapM (Place.next whole step true) = .ok [place.below step] := by
    rw [List.mapM_cons, Place.next]
    cases named : place.node.hasChildNamed step.name with
    | true => rfl
    | false =>
        rw [Place.below_eq_nil named]
        rfl
  rw [follow_cons, List.isEmpty_nil, next]
  simp [follow, Except.bind]

theorem expand_series {parent : Reference} {node : Node} (found : tree.find? parent = some node)
    (name : String) : tree.expand (parent.child name .unbound) none =
      .ok ((node.members name).map fun member => parent.child name member.facts.multiplicity) := by
  rcases parent_steps found with ⟨path, isPlace, steps, -, reached⟩
  rcases parent with ⟨origin, whole⟩
  cases isPlace.absolute
  cases steps
  have isRoot : Step.overlaps ⟨tree.root.facts.name, .index 0⟩
      ⟨tree.root.facts.name, .index 0⟩ = true := by
    simp [Step.overlaps, Multiplicity.overlaps]
  have bound := (List.forall_mem_cons.mp isPlace.bound).2
  have followed (whole : Reference) :
      follow whole (path ++ [Step.unbound name]) [⟨tree.rootReference, tree.root⟩] = .ok _ :=
    (follow_append_of_descendant? bound reached).trans (follow_singleton _ _ _)
  rw [expand, if_pos (by rfl), expandAbsolute]
  simp only [Reference.child, List.cons_append]
  rw [if_pos isRoot]
  refine (congrArg _ (followed _)).trans ?_
  simp [Except.map, Place.below, Step.unbound, rootReference, Reference.root, Reference.absolute,
    Reference.child]

/-! Where a path leaves the document. -/

theorem Place.next_eq_error_iff {whole : Reference} {step : Step} {isLast : Bool} {place : Place} :
    (∃ error, place.next whole step isLast = .error error) ↔
      isLast = false ∧ place.node.hasChildNamed step.name = false := by
  rw [Place.next]
  cases place.node.hasChildNamed step.name <;> cases isLast <;> simp

theorem mapM_next_eq_error_iff {whole : Reference} {step : Step} {isLast : Bool}
    {places : List Place} :
    (∃ error, places.mapM (Place.next whole step isLast) = .error error) ↔
      isLast = false ∧ ∃ place ∈ places, place.node.hasChildNamed step.name = false := by
  induction places with
  | nil =>
      constructor
      · rintro ⟨error, failed⟩
        cases failed
      · rintro ⟨-, place, member, -⟩
        cases member
  | cons place rest induction =>
      rw [List.mapM_cons, List.exists_mem_cons_iff, and_or_left, ← induction,
        ← @Place.next_eq_error_iff whole]
      cases place.next whole step isLast with
      | error error => exact iff_of_true ⟨error, rfl⟩ (.inl ⟨error, rfl⟩)
      | ok here =>
          cases rest.mapM (Place.next whole step isLast) with
          | error error => exact iff_of_true ⟨error, rfl⟩ (.inr ⟨error, rfl⟩)
          | ok others =>
              have fine {α : Type} (result : α) :
                  ¬∃ error : TreeError, Except.ok result = Except.error error :=
                fun ⟨_, failed⟩ => nomatch failed
              exact iff_of_false (fine _) (not_or.mpr ⟨fine _, fine _⟩)

theorem follow_eq_error_iff {whole : Reference} {steps : List Step} {places : List Place} :
    (∃ error, follow whole steps places = .error error) ↔
      ∃ before step after, steps = before ++ step :: after ∧ after ≠ [] ∧
        ∃ reached ∈ places.flatMap (Place.reach before),
          reached.node.hasChildNamed step.name = false := by
  induction steps generalizing places with
  | nil => simp [follow]
  | cons step rest induction =>
      have here := @mapM_next_eq_error_iff whole step rest.isEmpty places
      rw [List.isEmpty_eq_false_iff] at here
      rw [follow_cons]
      cases next : places.mapM (Place.next whole step rest.isEmpty) with
      | error error =>
          rcases here.mp ⟨error, next⟩ with ⟨more, place, member, stuck⟩
          have atOnce : place ∈ places.flatMap (Place.reach []) :=
            List.mem_flatMap.mpr ⟨place, member, List.mem_singleton_self place⟩
          exact iff_of_true ⟨error, rfl⟩ ⟨[], step, rest, rfl, more, place, atOnce, stuck⟩
      | ok below =>
          have places_below : below.flatten = places.flatMap (·.below step) := by
            rw [mapM_next_ok next, List.flatMap_def]
          refine (@induction below.flatten).trans ?_
          rw [places_below]
          constructor
          · rintro ⟨before, later, after, rfl, more, stuck⟩
            exact ⟨step :: before, later, after, rfl, more, by rwa [List.flatMap_assoc] at stuck⟩
          · rintro ⟨before, later, after, path, more, reached, member, stuck⟩
            cases before with
            | nil =>
                cases path
                rcases List.mem_flatMap.mp member with ⟨place, inPlaces, atOnce⟩
                cases List.mem_singleton.mp atOnce
                rcases here.mpr ⟨more, reached, inPlaces, stuck⟩ with ⟨error, failed⟩
                cases next.symm.trans failed
            | cons first before =>
                cases path
                exact ⟨before, later, after, rfl, more, reached, by rwa [List.flatMap_assoc], stuck⟩

/-- Before its last step a path leaves the document: a live node that the steps so far
denote has no child of the next name, not even a template. -/
def Strays (tree : AnswerTree) (steps : List Step) : Prop :=
  ∃ before step after, steps = before ++ step :: after ∧ before ≠ [] ∧ after ≠ [] ∧
    ∃ place ∈ tree.references, (Reference.absolute before).intersects place = true ∧
      ∃ node, tree.find? place = some node ∧ node.hasChildNamed step.name = false

theorem strays_cons_iff (distinct : tree.root.IsDistinct) {first : Step} {rest : List Step}
    (overlaps : first.overlaps ⟨tree.root.facts.name, .index 0⟩ = true)
    (live : ∀ step ∈ rest, step.multiplicity ≠ .template) :
    tree.Strays (first :: rest) ↔
      ∃ before step after, rest = before ++ step :: after ∧ after ≠ [] ∧
        ∃ reached ∈ Place.reach before ⟨tree.rootReference, tree.root⟩,
          reached.node.hasChildNamed step.name = false := by
  constructor
  · rintro ⟨before, step, after, path, some, more, place, member, intersects, node, found, stuck⟩
    cases before with
    | nil => exact absurd rfl some
    | cons other before =>
        cases path
        have inFilter := List.mem_filter.mpr ⟨member, intersects⟩
        rw [← reach_eq_references distinct overlaps fun step inBefore =>
          live step (List.mem_append_left _ inBefore)] at inFilter
        rcases List.mem_map.mp inFilter with ⟨reached, isReached, rfl⟩
        have isIn := (Place.isIn_root tree).reach distinct isReached
        cases found.symm.trans isIn
        exact ⟨before, step, after, rfl, more, reached, isReached, stuck⟩
  · rintro ⟨before, step, after, rfl, more, reached, isReached, stuck⟩
    have inFilter := List.mem_map_of_mem (f := (·.reference)) isReached
    rw [reach_eq_references distinct overlaps fun step inBefore =>
      live step (List.mem_append_left _ inBefore)] at inFilter
    rcases List.mem_filter.mp inFilter with ⟨member, intersects⟩
    exact ⟨first :: before, step, after, rfl, List.cons_ne_nil _ _, more, reached.reference,
      member, intersects, reached.node, (Place.isIn_root tree).reach distinct isReached, stuck⟩

/-! Resolving. -/

/-- A path from the root that enters no template resolves to the live nodes that it
intersects, each once and in document order. It fails where its first step is not the
root, and where it strays. -/
theorem expand_filters (distinct : tree.root.IsDistinct) {first : Step} {rest : List Step}
    (live : ∀ step ∈ first :: rest, step.multiplicity ≠ .template) :
    (∀ found, tree.expand (.absolute (first :: rest)) none = .ok found →
      found = tree.references.filter ((Reference.absolute (first :: rest)).intersects ·) ∧
        found.Nodup ∧ ∀ place ∈ found, ∃ node, tree.find? place = some node) ∧
    ((∃ error, tree.expand (.absolute (first :: rest)) none = .error error) ↔
      first.overlaps ⟨tree.root.facts.name, .index 0⟩ = false ∨ tree.Strays (first :: rest)) := by
  rcases List.forall_mem_cons.mp live with ⟨-, below⟩
  have plain : tree.expand (.absolute (first :: rest)) none =
    tree.expandAbsolute (.absolute (first :: rest)) := rfl
  rw [plain]
  constructor
  · intro found expanded
    have filtered := expandAbsolute_ok distinct rfl live expanded
    refine ⟨filtered, ?_, fun place => exists_of_mem_expandAbsolute distinct expanded⟩
    rw [filtered]
    exact (nodup_referencesFrom (find?_rootReference tree) distinct).filter _
  · simp only [expandAbsolute, Reference.absolute]
    split
    next overlaps =>
      rw [strays_cons_iff distinct overlaps below, overlaps]
      have fails := @follow_eq_error_iff ⟨.absolute, first :: rest⟩ rest
        [⟨tree.rootReference, tree.root⟩]
      simp only [List.flatMap_singleton] at fails
      rw [← fails]
      cases follow ⟨.absolute, first :: rest⟩ rest [⟨tree.rootReference, tree.root⟩] <;>
        simp [Except.map]
    next apart => exact iff_of_true ⟨_, rfl⟩ (.inl (by simpa using apart))

end AnswerTree

/-! A list that ends with the template of its items. -/

namespace Order

def pile : Definition where
  id := none
  title := "pile"
  skeleton :=
    let item (isTemplate : Bool) (price : String) : Skeleton :=
      { Skeleton.ofName "item" with
        isTemplate,
        children := [{ Skeleton.ofName "price" with type := .int, value := some price }] }
    { Skeleton.ofName "data" with children := [item false "10", item false "20", item true "5"] }
  binds := []

end Order

/-- With a new first item, which stands last, the prices are those of the items 1, 2 and 0.
No item has a cost, and one can not ask for its unit. -/
theorem pile_expand_filters : ∃ tree grown inserted,
    Order.pile.tree .standard = .ok tree ∧
    tree.insert Order.place "item" 0 = .ok (grown, inserted) ∧
    grown.root.IsDistinct ∧
    grown.expand (Order.every ["item", "price"]) none =
      .ok [Order.ofItem 1 "price", Order.ofItem 2 "price", Order.ofItem 0 "price"] ∧
    [Order.ofItem 1 "price", Order.ofItem 2 "price", Order.ofItem 0 "price"] =
      grown.references.filter ((Order.every ["item", "price"]).intersects ·) ∧
    grown.expand (Order.every ["item", "cost"]) none = .ok [] ∧
    grown.Strays ((Order.every ["item", "cost", "unit"]).steps) := by
  have ready : (Order.pile.tree .standard).toOption.any (fun tree =>
      (tree.insert Order.place "item" 0).toOption.any fun (grown, _) =>
        decide (grown.root.facts.name = "data" ∧
          grown.expand (Order.every ["item", "price"]) none =
            .ok [Order.ofItem 1 "price", Order.ofItem 2 "price", Order.ofItem 0 "price"] ∧
          grown.expand (Order.every ["item", "cost"]) none = .ok [] ∧
          grown.expand (Order.every ["item", "cost", "unit"]) none =
            .error (.unresolvable (Order.every ["item", "cost", "unit"]) "cost"
              (Order.place.child "item" (.index 1))))) = true := by
    decide +kernel
  rcases exists_ok_of_any ready with ⟨tree, described, ready⟩
  rcases exists_ok_of_any ready with ⟨⟨grown, inserted⟩, done, ready⟩
  rcases of_decide_eq_true ready with ⟨named, prices, costs, units⟩
  have distinct := AnswerTree.lasting_isDistinct.insert
    (.of_numbered (Definition.tree_numbered described)) done
  have live (names : List String) :
      ∀ step ∈ Step.unbound "data" :: names.map Step.unbound, step.multiplicity ≠ .template := by
    simp [Step.unbound]
  have isRoot : (Step.unbound "data").overlaps ⟨grown.root.facts.name, .index 0⟩ = true := by
    rw [named]
    rfl
  have priced := (AnswerTree.expand_filters distinct (live ["item", "price"])).1 _ prices
  have strayed := (AnswerTree.expand_filters distinct (live ["item", "cost", "unit"])).2.mp ⟨_, units⟩
  rw [isRoot] at strayed
  exact ⟨tree, grown, inserted, described, done, distinct, prices, priced.1, costs,
    strayed.resolve_left Bool.noConfusion⟩

end ReactiveForm
