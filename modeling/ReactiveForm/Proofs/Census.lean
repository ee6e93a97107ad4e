import Mathlib.Data.List.Nodup
import ReactiveForm.Proofs.Nearness
import ReactiveForm.Proofs.Outline

/-! The live nodes of a tree in document order. Where no two members of a series
have the same number, a reference denotes exactly the live nodes that it
intersects. -/

namespace ReactiveForm

/-! Live nodes. -/

def Node.step (node : Node) : Step := ⟨node.facts.name, node.facts.multiplicity⟩

def Entry.under (step : Step) (entry : List Step × Facts) : List Step × Facts :=
  (step :: entry.1, entry.2)

mutual

def Node.live : Node → List (List Step × Facts)
  | ⟨facts, children⟩ => ([], facts) :: Node.liveAll children

def Node.liveAll : List Node → List (List Step × Facts)
  | [] => []
  | node :: rest =>
      if node.isTemplate then liveAll rest
      else node.live.map (Entry.under node.step) ++ liveAll rest

end

namespace Node

theorem liveAll_eq_flatMap : ∀ nodes : List Node,
    liveAll nodes =
      (nodes.filter (!·.isTemplate)).flatMap fun node => node.live.map (Entry.under node.step)
  | [] => rfl
  | node :: rest => by
      rw [liveAll, liveAll_eq_flatMap rest]
      cases template : node.isTemplate <;> simp [template]

theorem live_eq (node : Node) : node.live = ([], node.facts) :: liveAll node.children := by
  cases node
  rw [live]

theorem not_template_of_mem_live {node : Node} {entry : List Step × Facts}
    (member : entry ∈ node.live) : ∀ step ∈ entry.1, step.multiplicity ≠ .template := by
  induction node using Node.induct generalizing entry with
  | step facts children induction =>
      rw [live_eq, List.mem_cons] at member
      rcases member with rfl | below
      · exact fun _ nothing => nomatch nothing
      · rw [liveAll_eq_flatMap] at below
        rcases List.mem_flatMap.mp below with ⟨child, isChild, inBelow⟩
        rcases List.mem_map.mp inBelow with ⟨lower, inLive, rfl⟩
        rcases List.mem_filter.mp isChild with ⟨inChildren, live⟩
        refine List.forall_mem_cons.mpr ⟨?_, induction child inChildren inLive⟩
        simpa [isTemplate, Node.step] using live

theorem references_eq_live (node : Node) (place : Reference) :
    node.references place =
      node.live.map fun entry => { place with steps := place.steps ++ entry.1 } := by
  induction node using Node.induct generalizing place with
  | step facts children induction =>
      have below : ∀ nodes : List Node,
          (∀ node ∈ nodes, ∀ place : Reference, node.references place =
            node.live.map fun entry => { place with steps := place.steps ++ entry.1 }) →
          referencesUnder place nodes =
            (liveAll nodes).map fun entry => { place with steps := place.steps ++ entry.1 } := by
        intro nodes
        induction nodes with
        | nil => intro _; rfl
        | cons node rest tail =>
            intro each
            rcases List.forall_mem_cons.mp each with ⟨head, each⟩
            rw [referencesUnder, liveAll, tail each]
            cases template : node.isTemplate with
            | true => rfl
            | false =>
                simp [head, Reference.child, Entry.under, Node.step, Function.comp_def]
      rw [references, live, below children induction]
      simp

/-! Numbers. -/

def numbers (name : String) (children : List Node) : List Multiplicity :=
  (children.filter (isMember name)).map (·.facts.multiplicity)

def Counted (name : String) (children : List Node) : Prop :=
  ∃ count, (children.filter (isMember name)).map (·.facts.multiplicity) =
    (List.range count).map .index

/-- The members of every series are numbered. -/
inductive Numbered : Node → Prop where
  | intro {facts : Facts} {children : List Node} (counted : ∀ name, Counted name children)
      (below : ∀ child ∈ children, child.Numbered) : Numbered ⟨facts, children⟩

namespace Numbered

variable {node : Node}

theorem child (numbered : node.Numbered) : ∀ child ∈ node.children, child.Numbered := by
  cases numbered with
  | intro _ below => exact below

theorem counted (numbered : node.Numbered) (name : String) : Counted name node.children := by
  cases numbered with
  | intro counted _ => exact counted name

end Numbered

/-! Live nodes that are the only ones at their steps. -/

/-- At this node and below it, no two children that are no templates have the same name
and multiplicity. -/
inductive IsKeyed : Node → Prop where
  | intro {facts : Facts} {children : List Node}
      (distinct : ∀ name, (numbers name children).Nodup)
      (below : ∀ child ∈ children, child.IsKeyed) : IsKeyed ⟨facts, children⟩

namespace IsKeyed

variable {node : Node}

theorem child (keyed : node.IsKeyed) : ∀ child ∈ node.children, child.IsKeyed := by
  cases keyed with
  | intro _ below => exact below

theorem distinct (keyed : node.IsKeyed) (name : String) : (numbers name node.children).Nodup := by
  cases keyed with
  | intro distinct _ => exact distinct name

theorem child?_eq_some (keyed : node.IsKeyed) {child : Node} (member : child ∈ node.children)
    (live : child.isTemplate = false) :
    node.child? child.facts.name child.facts.multiplicity = some child := by
  have isAt : isAt child.facts.name child.facts.multiplicity child = true := by simp [Node.isAt]
  cases found : node.child? child.facts.name child.facts.multiplicity with
  | none => exact absurd isAt (List.find?_eq_none.mp found child member)
  | some other =>
      have otherIsAt := List.find?_some found
      simp only [Node.isAt, Bool.and_eq_true, beq_iff_eq] at otherIsAt
      have inSeries : ∀ sibling ∈ node.children, sibling.facts.name = child.facts.name →
          sibling.facts.multiplicity = child.facts.multiplicity →
          sibling ∈ node.members child.facts.name := by
        intro sibling member name multiplicity
        refine List.mem_filter.mpr ⟨member, ?_⟩
        simpa [isMember, isTemplate, name, multiplicity] using live
      have equal := List.inj_on_of_nodup_map (keyed.distinct child.facts.name)
        (inSeries other (List.mem_of_find?_eq_some found) otherIsAt.1 otherIsAt.2)
        (inSeries child member rfl rfl) otherIsAt.2
      rw [equal]

end IsKeyed

structure Apart (name : String) (children : List Node) : Prop where
  bound : .unbound ∉ numbers name children
  distinct : (numbers name children).Nodup

/-- At this node and below it, every member of a series has a number, and no two of them
have the same. -/
inductive IsDistinct : Node → Prop where
  | intro {facts : Facts} {children : List Node} (apart : ∀ name, Apart name children)
      (below : ∀ child ∈ children, child.IsDistinct) : IsDistinct ⟨facts, children⟩

theorem Apart.of_index {name : String} {children : List Node} {indices : List Nat}
    (indexed : numbers name children = indices.map .index) (distinct : indices.Nodup) :
    Apart name children := by
  constructor
  · rw [indexed]
    simp
  · rw [indexed]
    exact distinct.map fun _ _ => Multiplicity.index.inj

namespace IsDistinct

variable {node : Node}

theorem child (distinct : node.IsDistinct) : ∀ child ∈ node.children, child.IsDistinct := by
  cases distinct with
  | intro _ below => exact below

theorem apart (distinct : node.IsDistinct) (name : String) : Apart name node.children := by
  cases distinct with
  | intro apart _ => exact apart name

theorem of_children (apart : ∀ name, Apart name node.children)
    (below : ∀ child ∈ node.children, child.IsDistinct) : node.IsDistinct := by
  cases node
  exact .intro apart below

theorem of_numbered (numbered : node.Numbered) : node.IsDistinct := by
  induction node using Node.induct with
  | step facts children induction =>
      refine .intro (fun name => ?_) fun child member =>
        induction child member (numbered.child child member)
      rcases numbered.counted name with ⟨count, indexed⟩
      exact .of_index indexed List.nodup_range

theorem exists_index (distinct : node.IsDistinct) {child : Node} (member : child ∈ node.children)
    (live : child.isTemplate = false) : ∃ position, child.facts.multiplicity = .index position := by
  have inSeries : child.facts.multiplicity ∈ numbers child.facts.name node.children :=
    List.mem_map_of_mem (List.mem_filter.mpr ⟨member, by simp [isMember, live]⟩)
  cases multiplicity : child.facts.multiplicity with
  | unbound => exact absurd (multiplicity ▸ inSeries) (distinct.apart _).bound
  | template => simp [isTemplate, multiplicity] at live
  | index position => exact ⟨position, rfl⟩

theorem isKeyed (distinct : node.IsDistinct) : node.IsKeyed := by
  induction node using Node.induct with
  | step facts children induction =>
      exact .intro (fun name => (distinct.apart name).distinct) fun child member =>
        induction child member (distinct.child child member)

theorem child?_eq_some (distinct : node.IsDistinct) {child : Node} (member : child ∈ node.children)
    (live : child.isTemplate = false) :
    node.child? child.facts.name child.facts.multiplicity = some child :=
  distinct.isKeyed.child?_eq_some member live

theorem toList_child? (distinct : node.IsDistinct) (name : String) (position : Nat) :
    (node.child? name (.index position)).toList =
      node.children.filter (isAt name (.index position)) := by
  have inSeries : node.children.filter (isAt name (.index position)) =
      (node.members name).filter (isAt name (.index position)) := by
    rw [members, List.filter_filter]
    apply List.filter_congr
    intro child _
    by_cases here : child.facts.multiplicity = .index position <;>
      simp [isAt, isMember, isTemplate, here]
  have apart := (List.pairwise_map.mp (distinct.apart name).distinct).filter (isAt name (.index position))
  rw [← members, ← inSeries] at apart
  have allHere : ∀ child ∈ node.children.filter (isAt name (.index position)),
      child.facts.multiplicity = .index position := by
    intro child member
    have here := (List.mem_filter.mp member).2
    simp only [isAt, Bool.and_eq_true, beq_iff_eq] at here
    exact here.2
  rw [child?, ← List.head?_filter]
  cases found : node.children.filter (isAt name (.index position)) with
  | nil => rfl
  | cons first rest =>
      rw [found] at apart allHere
      cases rest with
      | nil => rfl
      | cons second rest =>
          have differ := (List.pairwise_cons.mp apart).1 second List.mem_cons_self
          rw [allHere first List.mem_cons_self, allHere second (by simp)] at differ
          exact absurd rfl differ

end IsDistinct

/-! Steps to live nodes. -/

theorem live_step {node : Node} (distinct : node.IsDistinct) {steps : List Step} {facts : Facts}
    (member : (steps, facts) ∈ node.live) :
    (∀ step ∈ steps, ∃ position, step.multiplicity = .index position) ∧
      ∃ found, node.descendant? steps = some found ∧ found.facts = facts := by
  induction node using Node.induct generalizing steps with
  | step here children induction =>
      rw [live_eq, List.mem_cons] at member
      rcases member with equal | member
      · cases equal
        exact ⟨by simp, _, rfl, rfl⟩
      · rw [liveAll_eq_flatMap] at member
        rcases List.mem_flatMap.mp member with ⟨child, childMember, entryMember⟩
        rcases List.mem_filter.mp childMember with ⟨inChildren, live⟩
        rcases List.mem_map.mp entryMember with ⟨⟨rest, restFacts⟩, inLive, equal⟩
        cases equal
        have live : child.isTemplate = false := by simpa using live
        rcases induction child inChildren (distinct.child child inChildren) inLive with
          ⟨indexed, found, reached, rightFacts⟩
        refine ⟨List.forall_mem_cons.mpr ⟨distinct.exists_index inChildren live, indexed⟩,
          found, ?_, rightFacts⟩
        rw [descendant?, Node.step, distinct.child?_eq_some inChildren live]
        exact reached

theorem mem_live_of_descendant? {node found : Node} {steps : List Step}
    (reached : node.descendant? steps = some found)
    (live : ∀ step ∈ steps, step.multiplicity ≠ .template) : (steps, found.facts) ∈ node.live := by
  induction steps generalizing node with
  | nil =>
      cases reached
      rw [live_eq]
      exact List.mem_cons_self
  | cons step rest induction =>
      rcases List.forall_mem_cons.mp live with ⟨notTemplate, live⟩
      rw [descendant?] at reached
      rcases Option.bind_eq_some_iff.mp reached with ⟨child, here, below⟩
      have isAt := List.find?_some here
      simp only [Node.isAt, Bool.and_eq_true, beq_iff_eq] at isAt
      have equal : step = child.step := by rw [Node.step, isAt.1, isAt.2]
      rw [live_eq, liveAll_eq_flatMap]
      apply List.mem_cons_of_mem
      refine List.mem_flatMap.mpr ⟨child, List.mem_filter.mpr ⟨List.mem_of_find?_eq_some here, ?_⟩, ?_⟩
      · simpa [isTemplate, isAt.2] using notTemplate
      · exact List.mem_map.mpr ⟨_, induction below live, by rw [Entry.under, equal]⟩

end Node

namespace Reference

def stepsIntersect (left right : List Step) : Bool :=
  left.length == right.length && stepsOverlap left right

theorem intersects_absolute (left right : List Step) :
    (absolute left).intersects (absolute right) = stepsIntersect left right := by
  simp [intersects, absolute, stepsIntersect]

@[simp] theorem stepsIntersect_nil (path : List Step) : stepsIntersect [] path = path.isEmpty := by
  cases path <;> simp [stepsIntersect, stepsOverlap]

@[simp] theorem stepsIntersect_cons_nil (step : Step) (steps : List Step) :
    stepsIntersect (step :: steps) [] = false := by
  simp [stepsIntersect]

@[simp] theorem stepsIntersect_cons (left right : Step) (lefts rights : List Step) :
    stepsIntersect (left :: lefts) (right :: rights) =
      (left.overlaps right && stepsIntersect lefts rights) := by
  simp [stepsIntersect, stepsOverlap, Bool.and_left_comm]

end Reference

namespace AnswerTree

open Reference

/-! What a reference denotes. -/

def Place.reach : List Step → Place → List Place
  | [], place => [place]
  | step :: rest, place => (place.below step).flatMap (reach rest)

theorem Place.below_eq_nil {place : Place} {step : Step}
    (missing : place.node.hasChildNamed step.name = false) : place.below step = [] := by
  have named : ∀ child ∈ place.node.children, child.facts.name ≠ step.name := by
    simpa [Node.hasChildNamed] using missing
  rw [Place.below]
  split
  next =>
    rw [List.map_eq_nil_iff, Node.members, List.filter_eq_nil_iff]
    intro child member
    simp [Node.isMember, named child member]
  next =>
    have none : place.node.child? step.name step.multiplicity = none := by
      rw [Node.child?, List.find?_eq_none]
      intro child member
      simp [Node.isAt, named child member]
    rw [none]
    rfl

theorem Place.next_ok {whole : Reference} {step : Step} {isLast : Bool} {place : Place}
    {next : List Place} (found : place.next whole step isLast = .ok next) :
    next = place.below step := by
  rw [Place.next] at found
  split at found
  · cases found
    rfl
  next missing =>
    split at found
    · cases found
      rw [Place.below_eq_nil (by simpa using missing)]
    · cases found

theorem mapM_next_ok {whole : Reference} {step : Step} {isLast : Bool} {places : List Place}
    {next : List (List Place)} (found : places.mapM (Place.next whole step isLast) = .ok next) :
    next = places.map (·.below step) := by
  have each := (forall₂_of_mapM_ok found).imp fun _ _ => Place.next_ok
  rw [← List.forall₂_eq_eq_eq, List.forall₂_map_right_iff]
  exact each.flip

theorem follow_ok {whole : Reference} {steps : List Step} {places found : List Place}
    (followed : follow whole steps places = .ok found) :
    found = places.flatMap (Place.reach steps) := by
  induction steps generalizing places with
  | nil =>
      cases followed
      simp [Place.reach]
  | cons step rest induction =>
      rcases bind_eq_ok.mp followed with ⟨below, next, followed⟩
      rw [induction followed, mapM_next_ok next, ← List.flatMap_def, List.flatMap_assoc]
      rfl

theorem Place.below_eq_filter {place : Place} (distinct : place.node.IsDistinct) {step : Step}
    (live : step.multiplicity ≠ .template) :
    place.below step =
      (place.node.children.filter fun child =>
        !child.isTemplate && step.overlaps child.step).map fun child =>
          ⟨place.reference.child child.facts.name child.facts.multiplicity, child⟩ := by
  rcases step with ⟨name, multiplicity⟩
  rw [Place.below]
  cases multiplicity with
  | template => exact absurd rfl live
  | unbound =>
      -- An unbound step leads to the members, and templates are left out on both sides.
      have members : place.node.members name = place.node.children.filter fun child =>
          !child.isTemplate && (⟨name, .unbound⟩ : Step).overlaps child.step := by
        apply List.filter_congr
        intro child _
        simp [Node.isMember, Step.overlaps, Node.step, Multiplicity.overlaps, Bool.and_comm,
          Bool.beq_comm (a := name)]
      simp only [members]
      apply List.map_congr_left
      intro child member
      have named := (List.mem_filter.mp member).2
      simp [Step.overlaps, Node.step] at named
      rw [named.2.1]
  | index position =>
      have sameChildren : place.node.children.filter (Node.isAt name (.index position)) =
          place.node.children.filter fun child =>
            !child.isTemplate && (⟨name, .index position⟩ : Step).overlaps child.step := by
        apply List.filter_congr
        intro child member
        cases template : child.isTemplate with
        | true =>
            have isTemplate : child.facts.multiplicity = .template := by
              simpa [Node.isTemplate] using template
            simp [Node.isAt, isTemplate]
        | false =>
            rcases distinct.exists_index member template with ⟨number, index⟩
            simp [Node.isAt, Step.overlaps, Node.step, index, Multiplicity.overlaps,
              Bool.beq_comm (a := name), Bool.beq_comm (a := Multiplicity.index position)]
      simp only [distinct.toList_child?, sameChildren]
      apply List.map_congr_left
      intro child member
      rw [← sameChildren] at member
      have isAt := (List.mem_filter.mp member).2
      simp only [Node.isAt, Bool.and_eq_true, beq_iff_eq] at isAt
      rw [isAt.1, isAt.2]

theorem flatMap_filter_and {α β : Type} (first second : α → Bool) (next : α → List β) :
    ∀ list : List α, (list.filter fun element => first element && second element).flatMap next =
      (list.filter first).flatMap fun element => if second element then next element else []
  | [] => rfl
  | head :: tail => by
      have rest := flatMap_filter_and first second next tail
      cases here : first head <;> cases there : second head <;> simp [here, there, rest]

/-- Steps lead to the live nodes that they intersect. -/
theorem Place.reach_eq_live (place : Place) (distinct : place.node.IsDistinct) {steps : List Step}
    (live : ∀ step ∈ steps, step.multiplicity ≠ .template) :
    (place.reach steps).map (·.reference) =
      (place.node.live.filter fun entry => stepsIntersect steps entry.1).map fun entry =>
        { place.reference with steps := place.reference.steps ++ entry.1 } := by
  induction steps generalizing place with
  | nil =>
      have others : (Node.liveAll place.node.children).filter
          (fun entry => stepsIntersect [] entry.1) = [] := by
        rw [Node.liveAll_eq_flatMap, List.filter_eq_nil_iff]
        intro entry member
        rcases List.mem_flatMap.mp member with ⟨child, -, inner⟩
        rcases List.mem_map.mp inner with ⟨below, -, rfl⟩
        simp [Entry.under]
      rw [Node.live_eq, List.filter_cons, if_pos (by simp), others]
      simp [reach]
  | cons step rest induction =>
      rcases List.forall_mem_cons.mp live with ⟨here, live⟩
      rw [reach, Place.below_eq_filter distinct here, Node.live_eq, List.filter_cons,
        if_neg (by simp), Node.liveAll_eq_flatMap]
      simp only [List.map_flatMap, List.filter_flatMap, List.flatMap_map]
      rw [flatMap_filter_and]
      apply List.flatMap_congr
      intro child member
      rcases List.mem_filter.mp member with ⟨inChildren, isLive⟩
      have below := induction
        ⟨place.reference.child child.facts.name child.facts.multiplicity, child⟩
        (distinct.child child inChildren) live
      rw [List.filter_map]
      split
      next overlaps =>
        have keeps : (fun entry => stepsIntersect (step :: rest) entry.1) ∘ Entry.under child.step =
            fun entry => stepsIntersect rest entry.1 := by
          funext entry
          simp [Entry.under, overlaps]
        rw [below, keeps, List.map_map]
        simp [Function.comp_def, Entry.under, Reference.child, Node.step]
      next apart =>
        simp [Function.comp_def, Entry.under, apart]

theorem steps?_eq_some_iff {tree : AnswerTree} {reference : Reference} {steps : List Step} :
    tree.steps? reference = some steps ↔
      reference.IsPlace ∧ reference.steps = ⟨tree.root.facts.name, .index 0⟩ :: steps := by
  have single : (reference.isAbsolute && !reference.isGeneric) = true ↔ reference.IsPlace := by
    constructor
    · intro single
      simp [isAbsolute, isGeneric] at single
      exact ⟨single.1, single.2⟩
    · intro place
      simp [isAbsolute, isGeneric, place.absolute]
      exact place.bound
  rw [steps?]
  split
  next isSingle =>
    have place := single.mp isSingle
    split
    next none => simp [none]
    next first rest found =>
      rcases first with ⟨name, multiplicity⟩
      simp [place, found, and_comm, eq_comm]
  next notSingle =>
    simp [single.not.mp notSingle]

theorem steps?_rootReference (tree : AnswerTree) : tree.steps? tree.rootReference = some [] := by
  rw [steps?_eq_some_iff, rootReference, Reference.root, Reference.absolute]
  exact ⟨⟨rfl, by simp [Multiplicity.isBound]⟩, rfl⟩

theorem find?_rootReference (tree : AnswerTree) :
    tree.find? tree.rootReference = some tree.root := by
  rw [find?, steps?_rootReference]
  rfl

def census (tree : AnswerTree) : List (Reference × Facts) :=
  tree.root.live.map fun entry =>
    (absolute (⟨tree.root.facts.name, .index 0⟩ :: entry.1), entry.2)

theorem references_eq_census (tree : AnswerTree) : tree.references = tree.census.map (·.1) := by
  rw [references, referencesFrom, find?_rootReference, census, List.map_map]
  exact Node.references_eq_live tree.root tree.rootReference

theorem references_eq_paths (tree : AnswerTree) :
    tree.references = (tree.root.live.map (·.1)).map fun path =>
      absolute (⟨tree.root.facts.name, .index 0⟩ :: path) := by
  rw [references_eq_census, census, List.map_map, List.map_map]
  rfl

theorem reach_of_expandAbsolute {tree : AnswerTree} {origin : Origin} {first : Step}
    {rest : List Step} {found : List Reference}
    (expanded : tree.expandAbsolute ⟨origin, first :: rest⟩ = .ok found) :
    first.overlaps ⟨tree.root.facts.name, .index 0⟩ = true ∧
      found = (Place.reach rest ⟨tree.rootReference, tree.root⟩).map (·.reference) := by
  simp only [expandAbsolute] at expanded
  split at expanded
  next overlaps =>
    rcases map_eq_ok.mp expanded with ⟨places, followed, rfl⟩
    refine ⟨overlaps, ?_⟩
    rw [follow_ok followed, List.flatMap_singleton]
  next => cases expanded

theorem reach_eq_references {tree : AnswerTree} (distinct : tree.root.IsDistinct) {first : Step}
    {rest : List Step} (overlaps : first.overlaps ⟨tree.root.facts.name, .index 0⟩ = true)
    (live : ∀ step ∈ rest, step.multiplicity ≠ .template) :
    (Place.reach rest ⟨tree.rootReference, tree.root⟩).map (·.reference) =
      tree.references.filter ((Reference.absolute (first :: rest)).intersects ·) := by
  have reached := Place.reach_eq_live ⟨tree.rootReference, tree.root⟩ distinct live
  rw [references_eq_census, census, List.map_map, List.filter_map]
  have byStep : (fun place => (Reference.absolute (first :: rest)).intersects place) ∘
      (fun entry : Reference × Facts => entry.1) ∘ (fun entry : List Step × Facts =>
        (Reference.absolute (⟨tree.root.facts.name, .index 0⟩ :: entry.1), entry.2)) =
      fun entry => stepsIntersect rest entry.1 := by
    funext entry
    exact (intersects_absolute _ _).trans (by rw [stepsIntersect_cons, overlaps, Bool.true_and])
  rw [byStep]
  exact reached

theorem expandAbsolute_ok {tree : AnswerTree} (distinct : tree.root.IsDistinct)
    {reference : Reference} (absolute : reference.origin = .absolute)
    (live : ∀ step ∈ reference.steps, step.multiplicity ≠ .template) {found : List Reference}
    (expanded : tree.expandAbsolute reference = .ok found) :
    found = tree.references.filter (reference.intersects ·) := by
  rcases reference with ⟨origin, steps⟩
  cases absolute
  cases steps with
  | nil =>
      cases expanded
      symm
      rw [List.filter_eq_nil_iff, references_eq_census, census, List.map_map]
      intro place member
      rcases List.mem_map.mp member with ⟨entry, -, rfl⟩
      exact Bool.eq_false_iff.mp ((intersects_absolute [] _).trans (stepsIntersect_nil _))
  | cons first rest =>
      rcases reach_of_expandAbsolute expanded with ⟨overlaps, rfl⟩
      exact reach_eq_references distinct overlaps (List.forall_mem_cons.mp live).2

theorem expand_of_absolute {tree : AnswerTree} {reference : Reference}
    (absolute : reference.origin = .absolute) {context : Option Reference} :
    tree.expand reference context = tree.expandAbsolute reference := by
  simp [AnswerTree.expand, isAbsolute, absolute]

theorem expand_ok {tree : AnswerTree} (numbered : tree.root.Numbered) {reference : Reference}
    (absolute : reference.origin = .absolute)
    (live : ∀ step ∈ reference.steps, step.multiplicity ≠ .template)
    {context : Option Reference} {found : List Reference}
    (expanded : tree.expand reference context = .ok found) :
    found = tree.references.filter (reference.intersects ·) := by
  rw [expand_of_absolute absolute] at expanded
  exact expandAbsolute_ok (.of_numbered numbered) absolute live expanded

/-! What a reference denotes, whatever the numbers are. -/

def Denotes (step reached : Step) : Prop :=
  reached = step ∨
    step.multiplicity = .unbound ∧ reached.name = step.name ∧ reached.multiplicity ≠ .template

theorem Denotes.overlaps {step reached : Step} (denotes : Denotes step reached) :
    step.overlaps reached = true := by
  rcases denotes with rfl | ⟨unbound, named, -⟩
  · rw [Step.overlaps_iff]
    refine ⟨rfl, ?_⟩
    cases reached.multiplicity <;> simp [Multiplicity.overlaps]
  · exact (Step.overlaps_of_unbound unbound).mpr named.symm

theorem denotes_of_overlaps_index {step : Step} {name : String} {position : Nat}
    (overlaps : step.overlaps ⟨name, .index position⟩ = true) :
    Denotes step ⟨name, .index position⟩ := by
  by_cases unbound : step.multiplicity = .unbound
  · exact .inr ⟨unbound, ((Step.overlaps_of_unbound unbound).mp overlaps).symm,
      Multiplicity.noConfusion⟩
  · left
    have bound := Multiplicity.isBound_iff.mpr unbound
    exact ((Step.overlaps_of_bound bound rfl).mp overlaps).symm

theorem denotes_of_bound {step reached : Step} (bound : step.multiplicity.isBound = true) :
    Denotes step reached ↔ reached = step := by
  refine or_iff_left ?_
  rintro ⟨unbound, -⟩
  rw [unbound] at bound
  cases bound

theorem denotes_of_unbound {step reached : Step} (unbound : step.multiplicity = .unbound)
    (live : reached.multiplicity ≠ .template) :
    Denotes step reached ↔ step.name = reached.name := by
  constructor
  · rintro (rfl | ⟨-, named, -⟩)
    · rfl
    · exact named.symm
  · exact fun named => .inr ⟨unbound, named.symm, live⟩

theorem forall₂_denotes_of_bound {steps path : List Step}
    (bound : ∀ step ∈ steps, step.multiplicity.isBound = true) :
    List.Forall₂ Denotes steps path ↔ path = steps := by
  induction steps generalizing path with
  | nil => exact List.forall₂_nil_left_iff
  | cons step steps induction =>
      rcases List.forall_mem_cons.mp bound with ⟨here, below⟩
      cases path with
      | nil => simp
      | cons reached path =>
          rw [List.forall₂_cons, denotes_of_bound here, induction below, List.cons.injEq]

theorem forall₂_denotes_of_unbound {steps path : List Step}
    (unbound : ∀ step ∈ steps, step.multiplicity = .unbound)
    (live : ∀ step ∈ path, step.multiplicity ≠ .template) :
    List.Forall₂ Denotes steps path ↔ steps.map Step.name = path.map Step.name := by
  induction steps generalizing path with
  | nil => cases path <;> simp
  | cons step steps induction =>
      rcases List.forall_mem_cons.mp unbound with ⟨here, below⟩
      cases path with
      | nil => simp
      | cons reached path =>
          rcases List.forall_mem_cons.mp live with ⟨reachedLive, liveBelow⟩
          rw [List.forall₂_cons, denotes_of_unbound here reachedLive, induction below liveBelow,
            List.map_cons, List.map_cons, List.cons.injEq]

theorem Place.below_denotes {place : Place} {step : Step} {next : Place}
    (member : next ∈ place.below step) : ∃ reached, Denotes step reached ∧
      next.reference = place.reference.child reached.name reached.multiplicity := by
  rw [below] at member
  split at member
  next unbound =>
    rcases List.mem_map.mp member with ⟨child, inSeries, rfl⟩
    have isMember := (List.mem_filter.mp inSeries).2
    simp only [Node.isMember, Bool.and_eq_true, Node.isTemplate] at isMember
    refine ⟨⟨step.name, child.facts.multiplicity⟩, .inr ⟨unbound, rfl, ?_⟩, rfl⟩
    simpa using isMember.2
  next bound =>
    rcases List.mem_map.mp member with ⟨child, -, rfl⟩
    exact ⟨step, .inl rfl, rfl⟩

theorem Place.reach_denotes {steps : List Step} {place next : Place}
    (member : next ∈ place.reach steps) : ∃ path, List.Forall₂ Denotes steps path ∧
      next.reference = { place.reference with steps := place.reference.steps ++ path } := by
  induction steps generalizing place with
  | nil =>
      cases List.mem_singleton.mp member
      exact ⟨[], .nil, by rw [List.append_nil]⟩
  | cons step rest induction =>
      rcases List.mem_flatMap.mp member with ⟨between, first, later⟩
      rcases below_denotes first with ⟨reached, here, moved⟩
      rcases induction later with ⟨path, below, whole⟩
      refine ⟨reached :: path, .cons here below, ?_⟩
      rw [whole, moved]
      simp [Reference.child]

theorem denotes_of_mem_expand {tree : AnswerTree} {reference : Reference}
    (absolute : reference.origin = .absolute) {context : Option Reference}
    {found : List Reference} (expanded : tree.expand reference context = .ok found)
    {place : Reference} (member : place ∈ found) :
    place.origin = .absolute ∧ List.Forall₂ Denotes reference.steps place.steps := by
  rw [expand_of_absolute absolute] at expanded
  rcases reference with ⟨origin, steps⟩
  cases absolute
  cases steps with
  | nil =>
      cases expanded
      cases member
  | cons first rest =>
      rcases reach_of_expandAbsolute expanded with ⟨overlaps, rfl⟩
      rcases List.mem_map.mp member with ⟨next, reached, rfl⟩
      rcases Place.reach_denotes reached with ⟨path, below, whole⟩
      rw [whole]
      exact ⟨rfl, .cons (denotes_of_overlaps_index overlaps) below⟩

theorem intersects_of_mem_expand {tree : AnswerTree} {reference : Reference}
    (absolute : reference.origin = .absolute) {context : Option Reference}
    {found : List Reference} (expanded : tree.expand reference context = .ok found)
    {place : Reference} (member : place ∈ found) : reference.intersects place = true := by
  rcases denotes_of_mem_expand absolute expanded member with ⟨origin, denotes⟩
  rw [Reference.intersects_iff]
  exact ⟨absolute.trans origin.symm, denotes.imp fun _ _ => Denotes.overlaps⟩

/-! Live nodes by their references. -/

theorem mem_references_iff {tree : AnswerTree} {place : Reference} :
    place ∈ tree.references ↔ ∃ facts, (place, facts) ∈ tree.census := by
  simp [references_eq_census]

theorem exists_of_mem_census {tree : AnswerTree} (distinct : tree.root.IsDistinct)
    {place : Reference} {facts : Facts} (member : (place, facts) ∈ tree.census) :
    place.IsLive ∧ (∃ rest, place.steps = ⟨tree.root.facts.name, .index 0⟩ :: rest) ∧
      ∃ node, tree.find? place = some node ∧ node.facts = facts := by
  rcases List.mem_map.mp member with ⟨⟨steps, facts⟩, inLive, equal⟩
  cases equal
  rcases Node.live_step distinct inLive with ⟨indexed, node, reached, rightFacts⟩
  have live : (Reference.absolute (⟨tree.root.facts.name, .index 0⟩ :: steps)).IsLive :=
    ⟨rfl, List.forall_mem_cons.mpr ⟨⟨0, rfl⟩, indexed⟩⟩
  refine ⟨live, ⟨steps, rfl⟩, node, ?_, rightFacts⟩
  rw [find?, steps?_eq_some_iff.mpr ⟨live.isPlace, rfl⟩]
  exact reached

theorem of_mem_census {tree : AnswerTree} (numbered : tree.root.Numbered)
    {place : Reference} {facts : Facts} (member : (place, facts) ∈ tree.census) :
    place.IsLive ∧ (∃ rest, place.steps = ⟨tree.root.facts.name, .index 0⟩ :: rest) ∧
      ∃ node, tree.find? place = some node ∧ node.facts = facts :=
  exists_of_mem_census (.of_numbered numbered) member

theorem isLive_of_mem {tree : AnswerTree} (numbered : tree.root.Numbered)
    {place : Reference} (member : place ∈ tree.references) :
    place.IsLive ∧ ∃ rest, place.steps = ⟨tree.root.facts.name, .index 0⟩ :: rest := by
  rcases mem_references_iff.mp member with ⟨facts, inCensus⟩
  rcases of_mem_census numbered inCensus with ⟨live, first, -⟩
  exact ⟨live, first⟩

theorem mem_census_of_find? {tree : AnswerTree} {place : Reference} {node : Node}
    (found : tree.find? place = some node)
    (live : ∀ step ∈ place.steps, step.multiplicity ≠ .template) :
    (place, node.facts) ∈ tree.census := by
  rcases Option.bind_eq_some_iff.mp found with ⟨steps, isSteps, reached⟩
  rcases steps?_eq_some_iff.mp isSteps with ⟨isPlace, whole⟩
  rw [whole] at live
  have inLive := Node.mem_live_of_descendant? reached (List.forall_mem_cons.mp live).2
  refine List.mem_map.mpr ⟨(steps, node.facts), inLive, ?_⟩
  rcases place with ⟨origin, all⟩
  cases isPlace.absolute
  simp only at whole
  rw [whole]
  rfl

end AnswerTree

/-! Trees of one shape have the same live nodes. -/

namespace Node

theorem isTemplate_outline (node : Node) : node.outline.isTemplate = node.isTemplate := by
  simp [isTemplate, Facts.blank]

theorem live_outline (node : Node) : node.outline.live.map (·.1) = node.live.map (·.1) := by
  induction node using Node.induct with
  | step facts children induction =>
      have isLive : (fun child : Node => !child.isTemplate) ∘ outline =
          fun child => !child.isTemplate := by
        funext child
        rw [Function.comp_apply, isTemplate_outline]
      rw [live_eq, live_eq, liveAll_eq_flatMap, liveAll_eq_flatMap, outline_children,
        List.filter_map, isLive, List.map_cons, List.map_cons, List.map_flatMap, List.map_flatMap,
        List.flatMap_map]
      congr 1
      apply List.flatMap_congr
      intro child member
      have below := induction child (List.mem_filter.mp member).1
      have step : child.outline.step = child.step := by simp [Node.step, Facts.blank]
      rw [step, List.map_map, List.map_map]
      have under : (fun entry : List Step × Facts => entry.1) ∘ Entry.under child.step =
          (child.step :: ·) ∘ (·.1) := rfl
      rw [under, ← List.map_map, ← List.map_map, below]

theorem numbered_outline {node : Node} : node.outline.Numbered ↔ node.Numbered := by
  have multiplicities (name : String) (children : List Node) :
      ((children.map outline).filter (isMember name)).map (·.facts.multiplicity) =
        (children.filter (isMember name)).map (·.facts.multiplicity) := by
    rw [List.filter_map, isMember_outline, List.map_map]
    apply List.map_congr_left
    intro child _
    simp [Facts.blank]
  induction node using Node.induct with
  | step facts children induction =>
      rw [outline, outlineAll_eq_map]
      constructor
      · rintro ⟨counted, below⟩
        refine ⟨fun name => ?_, fun child member => ?_⟩
        · rw [Counted, ← multiplicities]
          exact counted name
        · exact (induction child member).mp (below _ (List.mem_map_of_mem member))
      · rintro ⟨counted, below⟩
        refine ⟨fun name => ?_, fun child member => ?_⟩
        · rw [Counted, multiplicities]
          exact counted name
        · rcases List.mem_map.mp member with ⟨original, inChildren, rfl⟩
          exact (induction original inChildren).mpr (below original inChildren)

end Node

namespace AnswerTree

theorem SameShape.numbered {left right : AnswerTree} (shape : left.SameShape right)
    (numbered : right.root.Numbered) : left.root.Numbered := by
  rw [← Node.numbered_outline, shape, Node.numbered_outline]
  exact numbered

theorem SameShape.references {left right : AnswerTree} (shape : left.SameShape right) :
    left.references = right.references := by
  have live : left.root.live.map (·.1) = right.root.live.map (·.1) := by
    calc
      left.root.live.map (·.1) = left.root.outline.live.map (·.1) :=
        (Node.live_outline left.root).symm
      _ = right.root.outline.live.map (·.1) := by rw [shape]
      _ = right.root.live.map (·.1) := Node.live_outline right.root
  rw [references_eq_paths, references_eq_paths, live, shape.rootName]

end AnswerTree

end ReactiveForm
