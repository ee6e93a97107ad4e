import Mathlib.Data.List.Forall2
import Mathlib.Data.List.Nodup
import ReactiveForm.Tree.Expansion

/-! The outline of a tree: its nodes without what they hold. What changes only
the contents of nodes leaves the outline, and with it everything that a
reference denotes. -/

namespace ReactiveForm

/-! Induction over nodes. -/

@[elab_as_elim]
theorem Node.induct {motive : Node → Prop}
    (node : Node)
    (step : ∀ facts children, (∀ child ∈ children, motive child) →
      motive ⟨facts, children⟩) : motive node :=
  @Node.rec motive (fun children => ∀ child ∈ children, motive child) step
    (fun _ member => nomatch member)
    (fun _ _ head tail => List.forall_mem_cons.mpr ⟨head, tail⟩) node

/-! Changes of one element. -/

section ChangeFirst

variable {α : Type} {holds other : α → Bool} {change : α → α}

theorem find?_changeFirst_self (keeps : ∀ element, holds element → holds (change element)) :
    ∀ list : List α, (changeFirst holds change list).find? holds =
      (list.find? holds).map change
  | [] => rfl
  | head :: tail => by
      cases found : holds head with
      | true => simp [changeFirst, found, keeps head found]
      | false => simp [changeFirst, found, find?_changeFirst_self keeps tail]

theorem find?_changeFirst_other
    (apart : ∀ element, holds element → other element = false ∧ other (change element) = false) :
    ∀ list : List α, (changeFirst holds change list).find? other = list.find? other
  | [] => rfl
  | head :: tail => by
      cases found : holds head with
      | true =>
          have missed := apart head found
          simp [changeFirst, found, missed.1, missed.2]
      | false =>
          cases here : other head <;>
            simp [changeFirst, found, here, find?_changeFirst_other apart tail]

theorem map_changeFirst {β : Type} {view : α → β}
    (same : ∀ element, view (change element) = view element) :
    ∀ list : List α, (changeFirst holds change list).map view = list.map view
  | [] => rfl
  | head :: tail => by
      cases found : holds head <;> simp [changeFirst, found, same, map_changeFirst same tail]

end ChangeFirst

/-! Results. -/

section Results

variable {α β ε ε' : Type} {result : Except ε α}

theorem bind_eq_ok {next : α → Except ε β} {value : β} :
    result >>= next = .ok value ↔ ∃ found, result = .ok found ∧ next found = .ok value := by
  constructor
  · intro equal
    cases result with
    | error _ => cases equal
    | ok found => exact ⟨found, rfl, equal⟩
  · rintro ⟨found, rfl, equal⟩
    exact equal

theorem map_eq_ok {change : α → β} {value : β} :
    result.map change = .ok value ↔ ∃ found, result = .ok found ∧ change found = value := by
  cases result <;> simp [Except.map]

theorem mapError_eq_ok {change : ε → ε'} {value : α} :
    result.mapError change = .ok value ↔ result = .ok value := by
  cases result <;> simp [Except.mapError]

theorem exists_ok_of_any {holds : α → Bool} (found : result.toOption.any holds = true) :
    ∃ value, result = .ok value ∧ holds value = true := by
  cases result with
  | error _ => cases found
  | ok value => exact ⟨value, rfl, found⟩

end Results

theorem forall₂_of_mapM_ok {α β ε : Type} {function : α → Except ε β} {list : List α}
    {results : List β} (found : list.mapM function = .ok results) :
    List.Forall₂ (fun element result => function element = .ok result) list results := by
  induction list generalizing results with
  | nil =>
      cases found
      exact .nil
  | cons element rest induction =>
      rw [List.mapM_cons] at found
      rcases bind_eq_ok.mp found with ⟨result, first, found⟩
      rcases bind_eq_ok.mp found with ⟨tail, others, found⟩
      cases found
      exact .cons first (induction others)

theorem mapM_ok_of_forall {α β ε : Type} {function : α → Except ε β} {result : α → β}
    {list : List α} (each : ∀ element ∈ list, function element = .ok (result element)) :
    list.mapM function = .ok (list.map result) := by
  induction list with
  | nil => rfl
  | cons element rest induction =>
      rcases List.forall_mem_cons.mp each with ⟨first, others⟩
      rw [List.mapM_cons, first, induction others]
      rfl

theorem exists_of_forall₂ {α β : Type} {relation : α → β → Prop} {list : List α} {others : List β}
    (each : List.Forall₂ relation list others) {element : α} (member : element ∈ list) :
    ∃ other ∈ others, relation element other := by
  induction each with
  | nil => cases member
  | cons related _ induction =>
      rcases List.mem_cons.mp member with rfl | member
      · exact ⟨_, List.mem_cons_self, related⟩
      · rcases induction member with ⟨other, inOthers, related⟩
        exact ⟨other, List.mem_cons_of_mem _ inOthers, related⟩

/-! Elements with keys. -/

theorem eq_key_of_find? {α β : Type} [BEq β] [LawfulBEq β] {key : α → β} {list : List α}
    {wanted : β} {element : α} (found : list.find? (key · == wanted) = some element) :
    key element = wanted := by
  simpa using List.find?_some found

theorem find?_of_nodup_map {α β : Type} [BEq β] [LawfulBEq β] {key : α → β} {list : List α}
    (distinct : (list.map key).Nodup) {element : α} (member : element ∈ list) :
    list.find? (key · == key element) = some element := by
  have isThere : (list.find? (key · == key element)).isSome = true := by
    rw [List.find?_isSome]
    exact ⟨element, member, beq_self_eq_true _⟩
  rcases Option.isSome_iff_exists.mp isThere with ⟨first, found⟩
  have same := List.inj_on_of_nodup_map distinct (List.mem_of_find?_eq_some found) member
    (eq_key_of_find? found)
  rw [found, same]

/-! Outlines. -/

mutual

def Node.outline : Node → Node
  | ⟨facts, children⟩ => ⟨.blank facts.name facts.multiplicity, Node.outlineAll children⟩

def Node.outlineAll : List Node → List Node
  | [] => []
  | node :: rest => node.outline :: outlineAll rest

end

namespace Node

theorem outlineAll_eq_map : ∀ nodes : List Node, outlineAll nodes = nodes.map outline
  | [] => rfl
  | node :: rest => by rw [outlineAll, outlineAll_eq_map rest, List.map_cons]

@[simp] theorem outline_facts (node : Node) :
    node.outline.facts = .blank node.facts.name node.facts.multiplicity := by
  cases node
  rw [outline]

@[simp] theorem outline_children (node : Node) :
    node.outline.children = node.children.map outline := by
  cases node
  rw [outline, outlineAll_eq_map]

theorem outline_eq_iff {left right : Node} :
    left.outline = right.outline ↔
      left.facts.name = right.facts.name ∧ left.facts.multiplicity = right.facts.multiplicity ∧
        left.children.map outline = right.children.map outline := by
  cases left
  cases right
  rw [outline, outline, Node.mk.injEq, outlineAll_eq_map, outlineAll_eq_map]
  simp [Facts.blank, and_assoc]

theorem isAt_outline (name : String) (multiplicity : Multiplicity) :
    isAt name multiplicity ∘ outline = isAt name multiplicity := by
  funext node
  simp [isAt, Facts.blank]

theorem isMember_outline (name : String) : isMember name ∘ outline = isMember name := by
  funext node
  simp [isMember, isTemplate, Facts.blank]

theorem child?_outline (node : Node) (name : String) (multiplicity : Multiplicity) :
    node.outline.child? name multiplicity = (node.child? name multiplicity).map outline := by
  rw [child?, outline_children, List.find?_map, isAt_outline, child?]

theorem members_outline (node : Node) (name : String) :
    node.outline.members name = (node.members name).map outline := by
  rw [members, outline_children, List.filter_map, isMember_outline, members]

theorem hasChildNamed_outline (node : Node) (name : String) :
    node.outline.hasChildNamed name = node.hasChildNamed name := by
  simp [hasChildNamed, List.any_map, Function.comp_def, Facts.blank]

theorem descendant?_outline (node : Node) (path : List Step) :
    node.outline.descendant? path = (node.descendant? path).map outline := by
  induction path generalizing node with
  | nil => rfl
  | cons step path induction =>
      rw [descendant?, descendant?, child?_outline]
      cases node.child? step.name step.multiplicity with
      | none => rfl
      | some child => exact induction child

/-! Changes that leave the outline. -/

@[simp] theorem outline_withFacts {node : Node} {change : Facts → Facts}
    (name : (change node.facts).name = node.facts.name)
    (multiplicity : (change node.facts).multiplicity = node.facts.multiplicity) :
    (node.withFacts change).outline = node.outline := by
  rw [outline_eq_iff]
  exact ⟨name, multiplicity, rfl⟩

theorem inheritAll_eq_map (above : Bool) :
    ∀ nodes : List Node, inheritAll above nodes = nodes.map (inherit above)
  | [] => rfl
  | node :: rest => by rw [inheritAll, inheritAll_eq_map above rest, List.map_cons]

@[simp] theorem outline_inherit (node : Node) (above : Bool) :
    (node.inherit above).outline = node.outline := by
  induction node using Node.induct generalizing above with
  | step facts children induction =>
      rw [inherit, outline_eq_iff]
      refine ⟨rfl, rfl, ?_⟩
      rw [inheritAll_eq_map, List.map_map]
      exact List.map_congr_left fun child member => induction child member _

@[simp] theorem outline_setRelevant (node : Node) (relevant : Bool) :
    (node.setRelevant relevant).outline = node.outline := by
  rw [setRelevant, outline_inherit, outline_withFacts rfl rfl]

theorem outline_changeDescendant {change : Node → Node}
    (same : ∀ node, (change node).outline = node.outline) (steps : List Step) (node : Node) :
    (changeDescendant change steps node).outline = node.outline := by
  induction steps generalizing node with
  | nil => exact same node
  | cons step rest induction =>
      rw [changeDescendant, changeChild, outline_eq_iff]
      exact ⟨rfl, rfl, map_changeFirst induction _⟩

end Node

namespace AnswerTree

def SameShape (left right : AnswerTree) : Prop :=
  left.root.outline = right.root.outline

theorem SameShape.refl (tree : AnswerTree) : tree.SameShape tree := Eq.refl _

theorem SameShape.symm {left right : AnswerTree} (shape : left.SameShape right) :
    right.SameShape left := Eq.symm shape

theorem SameShape.trans {first second third : AnswerTree} (left : first.SameShape second)
    (right : second.SameShape third) : first.SameShape third := Eq.trans left right

theorem SameShape.rootName {left right : AnswerTree} (shape : left.SameShape right) :
    left.root.facts.name = right.root.facts.name := (Node.outline_eq_iff.mp shape).1

theorem SameShape.find?_outline {left right : AnswerTree} (shape : left.SameShape right)
    (place : Reference) :
    (left.find? place).map Node.outline = (right.find? place).map Node.outline := by
  simp only [find?, steps?, shape.rootName, Option.map_bind, Function.comp_def,
    ← Node.descendant?_outline]
  rw [shape]

theorem SameShape.exists_find? {left right : AnswerTree} (shape : left.SameShape right)
    {place : Reference} (found : ∃ node, right.find? place = some node) :
    ∃ node, left.find? place = some node := by
  have outlines := shape.find?_outline place
  rcases found with ⟨node, found⟩
  rw [found] at outlines
  rcases Option.map_eq_some_iff.mp outlines with ⟨other, there, -⟩
  exact ⟨other, there⟩

/-- A change of the node at a reference leaves the tree, or is one below the root. -/
theorem change_cases (holds : AnswerTree → Prop) {tree : AnswerTree} {reference : Reference}
    {change : Node → Node} (same : holds tree)
    (changed : ∀ path,
      (∀ found, tree.root.descendant? path = some found → tree.find? reference = some found) →
      holds ⟨tree.root.changeDescendant change path⟩) :
    holds (tree.change reference change) := by
  rw [AnswerTree.change]
  split
  · exact same
  next path steps =>
    refine changed path fun found reached => ?_
    rw [find?, steps]
    exact reached

theorem change_sameShape {change : Node → Node}
    (same : ∀ node, (change node).outline = node.outline) (tree : AnswerTree)
    (reference : Reference) : (tree.change reference change).SameShape tree :=
  change_cases (·.SameShape tree) (.refl tree) fun _ _ => Node.outline_changeDescendant same _ _

/-! What a reference denotes can be told from the outline. -/

def Place.outline (place : Place) : Place :=
  ⟨place.reference, place.node.outline⟩

theorem Place.below_outline (place : Place) (step : Step) :
    place.outline.below step = (place.below step).map Place.outline := by
  rw [Place.below, Place.below, Place.outline]
  split
  next =>
    rw [Node.members_outline, List.map_map, List.map_map]
    apply List.map_congr_left
    intro child _
    simp [Place.outline, Facts.blank]
  next =>
    rw [Node.child?_outline]
    cases place.node.child? step.name step.multiplicity <;> simp [Place.outline]

def Place.next (whole : Reference) (step : Step) (isLast : Bool) (place : Place) :
    Except TreeError (List Place) :=
  if place.node.hasChildNamed step.name then .ok (place.below step)
  else if isLast then .ok []
  else .error (.unresolvable whole step.name place.reference)

theorem follow_cons (whole : Reference) (step : Step) (rest : List Step)
    (places : List Place) :
    follow whole (step :: rest) places =
      (places.mapM (Place.next whole step rest.isEmpty)).bind fun next =>
        follow whole rest next.flatten := rfl

theorem Place.next_outline (whole : Reference) (step : Step) (isLast : Bool) (place : Place) :
    place.outline.next whole step isLast =
      (place.next whole step isLast).map (List.map Place.outline) := by
  rw [Place.next, Place.next, place.below_outline]
  simp only [Place.outline, Node.hasChildNamed_outline]
  split
  · rfl
  · split <;> rfl

theorem mapM_next_outline (whole : Reference) (step : Step) (isLast : Bool) :
    ∀ places : List Place,
      (places.map Place.outline).mapM (Place.next whole step isLast) =
        (places.mapM (Place.next whole step isLast)).map (List.map (List.map Place.outline))
  | [] => rfl
  | place :: places => by
      rw [List.map_cons, List.mapM_cons, List.mapM_cons, place.next_outline,
        mapM_next_outline whole step isLast places]
      cases place.next whole step isLast with
      | error _ => rfl
      | ok _ => cases places.mapM (Place.next whole step isLast) <;> rfl

theorem follow_outline (whole : Reference) (steps : List Step) (places : List Place) :
    follow whole steps (places.map Place.outline) =
      (follow whole steps places).map (List.map Place.outline) := by
  induction steps generalizing places with
  | nil => rfl
  | cons step rest induction =>
      rw [follow_cons, follow_cons, mapM_next_outline]
      cases places.mapM (Place.next whole step rest.isEmpty) with
      | error _ => rfl
      | ok found =>
          change follow whole rest (found.map (List.map Place.outline)).flatten = _
          rw [← List.map_flatten]
          exact induction _

theorem expandAbsolute_outline (tree : AnswerTree) (reference : Reference) :
    (⟨tree.root.outline⟩ : AnswerTree).expandAbsolute reference =
      tree.expandAbsolute reference := by
  rw [expandAbsolute, expandAbsolute]
  split
  · rfl
  · next first rest _ =>
    have rootName : tree.root.outline.facts.name = tree.root.facts.name := by
      simp [Facts.blank]
    rw [rootName]
    split
    · have begin := follow_outline reference rest [⟨tree.rootReference, tree.root⟩]
      have rootReference : (⟨tree.root.outline⟩ : AnswerTree).rootReference =
          tree.rootReference := by rw [AnswerTree.rootReference, rootName]; rfl
      simp only [List.map_cons, List.map_nil, Place.outline] at begin
      rw [rootReference, begin]
      cases follow reference rest [⟨tree.rootReference, tree.root⟩] with
      | error _ => rfl
      | ok found =>
          simp [Except.map, Function.comp_def, Place.outline]
    · rfl

theorem SameShape.expandAbsolute {left right : AnswerTree} (shape : left.SameShape right)
    (reference : Reference) :
    left.expandAbsolute reference = right.expandAbsolute reference := by
  rw [← expandAbsolute_outline left, ← expandAbsolute_outline right, shape]

theorem SameShape.expand {left right : AnswerTree} (shape : left.SameShape right)
    (reference : Reference) (context : Option Reference) :
    left.expand reference context = right.expand reference context := by
  simp only [AnswerTree.expand, shape.expandAbsolute]

end AnswerTree

end ReactiveForm
