import ReactiveForm.Form.Basic
import ReactiveForm.Proofs.Growth
import ReactiveForm.Proofs.Reading

/-! The names below a node. Where nodes with the same path of names have children
of the same names, a series that grows or shrinks keeps all these names, and what
is declared once can be followed from then on. -/

namespace ReactiveForm

/-- For each path of names, the names of the children there. -/
abbrev Layout := List String → String → Bool

namespace Layout

def below (layout : Layout) (name : String) : Layout := fun path => layout (name :: path)

def above (layout : Layout) (top : String) : Layout
  | [], name => top == name
  | _ :: rest, name => layout rest name

def Declares : Layout → List String → Prop
  | _, [] => True
  | layout, name :: rest => layout [] name = true ∧ (layout.below name).Declares rest

end Layout

namespace Node

def alongNames : List String → Node → List Node
  | [], node => [node]
  | name :: rest, node => (node.children.filter (·.facts.name == name)).flatMap (alongNames rest)

/-- Nodes with the same path of names have children of the same names. -/
def IsUniform (root : Node) : Prop :=
  ∀ path, ∀ left ∈ root.alongNames path, ∀ right ∈ root.alongNames path, ∀ name,
    left.hasChildNamed name = right.hasChildNamed name

mutual

def namePaths : Node → List (List String)
  | ⟨_, children⟩ => [] :: namePathsOfAll children

def namePathsOfAll : List Node → List (List String)
  | [] => []
  | node :: rest => node.namePaths.map (node.facts.name :: ·) ++ namePathsOfAll rest

end

theorem mem_namePathsOfAll {nodes : List Node} {child : Node} (member : child ∈ nodes)
    {path : List String} (inChild : path ∈ child.namePaths) :
    child.facts.name :: path ∈ namePathsOfAll nodes := by
  induction nodes with
  | nil => cases member
  | cons node rest induction =>
      rw [namePathsOfAll, List.mem_append]
      rcases List.mem_cons.mp member with rfl | inRest
      · exact .inl (List.mem_map_of_mem inChild)
      · exact .inr (induction inRest)

theorem mem_namePaths {root node : Node} {path : List String}
    (member : node ∈ root.alongNames path) :
    path ∈ root.namePaths := by
  induction path generalizing root with
  | nil =>
      cases root
      exact List.mem_cons_self
  | cons name rest induction =>
      rcases List.mem_flatMap.mp member with ⟨child, isChild, inPath⟩
      rcases List.mem_filter.mp isChild with ⟨inChildren, named⟩
      cases beq_iff_eq.mp named
      cases root
      exact List.mem_cons_of_mem _ (mem_namePathsOfAll inChildren (induction inPath))

theorem hasChildNamed_iff {node : Node} {name : String} :
    node.hasChildNamed name = true ↔ ∃ child ∈ node.children, child.facts.name = name := by
  simp [hasChildNamed]

theorem isUniform_iff {root : Node} : root.IsUniform ↔ ∀ path ∈ root.namePaths,
    ∀ left ∈ root.alongNames path, ∀ right ∈ root.alongNames path,
      ∀ child ∈ left.children, right.hasChildNamed child.facts.name = true := by
  constructor
  · intro uniform path _ left inLeft right inRight child member
    rw [← uniform path left inLeft right inRight]
    exact hasChildNamed_iff.mpr ⟨child, member, rfl⟩
  · intro covers path left inLeft right inRight name
    rw [Bool.eq_iff_iff]
    constructor
    · intro named
      rcases hasChildNamed_iff.mp named with ⟨child, member, rfl⟩
      exact covers path (mem_namePaths inLeft) left inLeft right inRight child member
    · intro named
      rcases hasChildNamed_iff.mp named with ⟨child, member, rfl⟩
      exact covers path (mem_namePaths inLeft) right inRight left inLeft child member

instance (root : Node) : Decidable root.IsUniform := decidable_of_iff' _ isUniform_iff

def IsLaidOut (layout : Layout) (root : Node) : Prop :=
  ∀ path, ∀ node ∈ root.alongNames path, ∀ name, node.hasChildNamed name = layout path name

theorem IsUniform.exists_layout {root : Node} (uniform : root.IsUniform) :
    ∃ layout, root.IsLaidOut layout := by
  refine ⟨fun path name => (root.alongNames path).any (·.hasChildNamed name), ?_⟩
  intro path node member name
  rw [Bool.eq_iff_iff, List.any_eq_true]
  constructor
  · intro named
    exact ⟨node, member, named⟩
  · rintro ⟨other, inPath, named⟩
    rw [uniform path node member other inPath name]
    exact named

theorem isLaidOut_iff {layout : Layout} {node : Node} : node.IsLaidOut layout ↔
    (∀ name, node.hasChildNamed name = layout [] name) ∧
      ∀ child ∈ node.children, child.IsLaidOut (layout.below child.facts.name) := by
  constructor
  · intro laidOut
    refine ⟨laidOut [] node (List.mem_singleton.mpr rfl), ?_⟩
    intro child member path other inPath name
    refine laidOut (child.facts.name :: path) other (List.mem_flatMap.mpr ⟨child, ?_, inPath⟩) name
    exact List.mem_filter.mpr ⟨member, beq_self_eq_true _⟩
  · rintro ⟨here, inside⟩ path other member name
    cases path with
    | nil =>
        cases List.mem_singleton.mp member
        exact here name
    | cons first rest =>
        rcases List.mem_flatMap.mp member with ⟨child, inChildren, inPath⟩
        rcases List.mem_filter.mp inChildren with ⟨isChild, named⟩
        cases beq_iff_eq.mp named
        exact inside child isChild rest other inPath name

section Children

variable {layout : Layout} {node other : Node}

theorem IsLaidOut.of_children (laidOut : node.IsLaidOut layout)
    (names : ∀ name, other.hasChildNamed name = node.hasChildNamed name)
    (inside : ∀ child ∈ other.children, ∃ original ∈ node.children,
      original.facts.name = child.facts.name ∧
        ∀ layout, original.IsLaidOut layout → child.IsLaidOut layout) :
    other.IsLaidOut layout := by
  rcases isLaidOut_iff.mp laidOut with ⟨here, below⟩
  refine isLaidOut_iff.mpr ⟨fun name => (names name).trans (here name), fun child member => ?_⟩
  rcases inside child member with ⟨original, inChildren, named, keeps⟩
  rw [← named]
  exact keeps _ (below original inChildren)

theorem hasChildNamed_congr
    (there : ∀ child ∈ other.children, ∃ original ∈ node.children,
      original.facts.name = child.facts.name)
    (back : ∀ original ∈ node.children, ∃ child ∈ other.children,
      child.facts.name = original.facts.name) (name : String) :
    other.hasChildNamed name = node.hasChildNamed name := by
  rw [Bool.eq_iff_iff, hasChildNamed_iff, hasChildNamed_iff]
  constructor
  · rintro ⟨child, member, rfl⟩
    exact there child member
  · rintro ⟨original, member, rfl⟩
    exact back original member

theorem IsLaidOut.withFacts (laidOut : node.IsLaidOut layout) (change : Facts → Facts) :
    (node.withFacts change).IsLaidOut layout :=
  laidOut.of_children (fun _ => rfl) fun child member => ⟨child, member, rfl, fun _ => id⟩

theorem isLaidOut_outline : node.outline.IsLaidOut layout ↔ node.IsLaidOut layout := by
  induction node using Node.induct generalizing layout with
  | step facts children induction =>
      rw [isLaidOut_iff, isLaidOut_iff, outline, outlineAll_eq_map]
      refine and_congr (forall_congr' fun name => ?_) ?_
      · simp [hasChildNamed, Function.comp_def, Facts.blank]
      · simp only [List.forall_mem_map]
        refine forall₂_congr fun child member => ?_
        rw [induction child member]
        simp [Facts.blank]

theorem IsLaidOut.of_outline (laidOut : node.IsLaidOut layout)
    (same : other.outline = node.outline) : other.IsLaidOut layout := by
  rw [← isLaidOut_outline, same, isLaidOut_outline]
  exact laidOut

theorem IsLaidOut.of_forall₂ (laidOut : node.IsLaidOut layout)
    (each : List.Forall₂ (fun child original : Node => child.facts.name = original.facts.name ∧
      ∀ layout, original.IsLaidOut layout → child.IsLaidOut layout) other.children node.children) :
    other.IsLaidOut layout := by
  have original (child : Node) (member : child ∈ other.children) :=
    exists_of_forall₂ each member
  refine laidOut.of_children (hasChildNamed_congr (fun child member => ?_) fun child member => ?_)
    fun child member => ?_
  · rcases original child member with ⟨original, inChildren, named, -⟩
    exact ⟨original, inChildren, named.symm⟩
  · rcases exists_of_forall₂ each.flip member with ⟨changed, inChildren, named, -⟩
    exact ⟨changed, inChildren, named⟩
  · rcases original child member with ⟨original, inChildren, named, keeps⟩
    exact ⟨original, inChildren, named.symm, keeps⟩

theorem IsLaidOut.renumber (laidOut : node.IsLaidOut layout) (name : String) :
    (node.renumber name).IsLaidOut layout := by
  refine laidOut.of_forall₂ ((forall₂_renumberFrom name 0 node.children).imp ?_)
  rintro child original (rfl | ⟨number, rfl⟩)
  · exact ⟨rfl, fun _ => id⟩
  · exact ⟨rfl, fun _ laidOut => laidOut.withFacts _⟩

end Children

/-! One member more or less. -/

section Grows

variable {layout : Layout} {name : String} {position : Nat}

theorem shift_isLaidOut {node : Node} :
    (node.shift name position).IsLaidOut layout ↔ node.IsLaidOut layout := by
  rcases shift_eq_withFacts name position node with ⟨facts, shifted⟩
  rw [shifted]
  refine ⟨fun laidOut => ?_, fun laidOut => laidOut.withFacts _⟩
  have back := laidOut.withFacts fun _ => node.facts
  cases node
  exact back

theorem IsLaidOut.copy {template : Node} (laidOut : template.IsLaidOut layout)
    (multiplicity : Multiplicity) : (template.copy multiplicity).IsLaidOut layout :=
  (laidOut.of_outline (outline_reset template)).withFacts _

theorem IsLaidOut.insertMember {node template : Node} (laidOut : node.IsLaidOut layout)
    (here : node.template? name = some template) (multiplicity : Multiplicity) (position : Nat) :
    (node.insertMember (template.copy multiplicity) position).IsLaidOut layout := by
  have grows := node.insertMember_grows (template.copy multiplicity) position
  have inChildren : template ∈ node.children := List.mem_of_find?_eq_some here
  have original : ∀ child ∈ (node.insertMember (template.copy multiplicity) position).children,
      ∃ original ∈ node.children, original.facts.name = child.facts.name ∧
        ∀ layout, original.IsLaidOut layout → child.IsLaidOut layout := by
    intro child member
    rcases grows.mem_cases member with rfl | ⟨original, inSmall, rfl⟩
    · refine ⟨template, inChildren, by simp [placed, Node.withFacts], fun layout laidOut => ?_⟩
      exact ((laidOut.copy multiplicity).withFacts _).of_outline (outline_inherit _ _)
    · exact ⟨original, inSmall, (name_shift original).symm, fun _ => shift_isLaidOut.mpr⟩
  refine laidOut.of_children (hasChildNamed_congr (fun child member => ?_) fun child member => ?_)
    original
  · rcases original child member with ⟨original, inChildren, named, -⟩
    exact ⟨original, inChildren, named⟩
  · exact ⟨_, grows.mem_of_small member, name_shift child⟩

/-- A series that has a template keeps its name without any members. -/
theorem IsLaidOut.removeMember {node removed remaining : Node} (laidOut : node.IsLaidOut layout)
    (templated : node.template? name ≠ none)
    (found : node.removeMember? name position = some (removed, remaining)) :
    remaining.IsLaidOut layout := by
  rw [removeMember?] at found
  rcases Option.map_eq_some_iff.mp found with ⟨⟨taken, rest⟩, took, equal⟩
  cases equal
  rcases takeFirst?_eq_some took with ⟨before, after, children, rfl, here⟩
  rw [isAt, Bool.and_eq_true, beq_iff_eq, beq_iff_eq] at here
  have stays (child : Node) (member : child ∈ node.children) :
      child = removed ∨ child ∈ before ++ after := by
    rw [children, List.mem_append, List.mem_cons] at member
    rw [List.mem_append]
    tauto
  have fewer : IsLaidOut layout { node with children := before ++ after } := by
    have inChildren (child : Node) (member : child ∈ before ++ after) : child ∈ node.children := by
      rw [children]
      exact (List.sublist_cons_self removed after).append_left before |>.mem member
    refine laidOut.of_children (hasChildNamed_congr (fun child member => ?_) fun child member => ?_)
      fun child member => ?_
    · exact ⟨child, inChildren child member, rfl⟩
    · rcases stays child member with rfl | inRest
      · -- The template has the name of the member that is gone.
        rcases Option.ne_none_iff_exists'.mp templated with ⟨template, isTemplate⟩
        have step := List.find?_some isTemplate
        rw [isAt, Bool.and_eq_true, beq_iff_eq, beq_iff_eq] at step
        rcases stays template (List.mem_of_find?_eq_some isTemplate) with rfl | inRest
        · cases here.2.symm.trans step.2
        · exact ⟨template, inRest, step.1.trans here.1.symm⟩
      · exact ⟨child, inRest, rfl⟩
    · exact ⟨child, inChildren child member, rfl, fun _ => id⟩
  exact fewer.renumber name

theorem Along.isLaidOut {relation : Node → Node → Prop} {path : List Step} {left right : Node}
    (along : Along relation path left right) (laidOut : left.IsLaidOut layout)
    (keeps : ∀ {layout : Layout} {left right : Node}, relation left right →
      left.IsLaidOut layout → right.IsLaidOut layout) : right.IsLaidOut layout := by
  induction along generalizing layout with
  | here related => exact keeps related laidOut
  | @inside facts path before after left right step _ induction =>
      have named : right.facts.name = left.facts.name := congrArg Step.name step
      refine laidOut.of_children (fun name => by simp [hasChildNamed, named]) fun child member => ?_
      rcases List.mem_append.mp member with inBefore | inRest
      · exact ⟨child, List.mem_append_left _ inBefore, rfl, fun _ => id⟩
      · rcases List.mem_cons.mp inRest with rfl | inAfter
        · exact ⟨left, by simp, named.symm, fun layout => induction⟩
        · exact ⟨child, by simp [inAfter], rfl, fun _ => id⟩

end Grows

theorem IsLaidOut.declares {layout : Layout} {node : Node} (laidOut : node.IsLaidOut layout)
    {steps : List Step} (declared : node.declares steps = true) :
    layout.Declares (steps.map (·.name)) := by
  induction steps generalizing layout node with
  | nil => trivial
  | cons step rest induction =>
      rcases isLaidOut_iff.mp laidOut with ⟨here, inside⟩
      rw [Node.declares] at declared
      split at declared
      · cases declared
      next child found =>
        have isChild : child ∈ node.children ∧ child.facts.name = step.name := by
          rcases Option.or_eq_some_iff.mp found with template | ⟨-, first⟩
          · exact ⟨List.mem_of_find?_eq_some template, name_of_template? template⟩
          · exact ⟨List.mem_of_find?_eq_some first, by simpa using List.find?_some first⟩
        rcases isChild with ⟨member, named⟩
        have below := inside child member
        rw [named] at below
        refine ⟨?_, induction below declared⟩
        rw [← here]
        exact hasChildNamed_iff.mpr ⟨child, member, named⟩

end Node

namespace AnswerTree

def IsLaidOut (layout : Layout) (tree : AnswerTree) : Prop :=
  (∀ name, (tree.root.facts.name == name) = layout [] name) ∧
    tree.root.IsLaidOut (layout.below tree.root.facts.name)

variable {layout : Layout} {tree : AnswerTree}

theorem exists_layout (uniform : tree.root.IsUniform) : ∃ layout, tree.IsLaidOut layout := by
  rcases uniform.exists_layout with ⟨inside, laidOut⟩
  exact ⟨inside.above tree.root.facts.name, fun _ => rfl, laidOut⟩

theorem SameShape.isLaidOut {other : AnswerTree} (shape : other.SameShape tree)
    (laidOut : tree.IsLaidOut layout) : other.IsLaidOut layout := by
  rcases laidOut with ⟨root, inside⟩
  rw [← shape.rootName] at root inside
  exact ⟨root, inside.of_outline shape⟩

theorem change_isLaidOut {parent : Reference} {node : Node} {change : Node → Node}
    (laidOut : tree.IsLaidOut layout) (found : tree.find? parent = some node)
    (facts : (change node).facts = node.facts)
    (keeps : ∀ {layout : Layout}, node.IsLaidOut layout → (change node).IsLaidOut layout) :
    (tree.change parent change).IsLaidOut layout := by
  rcases parent_steps found with ⟨path, -, -, isPath, reached⟩
  rcases Node.along_changeDescendant
    (fun left right => left = node ∧ right = change node) change
    (by rintro _ _ ⟨rfl, rfl⟩; exact facts.symm) reached ⟨rfl, rfl⟩ with ⟨along, rootFacts⟩
  rcases laidOut with ⟨root, inside⟩
  rw [AnswerTree.change, isPath]
  rw [← rootFacts] at root inside
  refine ⟨root, along.isLaidOut inside ?_⟩
  rintro layout _ _ ⟨rfl, rfl⟩
  exact keeps

theorem insert_isLaidOut {grown : AnswerTree} {parent inserted : Reference} {name : String}
    {position : Nat} (laidOut : tree.IsLaidOut layout)
    (done : tree.insert parent name position = .ok (grown, inserted)) :
    grown.IsLaidOut layout := by
  rcases insert_ok done with ⟨node, template, found, here, rfl, -⟩
  exact change_isLaidOut laidOut found rfl fun laidOut => laidOut.insertMember here _ _

theorem remove_isLaidOut {shrunk : AnswerTree} {reference : Reference} {removed : Node}
    (laidOut : tree.IsLaidOut layout)
    (done : tree.remove reference = .ok (shrunk, removed)) : shrunk.IsLaidOut layout := by
  rcases remove_ok done with
    ⟨position, name, parent, node, remaining, -, -, -, found, templated, taken, rfl⟩
  have facts := Node.facts_removeMember? taken
  exact change_isLaidOut laidOut found facts fun laidOut => laidOut.removeMember templated taken

/-! What is declared can be followed. -/

theorem IsLaidOut.declares (laidOut : tree.IsLaidOut layout) {reference : Reference}
    (declared : tree.declares reference = true) :
    layout.Declares (reference.steps.map (·.name)) := by
  rw [AnswerTree.declares] at declared
  split at declared
  · cases declared
  next first rest steps =>
    rcases Bool.and_eq_true_iff.mp declared with ⟨named, declared⟩
    have root := beq_iff_eq.mp named
    rw [steps, List.map_cons, Layout.Declares, ← laidOut.1, root]
    exact ⟨beq_self_eq_true _, laidOut.2.declares declared⟩

theorem Place.mem_below {place next : Place} {step : Step} (member : next ∈ place.below step) :
    next.node ∈ place.node.children ∧ next.node.facts.name = step.name := by
  rw [Place.below] at member
  split at member
  next =>
    rcases List.mem_map.mp member with ⟨child, isMember, rfl⟩
    rcases List.mem_filter.mp isMember with ⟨inChildren, isMember⟩
    exact ⟨inChildren, (Node.isMember_iff.mp isMember).1⟩
  next =>
    rcases List.mem_map.mp member with ⟨child, found, rfl⟩
    have here := Option.mem_toList.mp found
    have isAt := List.find?_some here
    simp only [Node.isAt, Bool.and_eq_true, beq_iff_eq] at isAt
    exact ⟨List.mem_of_find?_eq_some here, isAt.1⟩

theorem exists_follow {whole : Reference} {steps : List Step} {places : List Place}
    (laidOut : ∀ place ∈ places, place.node.IsLaidOut layout)
    (declares : layout.Declares (steps.map (·.name))) :
    ∃ found, follow whole steps places = .ok found := by
  induction steps generalizing layout places with
  | nil => exact ⟨places, rfl⟩
  | cons step rest induction =>
      rcases declares with ⟨here, declares⟩
      have next : places.mapM (Place.next whole step rest.isEmpty) =
          .ok (places.map (·.below step)) := by
        refine mapM_ok_of_forall fun place member => ?_
        rw [Place.next, if_pos]
        rw [(Node.isLaidOut_iff.mp (laidOut place member)).1, here]
      rw [follow_cons, next]
      refine induction (fun place member => ?_) declares
      rw [← List.flatMap_def] at member
      rcases List.mem_flatMap.mp member with ⟨above, inPlaces, isBelow⟩
      rcases Place.mem_below isBelow with ⟨isChild, named⟩
      have inside := (Node.isLaidOut_iff.mp (laidOut above inPlaces)).2 place.node isChild
      rwa [named] at inside

theorem IsLaidOut.exists_expand (laidOut : tree.IsLaidOut layout) {reference : Reference}
    (absolute : reference.origin = .absolute)
    (declares : layout.Declares (reference.steps.map (·.name)))
    (start : ∀ first ∈ reference.steps.head?, first.multiplicity = .unbound ∨
      first.multiplicity = .index 0) : ∃ found, tree.expand reference none = .ok found := by
  rw [expand_of_absolute absolute, expandAbsolute]
  split
  · exact ⟨[], rfl⟩
  next first rest steps =>
    rw [steps] at declares start
    rcases declares with ⟨root, declares⟩
    rw [← laidOut.1, beq_iff_eq] at root
    have overlaps : first.overlaps ⟨tree.root.facts.name, .index 0⟩ = true := by
      refine Step.overlaps_iff.mpr ⟨root.symm, ?_⟩
      rcases start first rfl with unbound | index
      · rw [unbound]
        rfl
      · rw [index]
        rfl
    have inside := laidOut.2
    rw [root] at inside
    rw [if_pos overlaps]
    have follows : ∃ found, follow reference rest [⟨tree.rootReference, tree.root⟩] = .ok found :=
      exists_follow (by simpa using inside) declares
    rcases follows with ⟨found, followed⟩
    exact ⟨_, by rw [followed]; rfl⟩

end AnswerTree

theorem Reference.IsPattern.head_anchorSteps {pattern : Reference} (isPattern : pattern.IsPattern)
    {name : String} {rest : List Step} {first : Step}
    (isFirst : first ∈ (anchorSteps pattern.steps (⟨name, .index 0⟩ :: rest)).head?) :
    first.multiplicity = .unbound ∨ first.multiplicity = .index 0 := by
  cases steps : pattern.steps with
  | nil =>
      rw [steps] at isFirst
      cases isFirst
  | cons step others =>
      have unbound := isPattern.unbound step (by simp [steps])
      by_cases named : step.name = name
      · rw [steps, anchorSteps_cons_of_eq unbound named] at isFirst
        cases isFirst
        exact .inr rfl
      · rw [steps, anchorSteps_cons_of_ne named] at isFirst
        cases isFirst
        exact .inl unbound

theorem Look.exists_nodes {layout : Layout} {tree : AnswerTree} (laidOut : tree.IsLaidOut layout)
    (numbered : tree.root.Numbered) {look : Look} (isPattern : look.reference.IsPattern)
    (declares : layout.Declares (look.reference.steps.map (·.name))) {place : Reference}
    (member : place ∈ tree.references) : ∃ found, look.nodes tree place = .ok found := by
  rcases AnswerTree.isLive_of_mem numbered member with ⟨live, rest, steps⟩
  have follow : ∃ followed, look.followed place = .ok followed ∧ followed.origin = .absolute ∧
      followed.steps.map (·.name) = look.reference.steps.map (·.name) ∧
      ∀ first ∈ followed.steps.head?, first.multiplicity = .unbound ∨
        first.multiplicity = .index 0 := by
    rw [followed]
    split
    · refine ⟨_, rfl, isPattern.absolute, rfl, fun first isFirst => ?_⟩
      exact .inl (isPattern.unbound first (List.mem_of_mem_head? isFirst))
    · rw [Reference.anchor_of_absolute isPattern.absolute live.absolute]
      refine ⟨_, rfl, rfl, Reference.map_name_anchorSteps _ _, ?_⟩
      rw [Reference.absolute, steps]
      exact fun first => isPattern.head_anchorSteps
  rcases follow with ⟨followed, isFollowed, absolute, names, start⟩
  rw [← names] at declares
  rcases laidOut.exists_expand absolute declares start with ⟨found, expands⟩
  exact ⟨found, nodes_eq_ok.mpr ⟨followed, isFollowed, expands⟩⟩

end ReactiveForm
