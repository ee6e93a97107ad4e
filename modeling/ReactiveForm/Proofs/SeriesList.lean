import Mathlib.Data.List.InsertIdx
import ReactiveForm.Proofs.Growth
import ReactiveForm.Proofs.ValueEdits

/-! Every series is a list. A member is found under its place in the list, an
insertion puts a fresh copy of the template at its place, and a removal takes
out what is there. Nothing else in the tree changes. -/

namespace ReactiveForm

theorem insertIdx_append {α : Type} (early late : List α) (element : α) :
    (early ++ late).insertIdx early.length element = early ++ element :: late := by
  induction early with
  | nil => rfl
  | cons head early induction =>
      rw [List.cons_append, List.length_cons, List.insertIdx_succ_cons, induction, List.cons_append]

namespace Node

/-! The list of a series. -/

/-- The members of a series without their numbers. -/
def series (node : Node) (name : String) : List Node :=
  (node.members name).map (·.placed .unbound)

def others (node : Node) (name : String) : List Node :=
  node.children.filter (!isMember name ·)

section Places

variable {node : Node} {name : String} {position : Nat}

theorem multiplicity_of_getElem? (counted : Counted name node.children) {child : Node}
    (here : (node.members name)[position]? = some child) :
    child.facts.multiplicity = .index position := by
  rw [members] at here
  have inRange := (List.getElem?_eq_some_iff.mp here).1
  have numbers := congrArg (·[position]?) counted.length
  simp only [List.getElem?_map] at numbers
  rw [List.getElem?_range inRange, here] at numbers
  exact Option.some.inj numbers

theorem Counted.child?_eq_getElem? (counted : Counted name node.children) (position : Nat) :
    node.child? name (.index position) = (node.members name)[position]? := by
  have amongMembers : node.child? name (.index position) =
      (node.members name).find? (·.facts.multiplicity == .index position) := by
    rw [child?, members, List.find?_filter]
    congr 1
    funext child
    rw [Bool.eq_iff_iff, isAt, Bool.and_eq_true, decide_eq_true_eq, isMember, Bool.and_eq_true,
      and_assoc]
    refine and_congr_right fun _ => ⟨fun index => ⟨?_, index⟩, And.right⟩
    simp [isTemplate, eq_of_beq index]
  rw [amongMembers]
  cases here : (node.members name)[position]? with
  | some child =>
      rw [← multiplicity_of_getElem? counted here]
      refine find?_of_nodup_map ?_ (List.mem_of_getElem? here)
      rw [members, counted.length]
      exact List.nodup_range.map fun _ _ => Multiplicity.index.inj
  | none =>
      rw [List.find?_eq_none]
      intro child member isAt
      obtain ⟨other, there⟩ := List.getElem?_of_mem member
      have index := multiplicity_of_getElem? counted there
      rw [eq_of_beq isAt] at index
      cases index
      exact Option.some_ne_none child (there.symm.trans here)

theorem Numbered.child?_eq_getElem? (numbered : node.Numbered) (name : String) (position : Nat) :
    node.child? name (.index position) = (node.members name)[position]? :=
  (numbered.counted name).child?_eq_getElem? position

end Places

section Grown

variable {name : String} {position : Nat} {member small big : Node}

theorem placed_shift (node : Node) (multiplicity : Multiplicity) :
    (node.shift name position).placed multiplicity = node.placed multiplicity := by
  cases node.shift_cases name position with
  | inl moved =>
      obtain ⟨number, -, -, -, shifted⟩ := moved
      rw [shifted]
      rfl
  | inr same => rw [same]

theorem filter_map_shift (children : List Node) :
    (children.map (shift name position)).filter (isMember name) =
      (children.filter (isMember name)).map (shift name position) := by
  rw [List.filter_map]
  congr 2
  funext child
  exact isMember_shift ..

theorem others_map_shift (children : List Node) :
    (children.map (shift name position)).filter (!isMember name ·) =
      children.filter (!isMember name ·) := by
  induction children with
  | nil => rfl
  | cons child rest induction =>
      rw [List.map_cons, List.filter_cons, List.filter_cons, induction, isMember_shift]
      cases here : child.isMember name with
      | true => rfl
      | false => rw [shift_other here]

theorem GrowsBy.others (grows : GrowsBy name position member small big) :
    big.others name = small.others name := by
  obtain ⟨before, after, smaller, larger⟩ := grows.children.split
  have isMember : member.isMember name = true :=
    isMember_iff.mpr ⟨congrArg Step.name grows.children.step, isTemplate_of_step grows.children.step⟩
  rw [Node.others, Node.others, smaller, larger, List.filter_append, List.filter_append,
    List.filter_cons_of_neg (by simp [isMember]), others_map_shift, others_map_shift]

theorem GrowsBy.members (grows : GrowsBy name position member small big)
    (counted : Counted name big.children) : ∃ early late,
      small.members name = early ++ late ∧ early.length = position ∧
      big.members name =
        early.map (shift name position) ++ member :: late.map (shift name position) := by
  obtain ⟨before, after, smaller, larger⟩ := grows.children.split
  have isMember : member.isMember name = true :=
    isMember_iff.mpr ⟨congrArg Step.name grows.children.step, isTemplate_of_step grows.children.step⟩
  have bigMembers : big.members name = (before.filter (Node.isMember name)).map (shift name position) ++
      member :: (after.filter (Node.isMember name)).map (shift name position) := by
    rw [Node.members, larger, List.filter_append, List.filter_cons_of_pos isMember,
      filter_map_shift, filter_map_shift]
  refine ⟨_, _, by rw [Node.members, smaller, List.filter_append], ?_, bigMembers⟩
  have here : (big.members name)[(before.filter (Node.isMember name)).length]? = some member := by
    rw [bigMembers, List.getElem?_append_right (by simp)]
    simp
  have index : member.facts.multiplicity = .index position :=
    congrArg Step.multiplicity grows.children.step
  have place := multiplicity_of_getElem? counted here
  rw [index] at place
  exact (Multiplicity.index.inj place).symm

theorem GrowsBy.series (grows : GrowsBy name position member small big)
    (counted : Counted name big.children) :
    big.series name = (small.series name).insertIdx position (member.placed .unbound) ∧
      small.series name = (big.series name).eraseIdx position ∧
      (big.members name)[position]? = some member := by
  obtain ⟨early, late, smaller, rfl, larger⟩ := grows.members counted
  have unplaced (nodes : List Node) :
      (nodes.map (shift name early.length)).map (·.placed .unbound) =
        nodes.map (·.placed .unbound) := by
    rw [List.map_map]
    exact List.map_congr_left fun node _ => placed_shift node .unbound
  rw [Node.series, Node.series, smaller, larger, List.map_append, List.map_append, List.map_cons,
    unplaced, unplaced]
  have length : early.length = (early.map (·.placed .unbound)).length := by rw [List.length_map]
  refine ⟨?_, ?_, ?_⟩
  · rw [length, insertIdx_append]
  · rw [length, List.eraseIdx_append_of_length_le (Nat.le_refl _), Nat.sub_self]
    rfl
  · rw [List.getElem?_append_right (by simp)]
    simp

end Grown

/-! Fresh nodes. -/

def IsFresh (node : Node) : Prop := node.reset = node

theorem isFresh_iff {node : Node} : node.IsFresh ↔
    Facts.reset node.facts = node.facts ∧ ∀ child ∈ node.children, child.IsFresh := by
  rcases node with ⟨facts, children⟩
  rw [IsFresh, reset, resetAll_eq_map, Node.mk.injEq]
  apply and_congr_right
  intro _
  conv_lhs => rhs; rw [← List.map_id children]
  exact List.map_inj_left

theorem reset_isFresh (node : Node) : node.reset.IsFresh := by
  induction node using Node.induct with
  | step facts children induction =>
      rw [isFresh_iff, reset, resetAll_eq_map]
      constructor
      · rfl
      · intro child inChildren
        obtain ⟨original, member, rfl⟩ := List.mem_map.mp inChildren
        exact induction original member

theorem placed_isFresh {node : Node} {multiplicity : Multiplicity} :
    (node.placed multiplicity).IsFresh ↔ node.IsFresh := by
  rw [isFresh_iff, isFresh_iff]
  apply and_congr_left
  intro _
  rcases node with ⟨⟨name, number, attributes, type, answer, relevant, above, required, validity⟩,
    children⟩
  simp [placed, withFacts, Facts.reset]

theorem shift_isFresh {name : String} {position : Nat} {node : Node} :
    (node.shift name position).IsFresh ↔ node.IsFresh := by
  cases node.shift_cases name position with
  | inl moved =>
      obtain ⟨number, -, -, -, shifted⟩ := moved
      rw [shifted, placed_isFresh]
  | inr same => rw [same]

namespace IsFresh

variable {node : Node}

theorem relevance (fresh : node.IsFresh) :
    node.facts.relevant = true ∧ node.facts.underRelevant = true := by
  have facts := (isFresh_iff.mp fresh).1
  rw [← facts]
  exact ⟨rfl, rfl⟩

theorem isRelevant (fresh : node.IsFresh) : node.isRelevant = true := by
  rw [Node.isRelevant, fresh.relevance.1, fresh.relevance.2]
  rfl

theorem inherit_eq (fresh : node.IsFresh) : node.inherit true = node := by
  induction node using Node.induct with
  | step facts children induction =>
      obtain ⟨relevant, above⟩ := fresh.relevance
      have below : children.map (Node.inherit true) = children := by
        conv_rhs => rw [← List.map_id children]
        apply List.map_congr_left
        intro child member
        exact induction child member ((isFresh_iff.mp fresh).2 child member)
      rcases facts with ⟨name, multiplicity, attributes, type, answer, _, _, required, validity⟩
      cases relevant
      cases above
      rw [Node.inherit, inheritAll_eq_map]
      exact congrArg (Node.mk _) below

theorem inherit (fresh : node.IsFresh) : (node.inherit true).IsFresh := by
  rwa [fresh.inherit_eq]

theorem copy (node : Node) (multiplicity : Multiplicity) : (node.copy multiplicity).IsFresh :=
  placed_isFresh.mpr node.reset_isFresh

theorem append {child : Node} (fresh : node.IsFresh) (childFresh : child.IsFresh) :
    (node.append child).IsFresh := by
  rw [isFresh_iff, Node.append]
  constructor
  · exact (isFresh_iff.mp fresh).1
  · intro other member
    cases List.mem_append.mp member with
    | inl member => exact (isFresh_iff.mp fresh).2 other member
    | inr single =>
        rw [List.mem_singleton.mp single, fresh.isRelevant]
        split
        · exact childFresh.inherit
        · exact (placed_isFresh.mpr childFresh).inherit

theorem insertMember {child : Node} (fresh : node.IsFresh) (childFresh : child.IsFresh)
    (position : Nat) : (node.insertMember child position).IsFresh := by
  rw [isFresh_iff]
  constructor
  · exact (isFresh_iff.mp fresh).1
  · intro other member
    cases (node.insertMember_grows child position).mem_cases member with
    | inl new =>
        rw [new, fresh.isRelevant]
        exact (placed_isFresh.mpr childFresh).inherit
    | inr shifted =>
        obtain ⟨original, inChildren, rfl⟩ := shifted
        exact shift_isFresh.mpr ((isFresh_iff.mp fresh).2 original inChildren)

theorem of_growsBy {name : String} {position : Nat} {member small big : Node}
    (grows : GrowsBy name position member small big) (fresh : big.IsFresh) : small.IsFresh := by
  rw [isFresh_iff, grows.facts]
  constructor
  · exact (isFresh_iff.mp fresh).1
  · intro child inSmall
    have inBig := grows.children.mem_of_small inSmall
    exact shift_isFresh.mp ((isFresh_iff.mp fresh).2 _ inBig)

theorem descendant {path : List Step} {found : Node} (fresh : node.IsFresh)
    (reached : node.descendant? path = some found) : found.IsFresh := by
  induction path generalizing node with
  | nil =>
      cases reached
      exact fresh
  | cons step path induction =>
      obtain ⟨child, here, below⟩ := Option.bind_eq_some_iff.mp reached
      exact induction ((isFresh_iff.mp fresh).2 child (mem_of_child? here)) below

theorem changeDescendant {change : Node → Node} {path : List Step} {found : Node}
    (fresh : node.IsFresh) (reached : node.descendant? path = some found)
    (changed : (change found).IsFresh) : (node.changeDescendant change path).IsFresh := by
  induction path generalizing node with
  | nil =>
      cases reached
      exact changed
  | cons step path induction =>
      obtain ⟨child, here, below⟩ := Option.bind_eq_some_iff.mp reached
      obtain ⟨before, after, children, altered⟩ :=
        changeFirst_split (Node.changeDescendant change path) here
      obtain ⟨facts, each⟩ := isFresh_iff.mp fresh
      rw [children] at each
      rw [isFresh_iff, Node.changeDescendant, changeChild]
      constructor
      · exact facts
      · rw [altered]
        intro other member
        have inside := induction (each child (by simp)) below
        simp only [List.mem_append, List.mem_cons] at member each
        grind

end IsFresh

/-! Changes of the node that some steps lead to. -/

theorem changeFirst_congr {holds : Node → Bool} {change other : Node → Node} {list : List Node}
    {found : Node} (here : list.find? holds = some found) (same : change found = other found) :
    changeFirst holds change list = changeFirst holds other list := by
  induction list with
  | nil => rfl
  | cons head tail induction =>
      rw [changeFirst, changeFirst]
      cases first : holds head with
      | true =>
          rw [List.find?_cons_of_pos first] at here
          cases here
          rw [same, if_pos rfl, if_pos rfl]
      | false =>
          rw [List.find?_cons_of_neg (by simp [first])] at here
          rw [induction here]
          rfl

theorem changeDescendant_congr {change other : Node → Node} {path : List Step} {node found : Node}
    (reached : node.descendant? path = some found) (same : change found = other found) :
    node.changeDescendant change path = node.changeDescendant other path := by
  induction path generalizing node with
  | nil =>
      cases reached
      exact same
  | cons step path induction =>
      obtain ⟨child, here, below⟩ := Option.bind_eq_some_iff.mp reached
      rw [changeDescendant, changeDescendant, changeChild, changeChild,
        changeFirst_congr here (induction below)]

end Node

namespace AnswerTree

theorem change_congr {tree : AnswerTree} {reference : Reference} {change other : Node → Node}
    {node : Node} (found : tree.find? reference = some node) (same : change node = other node) :
    tree.change reference change = tree.change reference other := by
  obtain ⟨path, -, -, steps, reached⟩ := parent_steps found
  rw [AnswerTree.change, AnswerTree.change, steps]
  exact congrArg AnswerTree.mk (Node.changeDescendant_congr reached same)

/-- Between two trees, only one series of one node has changed. The node keeps
what it holds and its other children, and every other node stays as it is. -/
structure ChangesSeries (before after : AnswerTree) (parent : Reference) (name : String)
    (node changed : Node) : Prop where
  found : before.find? parent = some node
  foundAfter : after.find? parent = some changed
  facts : changed.facts = node.facts
  others : changed.others name = node.others name
  replaced : after = before.change parent fun _ => changed
  above : ∀ place, ¬ parent.steps <+: place.steps →
    (after.find? place).map (·.facts) = (before.find? place).map (·.facts)
  apart : ∀ place, ¬ parent.steps <+: place.steps → ¬ place.steps <+: parent.steps →
    after.find? place = before.find? place

section Change

variable {tree : AnswerTree} {parent : Reference} {name : String} {node changed : Node}

theorem changesSeries_of_change (found : tree.find? parent = some node)
    (facts : changed.facts = node.facts) (others : changed.others name = node.others name) :
    tree.ChangesSeries (tree.change parent fun _ => changed) parent name node changed := by
  let put : Node → Node := ({ · with children := changed.children })
  have same : put node = changed := by
    change Node.mk node.facts changed.children = changed
    rw [← facts]
    cases changed
    rfl
  have replaced : (tree.change parent fun _ => changed) = tree.change parent put :=
    change_congr found same.symm
  have keeps (other : Node) : (put other).facts.name = other.facts.name ∧
      (put other).facts.multiplicity = other.facts.multiplicity := ⟨rfl, rfl⟩
  refine ⟨found, ?_, facts, others, rfl, fun place below => ?_, fun place below above => ?_⟩
  · rw [replaced, find?_change_self keeps, found, Option.map_some, same]
  · rw [replaced]
    exact facts_change_other keeps below
  · rw [replaced]
    exact find?_change_apart keeps below above

theorem change_isFresh (fresh : tree.root.IsFresh) (found : tree.find? parent = some node)
    (changedFresh : changed.IsFresh) : (tree.change parent fun _ => changed).root.IsFresh := by
  obtain ⟨path, -, -, steps, reached⟩ := parent_steps found
  rw [AnswerTree.change, steps]
  exact fresh.changeDescendant reached changedFresh

end Change

structure IsPristine (tree : AnswerTree) : Prop where
  orderly : tree.root.IsOrderly
  fresh : tree.root.IsFresh

section Edits

variable {tree next : AnswerTree}

theorem IsPristine.node (pristine : tree.IsPristine) {reference : Reference} {node : Node}
    (found : tree.find? reference = some node) : node.IsOrderly ∧ node.IsFresh := by
  obtain ⟨path, -, -, -, reached⟩ := parent_steps found
  exact ⟨descendant_orderly pristine.orderly reached, pristine.fresh.descendant reached⟩

theorem IsPristine.insert (pristine : tree.IsPristine) {parent inserted : Reference}
    {name : String} {position : Nat}
    (done : tree.insert parent name position = .ok (next, inserted)) :
    next.IsPristine ∧ ∃ node template grown, tree.ChangesSeries next parent name node grown ∧
      node.template? name = some template ∧
      inserted = parent.child name (.index (min position (node.memberCount name))) ∧
      grown.series name = (node.series name).insertIdx (min position (node.memberCount name))
        (template.copy .unbound) := by
  obtain ⟨-, -, -, -, -, nextOrderly⟩ := insert_grows pristine.orderly done
  obtain ⟨node, template, found, here, replaced, rfl⟩ := insert_ok done
  obtain ⟨orderly, fresh⟩ := pristine.node found
  have copied : (template.copy (.index position)).facts.name = name := by
    rw [Node.name_copy, Node.name_of_template? here]
  have templateOrderly := orderly.child template (Node.mem_of_child? here)
  have numbered := orderly.numbered.insertMember orderly.lead.leads
    (templateOrderly.copy (.index position)).numbered position
  have grown := node.insertMember_grows (template.copy (.index position)) position
  rw [copied] at grown
  generalize place : min position (node.memberCount name) = number at grown ⊢
  generalize changed : node.insertMember (template.copy (.index position)) position = big at *
  have facts : big.facts = node.facts := by
    rw [← changed]
    rfl
  have grows : Node.GrowsBy name number
      (((template.copy (.index position)).placed (.index number)).inherit node.isRelevant)
      node big := ⟨facts.symm, grown⟩
  have isNext : next = tree.change parent fun _ => big := by
    rw [replaced]
    exact change_congr found changed
  -- A fresh copy in a fresh tree is told nothing new.
  have unplaced : (((template.copy (.index position)).placed (.index number)).inherit
      node.isRelevant).placed .unbound = template.copy .unbound := by
    have placed : ((template.copy (.index position)).placed (.index number)).IsFresh :=
      Node.placed_isFresh.mpr (.copy template _)
    rw [fresh.isRelevant, placed.inherit_eq]
    rfl
  refine ⟨⟨nextOrderly, ?_⟩, node, template, big, ?_, here, by rw [place], ?_⟩
  · rw [isNext]
    apply change_isFresh pristine.fresh found
    rw [← changed]
    exact fresh.insertMember (.copy template _) position
  · rw [isNext]
    exact changesSeries_of_change found facts grows.others
  · rw [(grows.series (numbered.counted name)).1, unplaced, place]

theorem remove_series (numbered : tree.root.Numbered) {reference : Reference} {removed : Node}
    (done : tree.remove reference = .ok (next, removed)) :
    ∃ parent name position node shrunk,
      reference = parent.child name (.index position) ∧
      tree.ChangesSeries next parent name node shrunk ∧
      (node.members name)[position]? = some removed ∧
      shrunk.series name = (node.series name).eraseIdx position := by
  obtain ⟨position, name, parent, node, shrunk, lastMultiplicity, lastName, isParent, found, -,
    taken, rfl⟩ := remove_ok done
  have nodeNumbered : node.Numbered :=
    find?_hereditary (fun _ => Node.Numbered.child) numbered found
  obtain ⟨facts, grown⟩ := Node.removeMember?_grows (nodeNumbered.counted name) taken
  have grows : Node.GrowsBy name position removed shrunk node := ⟨facts, grown⟩
  obtain ⟨-, series, here⟩ := grows.series (nodeNumbered.counted name)
  obtain ⟨-, isPlace, -⟩ := parent_steps found
  refine ⟨parent, name, position, node, shrunk, ?_, ?_, here, series⟩
  · exact Reference.eq_child_of_parent? isParent isPlace.absolute lastName lastMultiplicity
  · exact changesSeries_of_change found facts grows.others.symm

theorem IsPristine.remove (pristine : tree.IsPristine) {reference : Reference} {removed : Node}
    (done : tree.remove reference = .ok (next, removed)) :
    next.IsPristine ∧ ∃ parent name position node shrunk,
      reference = parent.child name (.index position) ∧
      tree.ChangesSeries next parent name node shrunk ∧
      (node.members name)[position]? = some removed ∧
      shrunk.series name = (node.series name).eraseIdx position := by
  refine ⟨?_, remove_series pristine.orderly.numbered done⟩
  obtain ⟨-, -, -, -, -, -, -, nextOrderly⟩ := remove_grows pristine.orderly done
  obtain ⟨position, name, parent, node, shrunk, -, -, -, found, -, taken, rfl⟩ := remove_ok done
  obtain ⟨orderly, fresh⟩ := pristine.node found
  obtain ⟨facts, grown⟩ := Node.removeMember?_grows (orderly.numbered.counted name) taken
  exact ⟨nextOrderly, change_isFresh pristine.fresh found (fresh.of_growsBy ⟨facts, grown⟩)⟩

end Edits

end AnswerTree

end ReactiveForm
