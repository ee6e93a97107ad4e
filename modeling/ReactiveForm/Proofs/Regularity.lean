import ReactiveForm.Proofs.Blueprints
import ReactiveForm.Proofs.ValueEdits

/-! What holds of the tree of a form in every state. Each node has been told whether
the nodes above it are relevant, and each live node is the only one that its reference
leads to. Members need not stand in the order of their numbers for that: where the
template of a series stands behind its members, new members get in behind it. -/

namespace ReactiveForm

namespace Node

/-! Relevance that has been handed down. -/

def HandsDown (node : Node) : Prop := node.inherit node.facts.underRelevant = node

theorem handsDown_iff {node : Node} :
    node.HandsDown ↔ ∀ child ∈ node.children, child.inherit node.isRelevant = child := by
  rcases node with ⟨facts, children⟩
  have told : HandsDown ⟨facts, children⟩ ↔
      children.map (inherit (facts.relevant && facts.underRelevant)) = children.map id := by
    simp [HandsDown, inherit, inheritAll_eq_map]
  rw [told, List.map_inj_left]
  rfl

theorem inherit_eq_self_iff {node : Node} {above : Bool} :
    node.inherit above = node ↔ node.facts.underRelevant = above ∧ node.HandsDown := by
  constructor
  · intro same
    have told : node.facts.underRelevant = above := by rw [← same, facts_inherit]
    exact ⟨told, by rwa [HandsDown, told]⟩
  · rintro ⟨rfl, told⟩
    exact told

theorem inherit_handsDown (node : Node) (above : Bool) : (node.inherit above).HandsDown := by
  rw [HandsDown, facts_inherit, inherit_inherit]

theorem inherit_clearAnswers (node : Node) (above : Bool) :
    node.clearAnswers.inherit above = (node.inherit above).clearAnswers := by
  induction node using Node.induct generalizing above with
  | step facts children induction =>
      simp only [clearAnswers, inherit, inheritAll_eq_map, clearAllAnswers_eq_map, List.map_map]
      congr 1
      apply List.map_congr_left
      intro child member
      have same := isTemplate_congr (step_inherit child (facts.relevant && above))
      simp only [Function.comp_apply, same]
      split
      · rfl
      · exact induction child member _

namespace HandsDown

variable {node : Node}

theorem child (told : node.HandsDown) : ∀ child ∈ node.children, child.HandsDown :=
  fun child member => (inherit_eq_self_iff.mp (handsDown_iff.mp told child member)).2

theorem withFacts (told : node.HandsDown) {change : Facts → Facts}
    (same : (node.withFacts change).isRelevant = node.isRelevant) :
    (node.withFacts change).HandsDown := by
  rw [handsDown_iff, same]
  exact handsDown_iff.mp told

theorem setRelevant_self (told : node.HandsDown) :
    node.setRelevant node.facts.relevant = node := by
  cases node
  exact told

theorem clearAnswers (told : node.HandsDown) : node.clearAnswers.HandsDown := by
  have same : node.clearAnswers.facts.underRelevant = node.facts.underRelevant := by
    cases node
    rfl
  rw [HandsDown, same, inherit_clearAnswers, told]

theorem changeDescendant {change : Node → Node} {path : List Step} (told : node.HandsDown)
    (keeps : ∀ found, node.descendant? path = some found →
      (change found).facts.underRelevant = found.facts.underRelevant ∧
        (found.HandsDown → (change found).HandsDown)) :
    (node.changeDescendant change path).facts.underRelevant = node.facts.underRelevant ∧
      (node.changeDescendant change path).HandsDown := by
  induction path generalizing node with
  | nil => exact ⟨(keeps node rfl).1, (keeps node rfl).2 told⟩
  | cons step path induction =>
      refine ⟨rfl, handsDown_iff.mpr ?_⟩
      rw [Node.changeDescendant]
      rcases node.changeChild_cases step (Node.changeDescendant change path) with
        ⟨-, same⟩ | ⟨before, child, after, here, -, children, changed⟩
      · rw [same]
        exact handsDown_iff.mp told
      · have each := handsDown_iff.mp told
        rw [children] at each
        rw [changed]
        rcases List.forall_mem_append.mp each with ⟨early, late⟩
        rcases List.forall_mem_cons.mp late with ⟨first, late⟩
        rcases inherit_eq_self_iff.mp first with ⟨above, childTold⟩
        rw [descendant?_cons here] at keeps
        rcases induction childTold keeps with ⟨same, changedTold⟩
        refine List.forall_mem_append.mpr ⟨early, List.forall_mem_cons.mpr ⟨?_, late⟩⟩
        exact inherit_eq_self_iff.mpr ⟨same.trans above, changedTold⟩

theorem placed_inherit {above : Bool} (told : node.inherit above = node)
    (multiplicity : Multiplicity) :
    (node.placed multiplicity).inherit above = node.placed multiplicity := by
  rcases inherit_eq_self_iff.mp told with ⟨same, told⟩
  exact inherit_eq_self_iff.mpr ⟨same, told.withFacts rfl⟩

theorem append (told : node.HandsDown) (child : Node) : (node.append child).HandsDown := by
  refine handsDown_iff.mpr (List.forall_mem_append.mpr ⟨handsDown_iff.mp told, ?_⟩)
  exact List.forall_mem_singleton.mpr (inherit_inherit _ _ _)

theorem renumber (told : node.HandsDown) (name : String) : (node.renumber name).HandsDown := by
  refine handsDown_iff.mpr fun child member => ?_
  have each := handsDown_iff.mp told
  rcases mem_renumberFrom member with ⟨original, inChildren, rfl | ⟨number, rfl⟩⟩
  · exact each child inChildren
  · exact placed_inherit (each original inChildren) _

theorem insertMember (told : node.HandsDown) (child : Node) (position : Nat) :
    (node.insertMember child position).HandsDown := by
  refine handsDown_iff.mpr fun sibling member => ?_
  have each := handsDown_iff.mp told
  rcases (insertMember_grows node child position).mem_cases member with
    rfl | ⟨original, inChildren, rfl⟩
  · exact inherit_inherit _ _ _
  · rcases original.shift_cases child.facts.name
        (min position (node.memberCount child.facts.name)) with ⟨number, -, -, -, moved⟩ | same
    · rw [moved]
      exact placed_inherit (each original inChildren) _
    · rw [same]
      exact each original inChildren

theorem removeMember {name : String} {position : Nat} {removed remaining : Node}
    (told : node.HandsDown)
    (found : node.removeMember? name position = some (removed, remaining)) :
    remaining.HandsDown := by
  rw [removeMember?] at found
  rcases Option.map_eq_some_iff.mp found with ⟨⟨taken, rest⟩, took, equal⟩
  cases equal
  rcases takeFirst?_eq_some took with ⟨before, after, children, rfl, -⟩
  have fewer : HandsDown { node with children := before ++ after } := by
    refine handsDown_iff.mpr fun child member => handsDown_iff.mp told child ?_
    rw [children]
    rcases List.mem_append.mp member with inBefore | inAfter
    · exact List.mem_append_left _ inBefore
    · exact List.mem_append_right _ (List.mem_cons_of_mem _ inAfter)
  exact fewer.renumber name

theorem provide (told : node.HandsDown) (name : String) (multiplicity : Multiplicity) :
    (node.provide name multiplicity).HandsDown := by
  rw [Node.provide]
  split
  · exact told
  · split
    · exact told
    · exact (told.append _).renumber name

end HandsDown

theorem restores_handsDown : Restores fun node other =>
    other.facts.underRelevant = node.facts.underRelevant ∧ (node.HandsDown → other.HandsDown) where
  refl _ := ⟨rfl, id⟩
  trans := fun ⟨same, first⟩ ⟨sameToo, second⟩ => ⟨sameToo.trans same, second ∘ first⟩
  takeOver _ _ := ⟨rfl, fun told => told.withFacts rfl⟩
  provide node name multiplicity _ :=
    ⟨congrArg Facts.underRelevant (facts_provide node name multiplicity),
      fun told => told.provide name multiplicity⟩
  changeChild _ step change each :=
    ⟨rfl, fun told => (@HandsDown.changeDescendant _ change [step] told fun found _ =>
      each found).2⟩

theorem IsAdjustment.handsDown {change : Node → Node} (adjusts : IsAdjustment change)
    {node : Node} (told : node.HandsDown) : (change node).HandsDown := by
  cases adjusts with
  | facts revises =>
      refine told.withFacts ?_
      rw [isRelevant, isRelevant]
      exact congrArg₂ _ (revises node.facts).relevant (revises node.facts).underRelevant
  | relevance relevant => exact inherit_handsDown _ _
  | clear => exact told.clearAnswers

/-! Live nodes that are the only ones at their steps. -/

theorem Apart.congr {name : String} {lefts rights : List Node} (apart : Apart name lefts)
    (same : numbers name rights = numbers name lefts) : Apart name rights :=
  ⟨same ▸ apart.bound, same ▸ apart.distinct⟩

theorem Grows.apart {name : String} {position : Nat} {small big : List Node} {member : Node}
    (grows : Grows name position small member big) (apart : Apart name small) : Apart name big := by
  let move (multiplicity : Multiplicity) : Multiplicity :=
    (Step.shift name position ⟨name, multiplicity⟩).multiplicity
  have moved (multiplicity : Multiplicity) :
      Step.shift name position ⟨name, multiplicity⟩ = ⟨name, move multiplicity⟩ :=
    Step.mk.injEq .. ▸ ⟨Step.name_shift _, rfl⟩
  have injective : Function.Injective move := by
    intro left right same
    have steps : Step.shift name position ⟨name, left⟩ = Step.shift name position ⟨name, right⟩ := by
      rw [moved, moved, same]
    exact congrArg Step.multiplicity (Step.shift_injective steps)
  have arranged : (numbers name big).Perm (.index position :: (numbers name small).map move) := by
    rcases grows.split with ⟨before, after, rfl, rfl⟩
    have isMember := isMember_iff.mpr ⟨congrArg Step.name grows.step, isTemplate_of_step grows.step⟩
    have index : member.facts.multiplicity = .index position :=
      congrArg Step.multiplicity grows.step
    rw [numbers_append, numbers_cons_member isMember, numbers_map_shift, numbers_map_shift,
      numbers_append, List.map_append, index]
    exact List.perm_middle
  constructor
  · rw [arranged.mem_iff, List.mem_cons, List.mem_map]
    rintro (index | ⟨multiplicity, inSmall, unbound⟩)
    · cases index
    · have step := moved multiplicity
      rcases Step.shift_cases name position ⟨name, multiplicity⟩ with ⟨number, -, -, same⟩ | ⟨same, -⟩
      · rw [same, unbound] at step
        cases step
      · rw [same, unbound] at step
        cases step
        exact apart.bound inSmall
  · rw [arranged.nodup_iff, List.nodup_cons, List.mem_map]
    refine ⟨?_, apart.distinct.map injective⟩
    rintro ⟨multiplicity, -, taken⟩
    exact Step.shift_ne _ ((moved multiplicity).trans (congrArg (Step.mk name) taken))

theorem Apart.sublist {name : String} {fewer children : List Node} (apart : Apart name children)
    (sublist : fewer.Sublist children) : Apart name fewer := by
  have numbers : (numbers name fewer).Sublist (numbers name children) :=
    (sublist.filter _).map _
  exact ⟨fun unbound => apart.bound (numbers.mem unbound), apart.distinct.sublist numbers⟩

namespace IsDistinct

variable {node : Node}

theorem withFacts (distinct : node.IsDistinct) (change : Facts → Facts) :
    (node.withFacts change).IsDistinct := by
  cases distinct with
  | intro apart below => exact .intro apart below

theorem of_outline {other : Node} (distinct : node.IsDistinct)
    (same : other.outline = node.outline) : other.IsDistinct := by
  induction node using Node.induct generalizing other with
  | step facts children induction =>
      rcases outline_eq_iff.mp same with ⟨-, -, outlines⟩
      refine .of_children (fun name => (distinct.apart name).congr ?_) fun child member => ?_
      · apply multiplicities_of_steps
        have steps := congrArg (List.map step) outlines
        have sameStep (node : Node) : node.outline.step = node.step := by simp [Node.step, Facts.blank]
        simpa [Function.comp_def, sameStep] using steps
      · have inOutlines := List.mem_map_of_mem (f := outline) member
        rw [outlines] at inOutlines
        rcases List.mem_map.mp inOutlines with ⟨original, inChildren, equal⟩
        exact induction original inChildren (distinct.child original inChildren) equal.symm

theorem changeDescendant {change : Node → Node} {path : List Step} (distinct : node.IsDistinct)
    (keeps : ∀ found, node.descendant? path = some found →
      (change found).step = found.step ∧ (found.IsDistinct → (change found).IsDistinct)) :
    (node.changeDescendant change path).IsDistinct := by
  induction path generalizing node with
  | nil => exact (keeps node rfl).2 distinct
  | cons step path induction =>
      rw [Node.changeDescendant]
      rcases node.changeChild_cases step (Node.changeDescendant change path) with
        ⟨-, same⟩ | ⟨before, child, after, here, -, children, changed⟩
      · rw [same]
        exact distinct
      · have each := distinct.child
        rw [children] at each
        rcases List.forall_mem_append.mp each with ⟨early, late⟩
        rcases List.forall_mem_cons.mp late with ⟨first, late⟩
        rw [descendant?_cons here] at keeps
        have steps := step_changeDescendant fun found reached => (keeps found reached).1
        refine .of_children (fun name => (distinct.apart name).congr ?_) ?_
        · apply multiplicities_of_steps
          simp [changed, children, steps]
        · rw [changed]
          exact List.forall_mem_append.mpr
            ⟨early, List.forall_mem_cons.mpr ⟨induction first keeps, late⟩⟩

theorem insertMember (distinct : node.IsDistinct) {child : Node} (childDistinct : child.IsDistinct)
    (position : Nat) : (node.insertMember child position).IsDistinct := by
  have grows := insertMember_grows node child position
  refine .of_children (fun name => ?_) fun sibling inChildren => ?_
  · by_cases same : name = child.facts.name
    · subst same
      exact grows.apart (distinct.apart child.facts.name)
    · exact (distinct.apart name).congr (grows.numbers_other same)
  · rcases grows.mem_cases inChildren with rfl | ⟨original, inSmall, rfl⟩
    · exact (childDistinct.withFacts _).of_outline (outline_inherit _ _)
    · rcases shift_eq_withFacts child.facts.name
        (min position (node.memberCount child.facts.name)) original with ⟨facts, shifted⟩
      rw [shifted]
      exact (distinct.child original inSmall).withFacts _

theorem removeMember {name : String} {position : Nat} {removed remaining : Node}
    (distinct : node.IsDistinct)
    (found : node.removeMember? name position = some (removed, remaining)) :
    remaining.IsDistinct := by
  rw [removeMember?] at found
  rcases Option.map_eq_some_iff.mp found with ⟨⟨taken, rest⟩, took, equal⟩
  cases equal
  rcases takeFirst?_eq_some took with ⟨before, after, children, rfl, -⟩
  have fewer : (before ++ after).Sublist node.children := by
    rw [children]
    exact (List.sublist_cons_self _ _).append_left before
  refine .of_children (fun other => ?_) fun child member => ?_
  · by_cases same : other = name
    · subst same
      exact .of_index (renumberFrom_counted other 0 _) List.nodup_range'
    · exact ((distinct.apart other).sublist fewer).congr (renumberFrom_other same 0 _)
  · rcases mem_renumberFrom member with ⟨original, inRest, rfl | ⟨number, rfl⟩⟩
    · exact distinct.child child (fewer.mem inRest)
    · exact (distinct.child original (fewer.mem inRest)).withFacts _

end IsDistinct

end Node

/-! Trees. -/

namespace AnswerTree

variable {tree : AnswerTree} {above : Bool}

theorem inherit_change (told : tree.root.inherit above = tree.root) {place : Reference}
    {change : Node → Node}
    (keeps : ∀ found, tree.find? place = some found →
      (change found).facts.underRelevant = found.facts.underRelevant ∧
        (found.HandsDown → (change found).HandsDown)) :
    (tree.change place change).root.inherit above = (tree.change place change).root := by
  refine change_cases (fun tree => tree.root.inherit above = tree.root) told
    fun path reaches => ?_
  rcases Node.inherit_eq_self_iff.mp told with ⟨shown, handsDown⟩
  rcases handsDown.changeDescendant fun found reached => keeps found (reaches found reached) with
    ⟨same, changed⟩
  exact Node.inherit_eq_self_iff.mpr ⟨same.trans shown, changed⟩

theorem lasting_inherit (above : Bool) :
    IsLasting fun tree => tree.root.inherit above = tree.root where
  adjusts told adjusts :=
    inherit_change told fun found _ => ⟨adjusts.underRelevant_eq found, adjusts.handsDown⟩
  insert told done := by
    rcases insert_ok done with ⟨node, template, -, -, rfl, -⟩
    exact inherit_change told fun _ _ => ⟨rfl, fun told => told.insertMember _ _⟩
  remove told done := by
    rcases remove_ok done with
      ⟨position, name, parent, node, remaining, -, -, -, found, -, taken, rfl⟩
    refine inherit_change told fun other foundToo => ?_
    cases found.symm.trans foundToo
    exact ⟨congrArg Facts.underRelevant (Node.facts_removeMember? taken),
      fun told => told.removeMember taken⟩

/-- Every node of a tree has been told whether all nodes above it are relevant. -/
def IsInformed (tree : AnswerTree) : Prop := tree.root.inherit true = tree.root

theorem lasting_isInformed : IsLasting IsInformed := lasting_inherit true

theorem IsInformed.restore (informed : tree.IsInformed) {saved restored : AnswerTree}
    (done : tree.restore saved = .ok restored) : restored.IsInformed := by
  rcases Node.inherit_eq_self_iff.mp informed with ⟨shown, told⟩
  rcases Node.restores_handsDown.root done with ⟨same, keeps⟩
  exact Node.inherit_eq_self_iff.mpr ⟨same.trans shown, keeps told⟩

theorem lasting_handsDown : IsLasting (·.root.HandsDown) where
  adjusts told adjusts :=
    (Node.inherit_eq_self_iff.mp ((lasting_inherit _).adjusts told adjusts)).2
  insert told done := (Node.inherit_eq_self_iff.mp ((lasting_inherit _).insert told done)).2
  remove told done := (Node.inherit_eq_self_iff.mp ((lasting_inherit _).remove told done)).2

theorem isDistinct_change (distinct : tree.root.IsDistinct) {place : Reference}
    {change : Node → Node}
    (keeps : ∀ found, tree.find? place = some found → (change found).step = found.step ∧
      (found.IsDistinct → (change found).IsDistinct)) :
    (tree.change place change).root.IsDistinct :=
  change_cases (·.root.IsDistinct) distinct fun _ reaches =>
    distinct.changeDescendant fun found reached => keeps found (reaches found reached)

theorem lasting_isDistinct : IsLasting (·.root.IsDistinct) where
  adjusts distinct adjusts := distinct.of_outline (change_sameShape adjusts.outline_eq _ _)
  insert distinct done := by
    rcases insert_ok done with ⟨node, template, found, here, rfl, -⟩
    refine isDistinct_change distinct fun other foundToo => ⟨rfl, fun distinct => ?_⟩
    cases found.symm.trans foundToo
    have templateDistinct := distinct.child template (Node.mem_of_child? here)
    exact distinct.insertMember
      ((templateDistinct.of_outline (Node.outline_reset template)).withFacts _) _
  remove distinct done := by
    rcases remove_ok done with
      ⟨position, name, parent, node, remaining, -, -, -, found, -, taken, rfl⟩
    have facts := Node.facts_removeMember? taken
    refine isDistinct_change distinct fun other foundToo => ?_
    cases found.symm.trans foundToo
    exact ⟨by rw [Node.step, facts, Node.step], fun distinct => distinct.removeMember taken⟩

structure IsRegular (tree : AnswerTree) : Prop where
  handsDown : tree.root.HandsDown
  distinct : tree.root.IsDistinct

theorem lasting_isRegular : IsLasting IsRegular :=
  (lasting_handsDown.and lasting_isDistinct).congr fun _ =>
    ⟨fun regular => ⟨regular.handsDown, regular.distinct⟩, fun both => ⟨both.1, both.2⟩⟩

namespace IsRegular

variable (regular : tree.IsRegular) {place : Reference} {node : Node}

include regular

theorem handsDown_of_find? (found : tree.find? place = some node) : node.HandsDown :=
  find?_hereditary (fun _ => Node.HandsDown.child) regular.handsDown found

theorem isDistinct_of_find? (found : tree.find? place = some node) : node.IsDistinct :=
  find?_hereditary (fun _ => Node.IsDistinct.child) regular.distinct found

end IsRegular

end AnswerTree

/-! Forms. -/

theorem Node.append_inherit {node : Node} (told : node.inherit true = node) (child : Node) :
    (node.append child).inherit true = node.append child := by
  rcases inherit_eq_self_iff.mp told with ⟨shown, told⟩
  exact inherit_eq_self_iff.mpr ⟨shown, told.append child⟩

theorem AnswerTree.IsInformed.ofRoot {root : Node} (told : root.inherit true = root) :
    (AnswerTree.ofRoot root).IsInformed :=
  Node.HandsDown.placed_inherit told _

theorem Definition.tree_isInformed {definition : Definition} {constructors : Constructors}
    {tree : AnswerTree} (described : definition.tree constructors = .ok tree) :
    tree.IsInformed := by
  rcases map_eq_ok.mp described with ⟨root, node, rfl⟩
  have keeps : Skeleton.Keeps fun node => node.inherit true = node := by
    refine ⟨fun _ _ _ _ => rfl, fun told entry => ?_, fun told _ => Node.append_inherit told _⟩
    rcases Node.inherit_eq_self_iff.mp told with ⟨shown, told⟩
    exact Node.inherit_eq_self_iff.mpr ⟨shown, told.withFacts rfl⟩
  exact .ofRoot (Skeleton.node_holds keeps constructors _ node)

theorem Definition.reached_isRegular {definition : Definition} {constructors : Constructors}
    {settings : Settings} {material : Material} {evaluator : Evaluator}
    {saved : Option AnswerTree} {form : Form}
    (made : definition.material constructors settings = .ok material)
    (built : Form.build material evaluator saved = .ok form) {current : Form}
    (reached : form.Reached current) : current.tree.IsRegular := by
  refine AnswerTree.lasting_isRegular.reached ?_ reached
  have described := (material_ok made).1
  have told := (Node.inherit_eq_self_iff.mp (tree_isInformed described)).2
  have numbered := tree_numbered described
  rcases (Form.build_ok built).1 with same | ⟨earlier, restored⟩
  · rw [same]
    exact ⟨told, .of_numbered numbered⟩
  · exact ⟨(Node.restores_handsDown.root restored).2 told,
      .of_numbered (AnswerTree.restore_numbered numbered restored)⟩

end ReactiveForm
