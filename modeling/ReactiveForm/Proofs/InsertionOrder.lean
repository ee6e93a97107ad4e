import ReactiveForm.Proofs.Resolving

/-! Document order. The members of a series stand in the order of their numbers as long
as none is inserted among the members in front of the template: the new one is put
behind the template, however small its number is, and the next removal then renumbers
the members as they stand. -/

namespace ReactiveForm

/-! Changes of one node. -/

theorem Node.Numbered.changeDescendant {node found : Node} {change : Node → Node}
    {path : List Step} (numbered : node.Numbered) (reached : node.descendant? path = some found)
    (step : (change found).step = found.step) (changed : (change found).Numbered) :
    (node.changeDescendant change path).Numbered := by
  induction path generalizing node with
  | nil =>
      cases reached
      exact changed
  | cons first path induction =>
      rcases Node.changeChild_of_reached reached (Node.changeDescendant change path) with
        ⟨before, child, after, reached, -, -, children, replaced⟩
      have each := numbered.child
      rw [children] at each
      rcases List.forall_mem_append.mp each with ⟨early, late⟩
      rcases List.forall_mem_cons.mp late with ⟨isChild, late⟩
      have steps : (child.changeDescendant change path).step = child.step :=
        Node.step_changeDescendant fun other there => by
          cases reached.symm.trans there
          exact step
      have same : node.children.map Node.step =
          (node.changeChild first.name first.multiplicity
            (Node.changeDescendant change path)).children.map Node.step := by
        simp [children, replaced, steps]
      have below : ∀ inner ∈ (node.changeChild first.name first.multiplicity
          (Node.changeDescendant change path)).children, inner.Numbered := by
        rw [replaced]
        exact List.forall_mem_append.mpr
          ⟨early, List.forall_mem_cons.mpr ⟨induction isChild reached, late⟩⟩
      exact numbered.withChildren same below

namespace AnswerTree

variable {tree : AnswerTree}

theorem numbered_of_find? (numbered : tree.root.Numbered) {place : Reference} {node : Node}
    (found : tree.find? place = some node) : node.Numbered :=
  find?_hereditary (fun _ => Node.Numbered.child) numbered found

theorem change_numbered (numbered : tree.root.Numbered) {place : Reference} {node : Node}
    (found : tree.find? place = some node) {change : Node → Node}
    (step : (change node).step = node.step) (changed : (change node).Numbered) :
    (tree.change place change).root.Numbered := by
  rcases parent_steps found with ⟨path, -, -, isPath, reached⟩
  rw [AnswerTree.change, isPath]
  exact numbered.changeDescendant reached step changed

/-- After an insertion series are in the order of their numbers if and only if the new
member does not belong in front of the template. -/
theorem insert_numbered_iff (numbered : tree.root.Numbered) {grown : AnswerTree}
    {parent inserted : Reference} {name : String} {position : Nat} {node : Node}
    (found : tree.find? parent = some node)
    (done : tree.insert parent name position = .ok (grown, inserted)) :
    grown.root.Numbered ↔ Node.membersInFront name node.children ≤ position := by
  rcases insert_ok done with ⟨other, template, foundToo, here, rfl, -⟩
  cases found.symm.trans foundToo
  have nodeNumbered := numbered_of_find? numbered found
  have copied := (nodeNumbered.child template (Node.mem_of_child? here)).copy (.index position)
  have named : (template.copy (.index position)).facts.name = name := by
    rw [Node.name_copy, Node.name_of_template? here]
  have inserted := nodeNumbered.insertMember_iff copied position
  rw [named] at inserted
  rw [← inserted]
  constructor
  · intro grownNumbered
    have there : (tree.change parent
        (·.insertMember (template.copy (.index position)) position)).find? parent =
          (tree.find? parent).map _ := find?_change_self fun _ => ⟨rfl, rfl⟩
    rw [found] at there
    exact numbered_of_find? grownNumbered there
  · intro changed
    refine change_numbered numbered found ?_ changed
    rfl

theorem remove_numbered (numbered : tree.root.Numbered) {shrunk : AnswerTree}
    {reference : Reference} {removed : Node}
    (done : tree.remove reference = .ok (shrunk, removed)) : shrunk.root.Numbered := by
  rcases remove_ok done with ⟨position, name, parent, node, remaining, -, -, -, found, -, taken, rfl⟩
  refine change_numbered numbered found ?_ ((numbered_of_find? numbered found).removeMember taken)
  rw [Node.step, Node.step, Node.facts_removeMember? taken]

end AnswerTree

/-! Histories. -/

inductive SeriesEdit where
  | insert (parent : Reference) (name : String) (position : Nat)
  | remove (reference : Reference)

namespace AnswerTree

variable {tree next : AnswerTree}

def edit (tree : AnswerTree) : SeriesEdit → Except TreeError AnswerTree
  | .insert parent name position => (tree.insert parent name position).map (·.1)
  | .remove reference => (tree.remove reference).map (·.1)

def edits (tree : AnswerTree) : List SeriesEdit → Except TreeError (List AnswerTree)
  | [] => .ok []
  | first :: rest => do
      let next ← tree.edit first
      let others ← next.edits rest
      return next :: others

theorem edits_cons {first : SeriesEdit} {rest : List SeriesEdit} {trees : List AnswerTree}
    (made : tree.edit first = .ok next) (later : next.edits rest = .ok trees) :
    tree.edits (first :: rest) = .ok (next :: trees) :=
  bind_eq_ok.mpr ⟨next, made, bind_eq_ok.mpr ⟨trees, later, rfl⟩⟩

/-- Is there room for a change? A new member does not belong in front of the template. -/
def hasRoomFor (tree : AnswerTree) : SeriesEdit → Bool
  | .insert parent name position =>
      (tree.find? parent).all fun node =>
        decide (Node.membersInFront name node.children ≤ position)
  | .remove _ => true

theorem edit_numbered_iff (numbered : tree.root.Numbered) {change : SeriesEdit}
    (done : tree.edit change = .ok next) :
    next.root.Numbered ↔ tree.hasRoomFor change = true := by
  cases change with
  | insert parent name position =>
      rcases map_eq_ok.mp done with ⟨⟨grown, inserted⟩, grows, rfl⟩
      rcases insert_ok grows with ⟨node, -, found, -⟩
      rw [insert_numbered_iff numbered found grows, hasRoomFor, found]
      simp
  | remove reference =>
      rcases map_eq_ok.mp done with ⟨⟨shrunk, removed⟩, shrinks, rfl⟩
      exact iff_of_true (remove_numbered numbered shrinks) rfl

theorem edits_numbered_iff (numbered : tree.root.Numbered) {changes : List SeriesEdit}
    {trees : List AnswerTree} (done : tree.edits changes = .ok trees) :
    (∀ later ∈ trees, later.root.Numbered) ↔
      ∀ entry ∈ (tree :: trees).zip changes, entry.1.hasRoomFor entry.2 = true := by
  induction changes generalizing tree trees with
  | nil =>
      cases done
      simp
  | cons first rest induction =>
      rcases bind_eq_ok.mp done with ⟨next, made, done⟩
      rcases bind_eq_ok.mp done with ⟨others, later, done⟩
      cases done
      have here := edit_numbered_iff numbered made
      rw [List.forall_mem_cons, List.zip_cons_cons, List.forall_mem_cons, ← here]
      exact and_congr_right fun nextNumbered => induction nextNumbered later

theorem expand_series_of_numbered (numbered : tree.root.Numbered) {parent : Reference}
    {node : Node} (found : tree.find? parent = some node) (name : String) :
    tree.expand (parent.child name .unbound) none =
      .ok ((List.range (node.memberCount name)).map fun position =>
        parent.child name (.index position)) := by
  have multiplicities : (node.members name).map (·.facts.multiplicity) =
      (List.range (node.memberCount name)).map .index :=
    ((numbered_of_find? numbered found).counted name).length
  rw [expand_series found]
  have listed := congrArg (List.map (parent.child name)) multiplicities
  rw [List.map_map, List.map_map] at listed
  exact congrArg Except.ok listed

end AnswerTree

/-- In a tree that a definition describes, series stay in the order of their numbers as long
as no insertion is among the members in front of a template, and no longer. As long as they
do, they are listed by their numbers, and a removal takes out the member at its place and
leaves the others as they follow one another. -/
theorem Definition.edits_keep_order_iff {definition : Definition} {constructors : Constructors}
    {tree : AnswerTree} (described : definition.tree constructors = .ok tree)
    {changes : List SeriesEdit} {trees : List AnswerTree}
    (done : tree.edits changes = .ok trees) :
    ((∀ later ∈ trees, later.root.Numbered) ↔
      ∀ entry ∈ (tree :: trees).zip changes, entry.1.hasRoomFor entry.2 = true) ∧
    ∀ later ∈ tree :: trees, later.root.Numbered →
      (∀ parent node name, later.find? parent = some node →
        later.expand (parent.child name .unbound) none =
          .ok ((List.range (node.memberCount name)).map fun position =>
            parent.child name (.index position))) ∧
      ∀ reference next removed, later.remove reference = .ok (next, removed) →
        next.root.Numbered ∧ ∃ parent name position node shrunk,
          reference = parent.child name (.index position) ∧
          later.ChangesSeries next parent name node shrunk ∧
          (node.members name)[position]? = some removed ∧
          shrunk.series name = (node.series name).eraseIdx position := by
  refine ⟨AnswerTree.edits_numbered_iff (tree_numbered described) done, fun later _ numbered => ?_⟩
  constructor
  · exact fun parent node name found => AnswerTree.expand_series_of_numbered numbered found name
  · exact fun reference next removed taken =>
      ⟨AnswerTree.remove_numbered numbered taken, AnswerTree.remove_series numbered taken⟩

/-- A new item behind the two others, and then the first one is taken out. -/
theorem pile_edits_keep_order : ∃ tree grown shrunk,
    Order.pile.tree .standard = .ok tree ∧
    tree.edits [.insert Order.place "item" 2, .remove (Order.place.child "item" (.index 0))] =
      .ok [grown, shrunk] ∧
    grown.root.Numbered ∧ shrunk.root.Numbered ∧
    shrunk.expand (Order.place.child "item" .unbound) none =
      .ok [Order.place.child "item" (.index 0), Order.place.child "item" (.index 1)] ∧
    ∃ removed parent name position node rest,
      grown.remove (Order.place.child "item" (.index 0)) = .ok (shrunk, removed) ∧
      grown.ChangesSeries shrunk parent name node rest ∧
      rest.series name = (node.series name).eraseIdx position := by
  have ready : (Order.pile.tree .standard).toOption.any (fun tree =>
      (tree.insert Order.place "item" 2).toOption.any fun (grown, _) =>
        tree.hasRoomFor (.insert Order.place "item" 2) &&
        (grown.remove (Order.place.child "item" (.index 0))).toOption.any fun (shrunk, _) =>
          (shrunk.find? Order.place).any fun node =>
            decide (node.memberCount "item" = 2)) = true := by
    decide +kernel
  rcases exists_ok_of_any ready with ⟨tree, described, ready⟩
  rcases exists_ok_of_any ready with ⟨⟨grown, inserted⟩, grows, ready⟩
  rcases Bool.and_eq_true_iff.mp ready with ⟨room, ready⟩
  rcases exists_ok_of_any ready with ⟨⟨shrunk, removed⟩, shrinks, ready⟩
  rcases (Option.any_eq_true _ _).mp ready with ⟨node, found, counted⟩
  have done : tree.edits [.insert Order.place "item" 2,
      .remove (Order.place.child "item" (.index 0))] = .ok [grown, shrunk] :=
    AnswerTree.edits_cons (map_eq_ok.mpr ⟨_, grows, rfl⟩)
      (AnswerTree.edits_cons (map_eq_ok.mpr ⟨_, shrinks, rfl⟩) rfl)
  rcases Definition.edits_keep_order_iff described done with ⟨kept, listed⟩
  have numbered := kept.mpr (List.forall_mem_cons.mpr
    ⟨room, List.forall_mem_singleton.mpr rfl⟩)
  rcases List.forall_mem_cons.mp numbered with ⟨grownNumbered, last⟩
  have shrunkNumbered := List.forall_mem_singleton.mp last
  have items := (listed shrunk (by simp) shrunkNumbered).1 _ _ "item" found
  rw [of_decide_eq_true counted] at items
  rcases ((listed grown (by simp) grownNumbered).2 _ _ _ shrinks).2 with
    ⟨parent, name, position, node, rest, -, changes, -, series⟩
  exact ⟨tree, grown, shrunk, described, done, grownNumbered, shrunkNumbered, items,
    removed, parent, name, position, node, rest, shrinks, changes, series⟩

/-- A new item in front of the two others, whose template stands behind them, comes last. When
the item numbered 2 is taken out, the two that are left swap their numbers, and their prices. -/
theorem pile_order_lost : ∃ tree grown shrunk,
    Order.pile.tree .standard = .ok tree ∧
    tree.edits [.insert Order.place "item" 0, .remove (Order.place.child "item" (.index 2))] =
      .ok [grown, shrunk] ∧
    ¬ grown.root.Numbered ∧
    grown.expand (Order.place.child "item" .unbound) none =
      .ok ([1, 2, 0].map fun number => Order.place.child "item" (.index number)) ∧
    [0, 1].map (fun number => grown.answer? (Order.ofItem number "price")) =
      [some (.int 5), some (.int 10)] ∧
    [0, 1].map (fun number => shrunk.answer? (Order.ofItem number "price")) =
      [some (.int 10), some (.int 5)] := by
  have ready : (Order.pile.tree .standard).toOption.any (fun tree =>
      (tree.insert Order.place "item" 0).toOption.any fun (grown, _) =>
        (grown.remove (Order.place.child "item" (.index 2))).toOption.any fun (shrunk, _) =>
          decide (tree.hasRoomFor (.insert Order.place "item" 0) = false ∧
            grown.expand (Order.place.child "item" .unbound) none =
              .ok ([1, 2, 0].map fun number => Order.place.child "item" (.index number)) ∧
            [0, 1].map (fun number => grown.answer? (Order.ofItem number "price")) =
              [some (.int 5), some (.int 10)] ∧
            [0, 1].map (fun number => shrunk.answer? (Order.ofItem number "price")) =
              [some (.int 10), some (.int 5)])) = true := by
    decide +kernel
  rcases exists_ok_of_any ready with ⟨tree, described, ready⟩
  rcases exists_ok_of_any ready with ⟨⟨grown, inserted⟩, grows, ready⟩
  rcases exists_ok_of_any ready with ⟨⟨shrunk, removed⟩, shrinks, ready⟩
  rcases of_decide_eq_true ready with ⟨noRoom, listed, before, after⟩
  have step : tree.edit (.insert Order.place "item" 0) = .ok grown :=
    map_eq_ok.mpr ⟨_, grows, rfl⟩
  have done : tree.edits [.insert Order.place "item" 0,
      .remove (Order.place.child "item" (.index 2))] = .ok [grown, shrunk] :=
    AnswerTree.edits_cons step (AnswerTree.edits_cons (map_eq_ok.mpr ⟨_, shrinks, rfl⟩) rfl)
  have lost : ¬ grown.root.Numbered := by
    rw [AnswerTree.edit_numbered_iff (Definition.tree_numbered described) step, noRoom]
    exact Bool.noConfusion
  exact ⟨tree, grown, shrunk, described, done, lost, listed, before, after⟩

end ReactiveForm
