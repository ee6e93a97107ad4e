import ReactiveForm.Proofs.Remarks
import ReactiveForm.Proofs.Restoring
import ReactiveForm.Proofs.Spelling
import ReactiveForm.Storage.StoredForm

/-! What is stored of a tree is enough to restore it. A stored node says neither
its number in its series nor what it inherits, and its answer is text; but in
every tree that a form comes to, all of this is found again. -/

namespace ReactiveForm

/-! Trees that can be stored. -/

namespace Node

theorem IsOrderly.append {node child : Node} (orderly : node.IsOrderly)
    (childOrderly : child.IsOrderly) (live : child.isTemplate = false) :
    (node.append child).IsOrderly := by
  refine ⟨orderly.numbered.append childOrderly.numbered, .of_children ?_ ?_⟩
  · refine List.pairwise_append.mpr ⟨orderly.lead.leads, List.pairwise_singleton _ _, ?_⟩
    intro earlier _ later last template
    rw [List.mem_singleton.mp last, live, if_neg Bool.false_ne_true, isTemplate, facts_inherit]
      at template
    cases template
  · refine List.forall_mem_append.mpr ⟨orderly.lead.child, List.forall_mem_singleton.mpr ?_⟩
    rw [live, if_neg Bool.false_ne_true]
    exact (childOrderly.lead.withFacts _).of_outline (outline_inherit _ _)

theorem IsOrderly.provide {node : Node} (orderly : node.IsOrderly) (name : String)
    {multiplicity : Multiplicity} (live : multiplicity ≠ .template) :
    (node.provide name multiplicity).IsOrderly := by
  rw [Node.provide]
  split
  · exact orderly
  · split
    · exact orderly
    next template found =>
      have copied := (orderly.child template (mem_of_child? found)).copy multiplicity
      rw [(orderly.numbered.append copied.numbered).renumber_eq]
      exact orderly.append copied (by simpa [isTemplate, multiplicity_copy] using live)

theorem IsOrderly.changeChild {node : Node} (orderly : node.IsOrderly) (step : Step)
    {change : Node → Node} (keeps : ∀ child, (change child).step = child.step)
    (changed : ∀ child, child.IsOrderly → (change child).IsOrderly) :
    (node.changeChild step.name step.multiplicity change).IsOrderly := by
  have steps : node.children.map Node.step =
      (node.changeChild step.name step.multiplicity change).children.map Node.step :=
    (map_changeFirst keeps node.children).symm
  have below : ∀ child ∈ (node.changeChild step.name step.multiplicity change).children,
      child.IsOrderly := by
    rcases node.changeChild_cases step change with
      ⟨-, same⟩ | ⟨before, child, after, -, -, children, changedChildren⟩
    · rw [same]
      exact orderly.child
    · have each := orderly.child
      rw [children] at each
      rcases List.forall_mem_append.mp each with ⟨early, late⟩
      rcases List.forall_mem_cons.mp late with ⟨first, late⟩
      rw [changedChildren]
      exact List.forall_mem_append.mpr ⟨early, List.forall_mem_cons.mpr ⟨changed child first, late⟩⟩
  exact ⟨orderly.numbered.withChildren steps fun child member => (below child member).numbered,
    .of_children (orderly.lead.leads.congr steps) fun child member => (below child member).lead⟩

theorem restores_isOrderly : Restores fun node other =>
    (node.IsOrderly → other.IsOrderly) ∧ other.step = node.step where
  refl _ := ⟨id, rfl⟩
  trans := fun ⟨first, step⟩ ⟨second, stepToo⟩ => ⟨second ∘ first, stepToo.trans step⟩
  takeOver _ _ :=
    ⟨fun orderly => ⟨orderly.numbered.withFacts _, orderly.lead.withFacts _⟩,
      step_withFacts (fun _ => rfl) fun _ => rfl⟩
  provide node name multiplicity live := by
    refine ⟨fun orderly => orderly.provide name live, ?_⟩
    rw [step, step, facts_provide]
  changeChild _ step _ each :=
    ⟨fun orderly => orderly.changeChild step (fun child => (each child).2)
      fun child => (each child).1, rfl⟩

end Node

structure AnswerTree.IsStorable (tree : AnswerTree) : Prop where
  first : tree.root.facts.multiplicity = .index 0
  informed : tree.IsInformed
  orderly : tree.root.IsOrderly
  tidy : tree.root.IsTidy

namespace AnswerTree

theorem change_first {tree : AnswerTree} {place : Reference} {change : Node → Node}
    (first : tree.root.facts.multiplicity = .index 0)
    (keeps : ∀ found, tree.find? place = some found → (change found).step = found.step) :
    (tree.change place change).root.facts.multiplicity = .index 0 := by
  refine change_cases (·.root.facts.multiplicity = .index 0) first fun path reaches => ?_
  have same : (tree.root.changeDescendant change path).step = tree.root.step :=
    Node.step_changeDescendant fun found reached => keeps found (reaches found reached)
  exact (congrArg Step.multiplicity same).trans first

theorem lasting_first : IsLasting (·.root.facts.multiplicity = .index 0) where
  adjusts first adjusts := change_first first fun found _ => adjusts.step_eq found
  insert first done := by
    rcases insert_ok done with ⟨node, template, -, -, rfl, -⟩
    exact change_first first fun _ _ => rfl
  remove first done := by
    rcases remove_ok done with
      ⟨position, name, parent, node, remaining, -, -, -, found, -, taken, rfl⟩
    refine change_first first fun other foundToo => ?_
    cases found.symm.trans foundToo
    rw [Node.step, Node.facts_removeMember? taken, Node.step]

theorem lasting_isOrderly : IsLasting (·.root.IsOrderly) where
  adjusts orderly adjusts := (change_sameShape adjusts.outline_eq _ _).isOrderly orderly
  insert orderly done := by
    rcases insert_grows orderly done with ⟨-, -, -, -, -, grown⟩
    exact grown
  remove orderly done := by
    rcases remove_grows orderly done with ⟨-, -, -, -, -, -, -, shrunk⟩
    exact shrunk

theorem lasting_isTidy : IsLasting (·.root.IsTidy) where
  adjusts tidy adjusts := everywhere_change tidy fun found _ tidy =>
    Node.IsTidy.congr tidy (adjusts.remarks_eq found)
  insert tidy done := everywhere_insert Node.attributes_persist tidy done
  remove tidy done := everywhere_remove Node.attributes_persist tidy done

theorem lasting_isStorable : IsLasting IsStorable :=
  ((lasting_first.and lasting_isInformed).and (lasting_isOrderly.and lasting_isTidy)).congr
    fun _ => ⟨fun storable => ⟨⟨storable.first, storable.informed⟩, storable.orderly, storable.tidy⟩,
      fun ⟨⟨first, informed⟩, orderly, tidy⟩ => ⟨first, informed, orderly, tidy⟩⟩

theorem IsStorable.restore {tree saved restored : AnswerTree} (storable : tree.IsStorable)
    (done : tree.restore saved = .ok restored) : restored.IsStorable := by
  rcases Node.restores_isOrderly.root done with ⟨orderly, step⟩
  exact ⟨(congrArg Step.multiplicity step).trans storable.first, storable.informed.restore done,
    orderly storable.orderly, Node.restores_isTidy.root done storable.tidy⟩

end AnswerTree

/-! Forms. -/

theorem Definition.tree_isStorable {definition : Definition} {constructors : Constructors}
    {tree : AnswerTree} (described : definition.tree constructors = .ok tree)
    (lead : tree.root.TemplatesLead) : tree.IsStorable := by
  have numbered := tree_numbered described
  have informed := tree_isInformed described
  rcases map_eq_ok.mp described with ⟨root, node, rfl⟩
  have tidy : Skeleton.Keeps Node.IsTidy :=
    ⟨fun _ _ _ _ => Node.isTidy_iff.mpr ⟨List.nodup_nil, fun _ none => nomatch none⟩,
      fun tidy entry => tidy.setAttribute entry, fun tidy childTidy => tidy.append childTidy⟩
  have rootTidy := Skeleton.node_holds tidy constructors _ node
  exact ⟨rfl, informed, ⟨numbered, lead⟩, rootTidy.congr (Node.remarks_placed _ _)⟩

theorem Definition.reached_isStorable {definition : Definition} {constructors : Constructors}
    {settings : Settings} {material : Material} {evaluator : Evaluator}
    {saved : Option AnswerTree} {form : Form}
    (made : definition.material constructors settings = .ok material)
    (lead : material.tree.root.TemplatesLead)
    (built : Form.build material evaluator saved = .ok form) {current : Form}
    (reached : form.Reached current) : current.tree.IsStorable := by
  refine AnswerTree.lasting_isStorable.reached ?_ reached
  have storable := tree_isStorable (material_ok made).1 lead
  rcases (Form.build_ok built).1 with same | ⟨earlier, restored⟩
  · rwa [same]
  · exact storable.restore restored

/-! Answers. -/

def Value.reread (value : Value) : Value :=
  (read? value.type value.display).getD value

/-- If the answer is a decimal, its text stands for the same number. -/
def Facts.IsLegible (facts : Facts) : Prop :=
  ∀ value ∈ facts.answer, value.type = .decimal →
    (Value.read? .decimal value.display).any (·.same value) = true

instance (facts : Facts) : Decidable facts.IsLegible :=
  inferInstanceAs (Decidable (∀ value ∈ facts.answer, value.type = .decimal →
    (Value.read? .decimal value.display).any (·.same value) = true))

theorem Facts.IsLegible.read {facts : Facts} (legible : facts.IsLegible) {value : Value}
    (answered : facts.answer = some value) :
    Value.read value.type value.display = .ok value.reread ∧ value.reread.same value = true := by
  by_cases decimal : value.type = .decimal
  · rcases (Option.any_eq_true _ _).mp (legible value answered decimal) with ⟨again, reads, same⟩
    have reread : value.reread = again := by
      rw [Value.reread, decimal, reads, Option.getD_some]
    rw [reread, Value.read, decimal, reads]
    exact ⟨rfl, same⟩
  · have reads := Value.read_display decimal
    have reread : value.reread = value := by
      rw [Value.read] at reads
      rw [Value.reread]
      split at reads
      next found =>
        rw [found, Option.getD_some]
        exact Except.ok.inj reads
      next => cases reads
    rw [reread]
    exact ⟨reads, value.same_self⟩

/-! Nodes. -/

def Facts.reread (facts : Facts) : Facts :=
  { facts with answer := facts.answer.map Value.reread }

theorem Facts.IsLegible.same_reread {facts : Facts} (legible : facts.IsLegible) :
    facts.reread.same facts = true := by
  have answers : sameAnswer (facts.answer.map Value.reread) facts.answer = true := by
    cases answered : facts.answer with
    | none => rfl
    | some value => exact (legible.read answered).2
  rw [Facts.same, Facts.reread, answers]
  exact decide_eq_true rfl

namespace Node

mutual

def reread : Node → Node
  | ⟨facts, children⟩ => ⟨facts.reread, rereadAll children⟩

def rereadAll : List Node → List Node
  | [] => []
  | node :: rest => node.reread :: rereadAll rest

end

theorem rereadAll_eq_map : ∀ nodes : List Node, rereadAll nodes = nodes.map reread
  | [] => rfl
  | node :: rest => by rw [rereadAll, rereadAll_eq_map rest, List.map_cons]

theorem facts_reread (node : Node) : node.reread.facts = node.facts.reread := by
  cases node
  rw [reread]

theorem step_reread (node : Node) : node.reread.step = node.step := by
  rw [Node.step, facts_reread]
  rfl

theorem isTemplate_reread (node : Node) : node.reread.isTemplate = node.isTemplate := by
  rw [isTemplate, facts_reread]
  rfl

def IsLegible (node : Node) : Prop := ∀ facts ∈ node.contents, facts.IsLegible

instance (node : Node) : Decidable node.IsLegible :=
  inferInstanceAs (Decidable (∀ facts ∈ node.contents, facts.IsLegible))

theorem isLegible_iff {node : Node} :
    node.IsLegible ↔ node.facts.IsLegible ∧ ∀ child ∈ node.children, child.IsLegible :=
  forall_contents_iff

theorem IsLegible.same_reread {node : Node} (legible : node.IsLegible) :
    node.reread.same node = true := by
  induction node using Node.induct with
  | step facts children induction =>
      rcases isLegible_iff.mp legible with ⟨own, below⟩
      have each : ∀ nodes : List Node, nodes ⊆ children →
          allSame (nodes.map Node.reread) nodes = true := by
        intro nodes
        induction nodes with
        | nil => exact fun _ => rfl
        | cons node rest inner =>
            intro subset
            rcases List.cons_subset.mp subset with ⟨first, others⟩
            rw [List.map_cons, allSame, induction node first (below node first), inner others]
            rfl
      rw [reread, rereadAll_eq_map, Node.same, own.same_reread, each children (List.Subset.refl _)]
      rfl

theorem inherit_placed (node : Node) (above : Bool) (multiplicity : Multiplicity) :
    (node.inherit above).placed multiplicity = (node.placed multiplicity).inherit above := by
  cases node
  rfl

theorem memberCount_map {change : Node → Node} (keeps : ∀ node, (change node).step = node.step)
    (facts : Facts) (nodes : List Node) (name : String) :
    memberCount ⟨facts, nodes.map change⟩ name = (nodes.filter (isMember name)).length := by
  have same : isMember name ∘ change = isMember name :=
    funext fun node => isMember_of_step (keeps node) name
  rw [memberCount, members, List.filter_map, same, List.length_map]

theorem append_again {parent node : Node}
    (next : node.isTemplate = false →
      node.facts.multiplicity = .index (parent.memberCount node.facts.name)) :
    parent.append ((node.placed (if node.isTemplate then .template else .index 0)).inherit true) =
      { parent with children := parent.children ++ [node.inherit parent.isRelevant] } := by
  cases template : node.isTemplate with
  | true =>
      have same : node.placed .template = node := placed_self (by simpa [isTemplate] using template)
      rw [if_pos rfl, same, Node.append]
      simp only [isTemplate, facts_inherit] at template ⊢
      rw [if_pos template, inherit_inherit]
  | false =>
      have live : ((node.placed (.index 0)).inherit true).isTemplate = false := by
        simp [isTemplate, placed, Node.withFacts]
      have named : ((node.placed (.index 0)).inherit true).facts.name = node.facts.name := by
        rw [facts_inherit]
        rfl
      have again : (node.placed (.index 0)).placed node.facts.multiplicity = node := by
        cases node
        rfl
      rw [if_neg Bool.false_ne_true, Node.append, live, if_neg Bool.false_ne_true, named,
        ← next template, inherit_placed, again, inherit_inherit]

end Node

namespace StoredNode

theorem ofNodes_eq_map : ∀ nodes : List Node, ofNodes nodes = nodes.map ofNode
  | [] => rfl
  | node :: rest => by rw [ofNodes, ofNodes_eq_map rest, List.map_cons]

theorem facts_ofNode {node : Node} (legible : node.facts.IsLegible)
    (tidy : Attribute.AreApart node.facts.attributes) (children : List StoredNode) :
    ({ ofNode node with children } : StoredNode).facts .standard =
      .ok { node.facts.reread with
        multiplicity := if node.isTemplate then .template else .index 0
        underRelevant := true } := by
  rcases node with ⟨held, below⟩
  have attributes : held.attributes.foldl (fun entries entry => entry.putInto entries) [] =
      held.attributes :=
    @Attribute.AreApart.foldl_putInto_eq [] held.attributes tidy
  have answer : (held.answer.map fun value => (⟨value.type.tag, value.display⟩ : StoredValue)).mapM
      (fun value => Constructors.standard.construct value.tag value.text) =
        .ok (held.answer.map Value.reread) := by
    cases answered : held.answer with
    | none => rfl
    | some value =>
        have reads := (legible.read answered).1
        rw [Option.map_some, Option.map_some]
        simp only [Option.mapM_some, Constructors.construct_standard, reads]
        rfl
  rw [ofNode, StoredNode.facts]
  simp only [ValueType.ofTag?_tag, answer, attributes]
  rfl

theorem appendNodes_ofNodes {facts : Facts} {above : Bool}
    (told : (facts.relevant && facts.underRelevant) = above) {before after : List Node}
    (counted : ∀ name, Node.Counted name (before ++ after))
    (restored : ∀ child ∈ after, (ofNode child).node .standard =
      .ok ((child.reread.placed (if child.isTemplate then .template else .index 0)).inherit true)) :
    appendNodes .standard ⟨facts, before.map fun child => child.reread.inherit above⟩
        (after.map ofNode) =
      .ok ⟨facts, (before ++ after).map fun child => child.reread.inherit above⟩ := by
  induction after generalizing before with
  | nil =>
      rw [List.append_nil]
      rfl
  | cons child rest induction =>
      rcases List.forall_mem_cons.mp restored with ⟨first, others⟩
      let parent : Node := ⟨facts, before.map fun child => child.reread.inherit above⟩
      have keeps (node : Node) : (node.reread.inherit above).step = node.step :=
        (Node.step_inherit _ _).trans (Node.step_reread node)
      have next : child.reread.isTemplate = false → child.reread.facts.multiplicity =
          .index (parent.memberCount child.reread.facts.name) := by
        intro live
        rw [Node.isTemplate_reread] at live
        rw [Node.memberCount_map keeps, Node.facts_reread]
        exact (counted child.facts.name).multiplicity live
      have appended := Node.append_again next
      rw [Node.isTemplate_reread] at appended
      rw [List.append_cons] at counted ⊢
      rw [List.map_cons, appendNodes, first]
      change appendNodes .standard (parent.append _) _ = _
      have grown : (⟨facts, parent.children ++ [child.reread.inherit parent.isRelevant]⟩ : Node) =
          ⟨facts, (before ++ [child]).map fun child => child.reread.inherit above⟩ := by
        rw [List.map_append, Node.isRelevant, told]
        rfl
      rw [appended, grown]
      exact induction counted others

/-- What is stored of a node is enough to restore it, but for its number and what
it inherits. -/
theorem node_ofNode {node : Node} (numbered : node.Numbered) (tidy : node.IsTidy)
    (legible : node.IsLegible) : (ofNode node).node .standard =
      .ok ((node.reread.placed (if node.isTemplate then .template else .index 0)).inherit true) := by
  induction node using Node.induct with
  | step facts children induction =>
      have own := facts_ofNode (Node.isLegible_iff.mp legible).1 (Node.isTidy_iff.mp tidy).1 []
      have below : ∀ child ∈ children, (ofNode child).node .standard =
          .ok ((child.reread.placed
            (if child.isTemplate then .template else .index 0)).inherit true) :=
        fun child member => induction child member (numbered.child child member)
          (tidy.child child member) ((Node.isLegible_iff.mp legible).2 child member)
      have appended := @appendNodes_ofNodes { facts.reread with
        multiplicity := if Node.isTemplate ⟨facts, children⟩ then .template else .index 0
        underRelevant := true } facts.relevant (Bool.and_true _) [] children numbered.counted below
      have again : ((Node.reread ⟨facts, children⟩).placed
          (if Node.isTemplate ⟨facts, children⟩ then .template else .index 0)).inherit true =
          ⟨{ facts.reread with
              multiplicity := if Node.isTemplate ⟨facts, children⟩ then .template else .index 0
              underRelevant := true },
            children.map fun child => child.reread.inherit facts.relevant⟩ := by
        rw [Node.reread, Node.rereadAll_eq_map, Node.placed, Node.withFacts, Node.inherit,
          Node.inheritAll_eq_map, List.map_map]
        dsimp only [Facts.reread]
        rw [Bool.and_true]
        rfl
      rw [ofNode, StoredNode.node, ofNodes_eq_map, again]
      rw [ofNode] at own
      dsimp only at own ⊢
      rw [own]
      exact appended

end StoredNode

theorem Node.inherit_reread (node : Node) (above : Bool) :
    node.reread.inherit above = (node.inherit above).reread := by
  induction node using Node.induct generalizing above with
  | step facts children induction =>
      simp only [reread, inherit, rereadAll_eq_map, inheritAll_eq_map, List.map_map]
      exact congrArg _ (List.map_congr_left fun child member => induction child member _)

/-- In every form that a definition makes in which templates come first, over saved
answers or not, and after any requests: what is stored of the tree restores the
same tree. -/
theorem Definition.reached_restores {definition : Definition} {constructors : Constructors}
    {settings : Settings} {material : Material} {evaluator : Evaluator}
    {saved : Option AnswerTree} {form : Form}
    (made : definition.material constructors settings = .ok material)
    (lead : material.tree.root.TemplatesLead)
    (built : Form.build material evaluator saved = .ok form) {current : Form}
    (reached : form.Reached current) (legible : current.tree.root.IsLegible) :
    ∃ root, (StoredNode.ofNode current.tree.root).node .standard = .ok root ∧
      (AnswerTree.ofRoot root).same current.tree = true := by
  have storable := reached_isStorable made lead built reached
  have live : current.tree.root.isTemplate = false := by
    rw [Node.isTemplate, storable.first]
    rfl
  have restored := StoredNode.node_ofNode storable.orderly.numbered storable.tidy legible
  have first : current.tree.root.reread.facts.multiplicity = .index 0 := by
    rw [Node.facts_reread]
    exact storable.first
  rw [live, if_neg Bool.false_ne_true, Node.placed_self first, Node.inherit_reread,
    storable.informed] at restored
  refine ⟨current.tree.root.reread, restored, ?_⟩
  rw [AnswerTree.same, AnswerTree.ofRoot, Node.placed_self first]
  exact legible.same_reread

namespace Order

def weighed : Definition where
  id := none
  title := "order"
  skeleton :=
    let weight : Skeleton :=
      { Skeleton.ofName "weight" with
        type := .decimal, value := some "2.5", attributes := [⟨none, "unit", "kg"⟩] }
    { Skeleton.ofName "data" with
      children := [{ Skeleton.ofName "box" with isTemplate := true, children := [weight] },
        { Skeleton.ofName "fragile" with type := .boolean, value := some "false" }] }
  binds := [{ Bind.ofTarget (every ["box"]) with relevant := some (.answer (every ["fragile"])) }]

end Order

/-- Two boxes are inserted and hidden. With them their weights are restored. -/
theorem weighed_reached_restores : ∃ material form first second root,
    Order.weighed.material .standard .standard = .ok material ∧
    Form.build material (Expression.evaluator .startOf2020) none = .ok form ∧
    form.perform (.insertMember (.root "data") "box" 0) = .ok first ∧
    first.form.perform (.insertMember (.root "data") "box" 0) = .ok second ∧
    (second.form.tree.find? (((Reference.root "data").child "box" (.index 1)).child "weight"
      (.index 0))).map (·.isRelevant) = some false ∧
    (StoredNode.ofNode second.form.tree.root).node .standard = .ok root ∧
    (AnswerTree.ofRoot root).same second.form.tree = true := by
  have ready : (Order.weighed.material .standard .standard).toOption.any (fun material =>
      decide material.tree.root.TemplatesLead &&
        (Form.build material (Expression.evaluator .startOf2020) none).toOption.any fun form =>
          (form.perform (.insertMember (.root "data") "box" 0)).toOption.any fun first =>
            (first.form.perform (.insertMember (.root "data") "box" 0)).toOption.any fun second =>
              decide second.form.tree.root.IsLegible &&
                decide ((second.form.tree.find? (((Reference.root "data").child "box"
                  (.index 1)).child "weight" (.index 0))).map (·.isRelevant) = some false)) =
        true := by
    decide +kernel
  rcases exists_ok_of_any ready with ⟨material, made, ready⟩
  rcases Bool.and_eq_true_iff.mp ready with ⟨lead, ready⟩
  rcases exists_ok_of_any ready with ⟨form, built, ready⟩
  rcases exists_ok_of_any ready with ⟨first, inserted, ready⟩
  rcases exists_ok_of_any ready with ⟨second, insertedToo, ready⟩
  rcases Bool.and_eq_true_iff.mp ready with ⟨legible, hidden⟩
  have reached : form.Reached second.form := (Form.Reached.start.perform inserted).perform insertedToo
  rcases Definition.reached_restores made (of_decide_eq_true lead) built reached
    (of_decide_eq_true legible) with ⟨root, restored, same⟩
  exact ⟨material, form, first, second, root, made, built, inserted, insertedToo,
    of_decide_eq_true hidden, restored, same⟩

end ReactiveForm
