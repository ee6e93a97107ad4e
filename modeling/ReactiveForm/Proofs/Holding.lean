import ReactiveForm.Proofs.Census

/-! What the nodes of a tree hold, field by field. A change of one node is seen
at no other, though relevance is handed down to all nodes below. -/

namespace ReactiveForm

/-- What a rule or an edit can set at a node, and the type it is set to. What a
node inherits is not among it. -/
inductive Field where
  | type
  | answer
  | relevant
  | required
  | validity
  deriving DecidableEq

namespace Field

def Content : Field → Type
  | type => ValueType
  | answer => Option Value
  | relevant => Bool
  | required => Bool
  | validity => Validity

def of : (field : Field) → Facts → field.Content
  | type, facts => facts.type
  | answer, facts => facts.answer
  | relevant, facts => facts.relevant
  | required, facts => facts.required
  | validity, facts => facts.validity

end Field

namespace Node

theorem child?_changeChild_self {node : Node} {name : String} {multiplicity : Multiplicity}
    {change : Node → Node}
    (keeps : ∀ child, isAt name multiplicity child → isAt name multiplicity (change child)) :
    (node.changeChild name multiplicity change).child? name multiplicity =
      (node.child? name multiplicity).map change :=
  find?_changeFirst_self keeps node.children

theorem child?_changeChild_other {node : Node} {name name' : String}
    {multiplicity multiplicity' : Multiplicity} {change : Node → Node}
    (keeps : ∀ child, (change child).facts.name = child.facts.name ∧
      (change child).facts.multiplicity = child.facts.multiplicity)
    (apart : ¬ (name' = name ∧ multiplicity' = multiplicity)) :
    (node.changeChild name multiplicity change).child? name' multiplicity' =
      node.child? name' multiplicity' := by
  refine find?_changeFirst_other (fun child here => ?_) node.children
  simp only [isAt, Bool.and_eq_true, beq_iff_eq] at here
  have missed : isAt name' multiplicity' child = false := by
    rw [← Bool.not_eq_true]
    intro there
    simp only [isAt, Bool.and_eq_true, beq_iff_eq] at there
    exact apart ⟨there.1.symm.trans here.1, there.2.symm.trans here.2⟩
  refine ⟨missed, ?_⟩
  rw [← missed, isAt, isAt, (keeps child).1, (keeps child).2]

/-- What a change of a node must leave as it is: where the node stands, and what
the nodes below it hold. -/
structure Local (change : Node → Node) : Prop where
  name : ∀ node, (change node).facts.name = node.facts.name
  multiplicity : ∀ node, (change node).facts.multiplicity = node.facts.multiplicity
  below : ∀ (field : Field) node step rest,
    ((change node).descendant? (step :: rest)).map (field.of ·.facts) =
      (node.descendant? (step :: rest)).map (field.of ·.facts)

theorem withFacts_local {change : Facts → Facts}
    (name : ∀ facts, (change facts).name = facts.name)
    (multiplicity : ∀ facts, (change facts).multiplicity = facts.multiplicity) :
    Local (·.withFacts change) :=
  ⟨fun node => name node.facts, fun node => multiplicity node.facts, fun _ _ _ _ => rfl⟩

theorem descendant?_inherit (node : Node) (above : Bool) (field : Field) (steps : List Step) :
    ((node.inherit above).descendant? steps).map (field.of ·.facts) =
      (node.descendant? steps).map (field.of ·.facts) := by
  induction steps generalizing node above with
  | nil =>
      cases node
      cases field <;> rfl
  | cons step rest induction =>
      rcases node with ⟨facts, children⟩
      have sameKey (handed : Bool) : isAt step.name step.multiplicity ∘ inherit handed =
          isAt step.name step.multiplicity := by
        funext child
        cases child
        rfl
      rw [inherit, descendant?, descendant?, child?, child?, inheritAll_eq_map, List.find?_map,
        sameKey]
      cases children.find? (isAt step.name step.multiplicity) with
      | none => rfl
      | some child => exact induction child _

theorem setRelevant_local (relevant : Bool) : Local (·.setRelevant relevant) := by
  have top (node : Node) : (node.setRelevant relevant).facts =
      { node.facts with relevant } := by
    cases node
    rfl
  refine ⟨fun node => by rw [top], fun node => by rw [top], fun field node step rest => ?_⟩
  rw [setRelevant, descendant?_inherit]
  rfl

/-! A change that leaves a node where it is can be seen at the node and below
it, and nowhere else. -/

section Elsewhere

variable {change : Node → Node}

theorem changeDescendant_keeps
    (keeps : ∀ node, (change node).facts.name = node.facts.name ∧
      (change node).facts.multiplicity = node.facts.multiplicity)
    (steps : List Step) (node : Node) :
    (node.changeDescendant change steps).facts.name = node.facts.name ∧
      (node.changeDescendant change steps).facts.multiplicity = node.facts.multiplicity := by
  cases steps with
  | nil => exact keeps node
  | cons _ _ => exact ⟨rfl, rfl⟩

theorem descendant?_changeDescendant_append
    (keeps : ∀ node, (change node).facts.name = node.facts.name ∧
      (change node).facts.multiplicity = node.facts.multiplicity)
    (steps rest : List Step) (node : Node) :
    (node.changeDescendant change (steps ++ rest)).descendant? steps =
      (node.descendant? steps).map (changeDescendant change rest) := by
  induction steps generalizing node with
  | nil => rfl
  | cons step steps induction =>
      rw [List.cons_append, changeDescendant, descendant?, descendant?, child?_changeChild_self]
      · cases node.child? step.name step.multiplicity with
        | none => rfl
        | some child => exact induction child
      · intro child here
        have kept := changeDescendant_keeps keeps (steps ++ rest) child
        rwa [isAt, kept.1, kept.2]

theorem descendant?_changeDescendant_apart
    (keeps : ∀ node, (change node).facts.name = node.facts.name ∧
      (change node).facts.multiplicity = node.facts.multiplicity)
    {steps other : List Step} (below : ¬ steps <+: other) (above : ¬ other <+: steps)
    (node : Node) :
    (node.changeDescendant change steps).descendant? other = node.descendant? other := by
  induction steps generalizing node other with
  | nil => exact absurd List.nil_prefix below
  | cons step rest induction =>
      cases other with
      | nil => exact absurd List.nil_prefix above
      | cons step' rest' =>
          rw [changeDescendant, descendant?, descendant?]
          by_cases same : step' = step
          · subst same
            rw [child?_changeChild_self]
            · cases node.child? step'.name step'.multiplicity with
              | none => rfl
              | some child =>
                  apply induction
                  · intro inside
                    exact below (List.cons_prefix_cons.mpr ⟨rfl, inside⟩)
                  · intro inside
                    exact above (List.cons_prefix_cons.mpr ⟨rfl, inside⟩)
            · intro child here
              have kept := changeDescendant_keeps keeps rest child
              rwa [isAt, kept.1, kept.2]
          · rw [child?_changeChild_other (changeDescendant_keeps keeps rest)]
            rintro ⟨name, multiplicity⟩
            cases step
            cases step'
            exact same (Step.mk.injEq .. ▸ ⟨name, multiplicity⟩)

theorem facts_changeDescendant_other
    (keeps : ∀ node, (change node).facts.name = node.facts.name ∧
      (change node).facts.multiplicity = node.facts.multiplicity)
    {steps other : List Step} (below : ¬ steps <+: other) (node : Node) :
    ((node.changeDescendant change steps).descendant? other).map (·.facts) =
      (node.descendant? other).map (·.facts) := by
  by_cases above : other <+: steps
  · rcases above with ⟨rest, rfl⟩
    rw [descendant?_changeDescendant_append keeps, Option.map_map]
    congr 1
    funext child
    cases rest with
    | nil => exact absurd (by simp) below
    | cons _ _ => rfl
  · rw [descendant?_changeDescendant_apart keeps below above]

end Elsewhere

end Node

namespace Node.Local

variable {change : Node → Node}

theorem keeps (isLocal : Local change) (node : Node) :
    (change node).facts.name = node.facts.name ∧
      (change node).facts.multiplicity = node.facts.multiplicity :=
  ⟨isLocal.name node, isLocal.multiplicity node⟩

theorem changeDescendant (isLocal : Local change) (steps : List Step) (node : Node) :
    (node.changeDescendant change steps).facts.name = node.facts.name ∧
      (node.changeDescendant change steps).facts.multiplicity = node.facts.multiplicity :=
  Node.changeDescendant_keeps isLocal.keeps steps node

theorem descendant?_other (isLocal : Local change) (field : Field) {steps other : List Step}
    (apart : other ≠ steps) (node : Node) :
    ((node.changeDescendant change steps).descendant? other).map (field.of ·.facts) =
      (node.descendant? other).map (field.of ·.facts) := by
  induction steps generalizing node other with
  | nil =>
      cases other with
      | nil => exact absurd rfl apart
      | cons step rest => exact isLocal.below field node step rest
  | cons step rest induction =>
      cases other with
      | nil => cases field <;> rfl
      | cons step' rest' =>
          rw [Node.changeDescendant, descendant?, descendant?]
          by_cases same : step' = step
          · subst same
            rw [child?_changeChild_self]
            · cases node.child? step'.name step'.multiplicity with
              | none => rfl
              | some child => exact induction (fun equal => apart (by rw [equal])) child
            · intro child here
              rwa [isAt, (isLocal.changeDescendant rest child).1,
                (isLocal.changeDescendant rest child).2]
          · rw [child?_changeChild_other (isLocal.changeDescendant rest)]
            rintro ⟨name, multiplicity⟩
            cases step
            cases step'
            exact same (Step.mk.injEq .. ▸ ⟨name, multiplicity⟩)

end Node.Local

namespace AnswerTree

/-- What a field of the node at a reference holds. -/
def held (tree : AnswerTree) (field : Field) (place : Reference) : Option field.Content :=
  (tree.find? place).map (field.of ·.facts)

theorem answer?_eq_held (tree : AnswerTree) (place : Reference) :
    tree.answer? place = (tree.held .answer place).join := by
  rw [answer?, held]
  cases tree.find? place <;> rfl

section Change

variable {tree : AnswerTree} {change : Node → Node} {target : Reference}

theorem change_rootName
    (keeps : ∀ node, (change node).facts.name = node.facts.name ∧
      (change node).facts.multiplicity = node.facts.multiplicity) :
    (tree.change target change).root.facts.name = tree.root.facts.name := by
  rw [AnswerTree.change]
  split
  · rfl
  · exact (Node.changeDescendant_keeps keeps _ _).1

theorem steps?_change
    (keeps : ∀ node, (change node).facts.name = node.facts.name ∧
      (change node).facts.multiplicity = node.facts.multiplicity) (place : Reference) :
    (tree.change target change).steps? place = tree.steps? place := by
  rw [steps?, steps?, change_rootName keeps]

theorem find?_change_self
    (keeps : ∀ node, (change node).facts.name = node.facts.name ∧
      (change node).facts.multiplicity = node.facts.multiplicity) :
    (tree.change target change).find? target = (tree.find? target).map change := by
  rw [find?, find?, steps?_change keeps]
  cases steps : tree.steps? target with
  | none => rfl
  | some path =>
      rw [AnswerTree.change, steps]
      have seen := Node.descendant?_changeDescendant_append keeps path [] tree.root
      rwa [List.append_nil] at seen

theorem seen_change {Seen : Type} (seen : Node → Seen)
    (keeps : ∀ node, (change node).facts.name = node.facts.name ∧
      (change node).facts.multiplicity = node.facts.multiplicity)
    {place : Reference}
    (same : ∀ path targetPath, tree.steps? place = some path →
      tree.steps? target = some targetPath →
      ((tree.root.changeDescendant change targetPath).descendant? path).map seen =
        (tree.root.descendant? path).map seen) :
    ((tree.change target change).find? place).map seen = (tree.find? place).map seen := by
  rw [find?, find?, steps?_change keeps]
  cases steps : tree.steps? place with
  | none => rfl
  | some path =>
      rw [AnswerTree.change]
      cases targetSteps : tree.steps? target with
      | none => rfl
      | some targetPath => exact same path targetPath steps targetSteps

theorem held_change_other (isLocal : Node.Local change) (field : Field) {place : Reference}
    (apart : place ≠ target) :
    (tree.change target change).held field place = tree.held field place := by
  refine seen_change _ isLocal.keeps fun path targetPath steps targetSteps =>
    isLocal.descendant?_other field (fun equal => apart ?_) tree.root
  rcases steps?_eq_some_iff.mp steps with ⟨isPlace, whole⟩
  rcases steps?_eq_some_iff.mp targetSteps with ⟨isTarget, targetWhole⟩
  rw [equal, ← targetWhole] at whole
  cases place
  cases target
  cases isPlace.absolute
  cases isTarget.absolute
  exact congrArg _ whole

theorem held_change_of_field (isLocal : Node.Local change) {field : Field}
    (same : ∀ node, field.of (change node).facts = field.of node.facts) (place : Reference) :
    (tree.change target change).held field place = tree.held field place := by
  by_cases here : place = target
  · subst here
    rw [held, held, find?_change_self isLocal.keeps, Option.map_map]
    congr 1
    funext node
    exact same node
  · exact held_change_other isLocal field here

theorem find?_change_apart
    (keeps : ∀ node, (change node).facts.name = node.facts.name ∧
      (change node).facts.multiplicity = node.facts.multiplicity)
    {place : Reference} (below : ¬ target.steps <+: place.steps)
    (above : ¬ place.steps <+: target.steps) :
    (tree.change target change).find? place = tree.find? place := by
  have seen : ((tree.change target change).find? place).map id = (tree.find? place).map id := by
    refine seen_change id keeps fun path targetPath steps targetSteps => congrArg (Option.map id) ?_
    rw [(steps?_eq_some_iff.mp steps).2, (steps?_eq_some_iff.mp targetSteps).2,
      List.cons_prefix_cons] at above below
    apply Node.descendant?_changeDescendant_apart keeps
    · exact fun inside => below ⟨rfl, inside⟩
    · exact fun inside => above ⟨rfl, inside⟩
  simpa using seen

theorem facts_change_other
    (keeps : ∀ node, (change node).facts.name = node.facts.name ∧
      (change node).facts.multiplicity = node.facts.multiplicity)
    {place : Reference} (below : ¬ target.steps <+: place.steps) :
    ((tree.change target change).find? place).map (·.facts) =
      (tree.find? place).map (·.facts) := by
  refine seen_change _ keeps fun path targetPath steps targetSteps => ?_
  rw [(steps?_eq_some_iff.mp steps).2, (steps?_eq_some_iff.mp targetSteps).2,
    List.cons_prefix_cons] at below
  apply Node.facts_changeDescendant_other keeps
  exact fun inside => below ⟨rfl, inside⟩

end Change

end AnswerTree

end ReactiveForm
