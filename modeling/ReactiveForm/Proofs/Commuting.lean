import Mathlib.Logic.Function.Conjugate
import ReactiveForm.Proofs.Blueprints
import ReactiveForm.Proofs.Dropping

/-! Changes that can trade places. What is set at one node leaves what is set at
another one, and what is handed down from above reaches a node before or after
it is changed, to the same effect. So the work of rules that set different
things, or the same thing at different nodes, can be done in either order. -/

namespace ReactiveForm

section ChangeFirst

variable {α : Type} {holds other : α → Bool} {change second : α → α}

theorem changeFirst_comm (keeps : ∀ element, holds (second element) = holds element)
    (keepsToo : ∀ element, other (change element) = other element)
    (same : ∀ element, holds element = true → other element = true →
      change (second element) = second (change element)) (list : List α) :
    changeFirst holds change (changeFirst other second list) =
      changeFirst other second (changeFirst holds change list) := by
  induction list with
  | nil => rfl
  | cons head tail induction =>
      cases first : holds head <;> cases too : other head
      · simp [changeFirst, first, too, induction]
      · simp [changeFirst, first, too, keeps]
      · simp [changeFirst, first, too, keepsToo]
      · simp [changeFirst, first, too, keeps, keepsToo, same head first too]

theorem changeFirst_map (keeps : ∀ element, holds (second element) = holds element)
    (commute : Function.Commute change second) (list : List α) :
    changeFirst holds change (list.map second) = (changeFirst holds change list).map second := by
  induction list with
  | nil => rfl
  | cons head tail induction =>
      rw [List.map_cons, changeFirst, changeFirst, keeps]
      split
      · rw [List.map_cons, commute.eq]
      · rw [List.map_cons, induction]

end ChangeFirst

namespace Node

/-- A change that leaves a node where it is. Whether all above it are relevant
can be told to the node before the change or after it. -/
structure Heritable (change : Node → Node) : Prop where
  keeps : ∀ node, (change node).facts.name = node.facts.name ∧
    (change node).facts.multiplicity = node.facts.multiplicity
  inherits : ∀ above, Function.Commute change (inherit above)

/-- A change that sets something at a node: what it holds, apart from its own and
inherited relevance, or its own relevance. -/
inductive IsSetting : (Node → Node) → Prop where
  | facts {change : Facts → Facts} (name : ∀ facts, (change facts).name = facts.name)
      (multiplicity : ∀ facts, (change facts).multiplicity = facts.multiplicity)
      (relevant : ∀ facts, (change facts).relevant = facts.relevant)
      (under : ∀ facts above, change { facts with underRelevant := above } =
        { change facts with underRelevant := above }) :
      IsSetting (·.withFacts change)
  | relevance (relevant : Bool) : IsSetting (·.setRelevant relevant)

variable {change second : Node → Node}

theorem Heritable.isAt_eq (heritable : Heritable change) (name : String)
    (multiplicity : Multiplicity) (node : Node) :
    isAt name multiplicity (change node) = isAt name multiplicity node := by
  rw [isAt, isAt, (heritable.keeps node).1, (heritable.keeps node).2]

theorem inherit_isAt (name : String) (multiplicity : Multiplicity) (above : Bool) (node : Node) :
    isAt name multiplicity (node.inherit above) = isAt name multiplicity node := by
  cases node
  rfl

theorem Heritable.changeDescendant (heritable : Heritable change) (steps : List Step) :
    Heritable (changeDescendant change steps) := by
  refine ⟨changeDescendant_keeps heritable.keeps steps, ?_⟩
  induction steps with
  | nil => exact heritable.inherits
  | cons step rest induction =>
      intro above node
      rcases node with ⟨facts, children⟩
      have handed := changeFirst_map (inherit_isAt step.name step.multiplicity _)
        (induction (facts.relevant && above)) children
      rw [← inheritAll_eq_map, ← inheritAll_eq_map] at handed
      exact congrArg (Node.mk { facts with underRelevant := above }) handed

namespace IsSetting

theorem same : IsSetting id := by
  have unchanged : (·.withFacts id) = (id : Node → Node) := by
    funext node
    cases node
    rfl
  rw [← unchanged]
  exact .facts (fun _ => rfl) (fun _ => rfl) (fun _ => rfl) fun _ _ => rfl

theorem isLocal (sets : IsSetting change) : Local change := by
  cases sets with
  | facts name multiplicity _ _ => exact withFacts_local name multiplicity
  | relevance relevant => exact setRelevant_local relevant

theorem outline_eq (sets : IsSetting change) (node : Node) :
    (change node).outline = node.outline := by
  cases sets with
  | facts name multiplicity _ _ => exact outline_withFacts (name _) (multiplicity _)
  | relevance relevant => exact outline_setRelevant node relevant

theorem heritable (sets : IsSetting change) : Heritable change := by
  refine ⟨sets.isLocal.keeps, fun above node => ?_⟩
  rcases node with ⟨facts, children⟩
  cases sets with
  | @facts change _ _ relevant under =>
      have below : inheritAll ((change facts).relevant && above) children =
          inheritAll (facts.relevant && above) children := by rw [relevant facts]
      exact congrArg₂ Node.mk (under facts above) below.symm
  | relevance relevant =>
      have below : inheritAll (relevant && above) (inheritAll (facts.relevant && above) children) =
          inheritAll (relevant && above)
            (inheritAll (relevant && facts.underRelevant) children) := by
        simp only [inheritAll_eq_map, List.map_map]
        refine List.map_congr_left fun child _ => ?_
        rw [Function.comp_apply, Function.comp_apply, inherit_inherit, inherit_inherit]
      exact congrArg (Node.mk _) below

theorem deeper (sets : IsSetting change) (heritable : Heritable second) (step : Step)
    (rest : List Step) :
    Function.Commute change (changeDescendant second (step :: rest)) := by
  intro node
  cases sets with
  | facts => rfl
  | relevance relevant =>
      have handed := (heritable.changeDescendant (step :: rest)).inherits node.facts.underRelevant
      exact (handed (node.withFacts ({ · with relevant }))).symm

theorem changeDescendant_comm (first : IsSetting change) (next : IsSetting second)
    {steps other : List Step} (same : steps = other → Function.Commute change second) :
    Function.Commute (changeDescendant change steps) (changeDescendant second other) := by
  induction steps generalizing other with
  | nil =>
      cases other with
      | nil => exact same rfl
      | cons step rest => exact first.deeper next.heritable step rest
  | cons step rest induction =>
      cases other with
      | nil => exact (next.deeper first.heritable step rest).symm
      | cons another others =>
          intro node
          refine congrArg (Node.mk node.facts) (changeFirst_comm
            ((next.heritable.changeDescendant others).isAt_eq _ _)
            ((first.heritable.changeDescendant rest).isAt_eq _ _) ?_ node.children)
          -- Both steps lead to one child only if they are the same step.
          intro child here there
          simp only [isAt, Bool.and_eq_true, beq_iff_eq] at here there
          have name : step.name = another.name := here.1.symm.trans there.1
          have multiplicity : step.multiplicity = another.multiplicity :=
            here.2.symm.trans there.2
          have equal : step = another := by
            cases step
            cases another
            exact Step.mk.injEq .. ▸ ⟨name, multiplicity⟩
          exact induction (fun rests => same (by rw [equal, rests])) child

end IsSetting

end Node

namespace AnswerTree

variable {tree : AnswerTree} {target other : Reference} {steps : List Step}
  {change second : Node → Node}

theorem steps?_inj (found : tree.steps? target = some steps)
    (foundToo : tree.steps? other = some steps) : target = other := by
  rcases steps?_eq_some_iff.mp found with ⟨isPlace, whole⟩
  rcases steps?_eq_some_iff.mp foundToo with ⟨isPlaceToo, wholeToo⟩
  cases target
  cases other
  cases isPlace.absolute
  cases isPlaceToo.absolute
  exact congrArg _ (whole.trans wholeToo.symm)

theorem change_of_none (missing : tree.steps? target = none) :
    tree.change target change = tree := by
  rw [AnswerTree.change, missing]

theorem change_of_some (found : tree.steps? target = some steps) :
    tree.change target change = ⟨tree.root.changeDescendant change steps⟩ := by
  rw [AnswerTree.change, found]

theorem change_comm (first : Node.IsSetting change) (next : Node.IsSetting second)
    (same : target = other → Function.Commute change second) (tree : AnswerTree) :
    (tree.change target change).change other second =
      (tree.change other second).change target change := by
  have unmoved := @steps?_change tree _ target first.isLocal.keeps other
  have unmovedToo := @steps?_change tree _ other next.isLocal.keeps target
  cases steps : tree.steps? target with
  | none => rw [change_of_none steps, change_of_none (unmovedToo.trans steps)]
  | some path =>
      cases stepsToo : tree.steps? other with
      | none => rw [change_of_none (unmoved.trans stepsToo), change_of_none stepsToo]
      | some another =>
          rw [change_of_some (unmoved.trans stepsToo), change_of_some (unmovedToo.trans steps),
            change_of_some steps, change_of_some stepsToo]
          have commute := next.changeDescendant_comm first fun (equal : another = path) =>
            (same (steps?_inj steps (equal ▸ stepsToo))).symm
          exact congrArg AnswerTree.mk (commute tree.root)

end AnswerTree

/-! Changes made one after the other, at one place or below it. -/

theorem changeFirst_changeFirst {α : Type} {holds : α → Bool} {first second : α → α}
    (keeps : ∀ element, holds (first element) = holds element) (list : List α) :
    changeFirst holds second (changeFirst holds first list) =
      changeFirst holds (second ∘ first) list := by
  induction list with
  | nil => rfl
  | cons head tail induction =>
      cases here : holds head with
      | true => simp [changeFirst, here, keeps]
      | false => simp [changeFirst, here, induction]

namespace Node

variable {first second : Node → Node}

theorem changeDescendant_changeDescendant
    (keeps : ∀ node, (first node).facts.name = node.facts.name ∧
      (first node).facts.multiplicity = node.facts.multiplicity)
    (path : List Step) (node : Node) :
    (node.changeDescendant first path).changeDescendant second path =
      node.changeDescendant (second ∘ first) path := by
  induction path generalizing node with
  | nil => rfl
  | cons step path induction =>
      have same (child : Node) : isAt step.name step.multiplicity (child.changeDescendant first path) =
          isAt step.name step.multiplicity child := by
        rcases changeDescendant_keeps keeps path child with ⟨name, multiplicity⟩
        rw [isAt, isAt, name, multiplicity]
      have below : changeDescendant second path ∘ changeDescendant first path =
          changeDescendant (second ∘ first) path := funext induction
      rw [changeDescendant, changeDescendant, changeChild, changeChild, changeFirst_changeFirst same,
        below]
      rfl

theorem changeDescendant_append (change : Node → Node) (path below : List Step) (node : Node) :
    node.changeDescendant change (path ++ below) =
      node.changeDescendant (changeDescendant change below) path := by
  induction path generalizing node with
  | nil => rfl
  | cons step path induction =>
      have same : changeDescendant change (path ++ below) =
          changeDescendant (changeDescendant change below) path := funext induction
      rw [List.cons_append, changeDescendant, changeDescendant, same]

end Node

namespace AnswerTree

variable {tree : AnswerTree} {place : Reference}

theorem change_change {first second : Node → Node}
    (keeps : ∀ node, (first node).facts.name = node.facts.name ∧
      (first node).facts.multiplicity = node.facts.multiplicity) :
    (tree.change place first).change place second = tree.change place (second ∘ first) := by
  cases steps : tree.steps? place with
  | none => rw [change_of_none steps, change_of_none steps, change_of_none steps]
  | some path =>
      rw [change_of_some ((steps?_change keeps place).trans steps), change_of_some steps,
        change_of_some steps]
      exact congrArg AnswerTree.mk (Node.changeDescendant_changeDescendant keeps path tree.root)

theorem change_below {node : Node} (found : tree.find? place = some node) {below : List Step}
    (bound : ∀ step ∈ below, step.multiplicity.isBound = true) (change : Node → Node) :
    tree.change { place with steps := place.steps ++ below } change =
      tree.change place (Node.changeDescendant change below) := by
  rcases parent_steps found with ⟨path, isPlace, whole, steps, -⟩
  have lower : tree.steps? { place with steps := place.steps ++ below } = some (path ++ below) := by
    refine steps?_eq_some_iff.mpr ⟨⟨isPlace.absolute, ?_⟩, by rw [whole]; rfl⟩
    exact List.forall_mem_append.mpr ⟨isPlace.bound, bound⟩
  rw [change_of_some lower, change_of_some steps]
  exact congrArg AnswerTree.mk (Node.changeDescendant_append change path below tree.root)

end AnswerTree

end ReactiveForm
