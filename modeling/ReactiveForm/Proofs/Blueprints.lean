import Mathlib.Algebra.GroupWithZero.Nat
import ReactiveForm.Proofs.Keeping
import ReactiveForm.Proofs.SeriesList

/-! The blueprints of a form: the templates that do not stand in a member of some
series. Rules act on live nodes only, so that a blueprint stays as it is, unless
something is removed from the inside of it. -/

namespace ReactiveForm

namespace Node

def repeats (node : Node) (name : String) : Bool := (node.template? name).isSome

mutual

/-- The blueprints of a node and the steps to them. Whether all nodes above are
relevant is left out of them. -/
def blueprints : Node → List (List Step × Node)
  | ⟨facts, children⟩ => blueprintsAmong (repeats ⟨facts, children⟩) children

def blueprintsAmong (repeats : String → Bool) : List Node → List (List Step × Node)
  | [] => []
  | child :: rest =>
      (if child.isTemplate then [([child.step], child.inherit true)]
      else if repeats child.facts.name then []
      else child.blueprints.map fun (path, blueprint) => (child.step :: path, blueprint)) ++
        blueprintsAmong repeats rest

end

def blueprintsAt (repeats : String → Bool) (child : Node) : List (List Step × Node) :=
  if child.isTemplate then [([child.step], child.inherit true)]
  else if repeats child.facts.name then []
  else child.blueprints.map fun (path, blueprint) => (child.step :: path, blueprint)

theorem blueprintsAmong_eq_flatMap (repeats : String → Bool) (nodes : List Node) :
    blueprintsAmong repeats nodes = nodes.flatMap (blueprintsAt repeats) := by
  induction nodes with
  | nil => rfl
  | cons node rest induction =>
      rw [blueprintsAmong, induction, List.flatMap_cons]
      rfl

theorem blueprints_eq (node : Node) :
    node.blueprints = node.children.flatMap (blueprintsAt node.repeats) := by
  cases node
  rw [blueprints, blueprintsAmong_eq_flatMap]

theorem repeats_iff {node : Node} {name : String} :
    node.repeats name = true ↔ ⟨name, .template⟩ ∈ node.children.map step := by
  rw [repeats, template?, child?, List.find?_isSome, List.mem_map]
  apply exists_congr
  intro child
  apply and_congr_right
  intro _
  simp [isAt, Node.step]

theorem repeats_congr {left right : Node}
    (same : left.children.map step = right.children.map step) : left.repeats = right.repeats := by
  funext name
  rw [Bool.eq_iff_iff, repeats_iff, repeats_iff, same]

theorem isTemplate_congr {left right : Node} (same : left.step = right.step) :
    left.isTemplate = right.isTemplate := by
  have multiplicities : left.facts.multiplicity = right.facts.multiplicity :=
    congrArg Step.multiplicity same
  rw [isTemplate, isTemplate, multiplicities]

theorem blueprintsAt_congr {repeats : String → Bool} {left right : Node}
    (step : left.step = right.step)
    (template : right.isTemplate = true → left.inherit true = right.inherit true)
    (below : right.isTemplate = false → left.blueprints = right.blueprints) :
    blueprintsAt repeats left = blueprintsAt repeats right := by
  have names : left.facts.name = right.facts.name := congrArg Step.name step
  rw [blueprintsAt, blueprintsAt, isTemplate_congr step, names, step]
  cases isTemplate : right.isTemplate with
  | true =>
      rw [template isTemplate]
      rfl
  | false =>
      rw [below isTemplate]
      rfl

theorem blueprints_of_map {node other : Node} {change : Node → Node}
    (children : other.children = node.children.map change)
    (step : ∀ child ∈ node.children, (change child).step = child.step)
    (templates : ∀ child ∈ node.children, child.isTemplate = true →
      (change child).inherit true = child.inherit true)
    (below : ∀ child ∈ node.children, child.isTemplate = false →
      (change child).blueprints = child.blueprints) :
    other.blueprints = node.blueprints := by
  have same : other.repeats = node.repeats := by
    apply repeats_congr
    rw [children, List.map_map]
    exact List.map_congr_left step
  rw [blueprints_eq, blueprints_eq, children, same, List.flatMap_map]
  apply List.flatMap_congr
  intro child member
  exact blueprintsAt_congr (step child member) (templates child member) (below child member)

/-! What the work of rules does to a node. -/

theorem inherit_inherit (node : Node) (above beyond : Bool) :
    (node.inherit above).inherit beyond = node.inherit beyond := by
  induction node using Node.induct generalizing above beyond with
  | step facts children induction =>
      simp only [inherit, inheritAll_eq_map, List.map_map]
      congr 1
      apply List.map_congr_left
      intro child member
      exact induction child member _ _

theorem step_inherit (node : Node) (above : Bool) : (node.inherit above).step = node.step := by
  cases node
  rfl

theorem blueprints_inherit (node : Node) (above : Bool) :
    (node.inherit above).blueprints = node.blueprints := by
  induction node using Node.induct generalizing above with
  | step facts children induction =>
      apply blueprints_of_map
      · exact inheritAll_eq_map _ children
      · exact fun child _ => step_inherit child _
      · exact fun child _ _ => inherit_inherit child _ _
      · exact fun child member _ => induction child member _

theorem blueprints_withFacts (node : Node) (change : Facts → Facts) :
    (node.withFacts change).blueprints = node.blueprints := by
  cases node
  rfl

theorem blueprints_clearAnswers (node : Node) :
    node.clearAnswers.blueprints = node.blueprints := by
  induction node using Node.induct with
  | step facts children induction =>
      apply blueprints_of_map
      · exact clearAllAnswers_eq_map children
      · intro child _
        split
        · rfl
        · cases child
          rfl
      · intro child _ template
        rw [if_pos template]
      · intro child member live
        rw [live]
        exact induction child member

theorem IsAdjustment.blueprints_eq {change : Node → Node} (adjusts : IsAdjustment change)
    (node : Node) : (change node).blueprints = node.blueprints := by
  cases adjusts with
  | facts _ => exact blueprints_withFacts node _
  | relevance relevant => exact (blueprints_inherit _ _).trans (blueprints_withFacts node _)
  | clear => exact blueprints_clearAnswers node

/-! A series that may grow. -/

theorem mem_others_of_template {node child : Node} {name : String} :
    child ∈ node.others name ∧ child.isTemplate = true ↔
      child ∈ node.children ∧ child.isTemplate = true := by
  rw [others, List.mem_filter]
  constructor
  · rintro ⟨⟨inChildren, -⟩, template⟩
    exact ⟨inChildren, template⟩
  · rintro ⟨inChildren, template⟩
    exact ⟨⟨inChildren, by simp [isMember, template]⟩, template⟩

theorem isTemplate_iff_step {node : Node} {name : String} :
    node.step = ⟨name, .template⟩ ↔ node.isTemplate = true ∧ node.facts.name = name := by
  simp [isTemplate, Node.step, and_comm]

theorem repeats_of_others {node other : Node} {name : String}
    (same : other.others name = node.others name) : other.repeats = node.repeats := by
  funext title
  have among (node : Node) : node.repeats title = true ↔
      ∃ child, (child ∈ node.others name ∧ child.isTemplate = true) ∧ child.facts.name = title := by
    rw [repeats_iff, List.mem_map]
    apply exists_congr
    intro child
    rw [mem_others_of_template, isTemplate_iff_step, and_assoc]
  rw [Bool.eq_iff_iff, among, among, same]

theorem blueprintsAt_of_repeats {repeats : String → Bool} {child : Node}
    (live : child.isTemplate = false) (repeated : repeats child.facts.name = true) :
    blueprintsAt repeats child = [] := by
  rw [blueprintsAt, live, repeated]
  rfl

theorem blueprints_eq_others {node : Node} {name : String} (repeated : node.repeats name = true) :
    node.blueprints = (node.others name).flatMap (blueprintsAt node.repeats) := by
  rw [blueprints_eq, others]
  induction node.children with
  | nil => rfl
  | cons child rest induction =>
      rw [List.flatMap_cons, List.filter_cons, induction]
      cases here : child.isMember name with
      | false => rfl
      | true =>
          obtain ⟨named, live⟩ := isMember_iff.mp here
          rw [blueprintsAt_of_repeats live (named ▸ repeated)]
          rfl

theorem blueprints_of_others {node other : Node} {name : String}
    (repeated : node.repeats name = true) (same : other.others name = node.others name) :
    other.blueprints = node.blueprints := by
  have repeats := repeats_of_others same
  rw [← repeats] at repeated
  rw [blueprints_eq_others repeated, same, repeats, ← blueprints_eq_others (repeats ▸ repeated)]

theorem others_renumberFrom (name : String) (next : Nat) (children : List Node) :
    (renumberFrom name next children).filter (!isMember name ·) =
      children.filter (!isMember name ·) := by
  induction children generalizing next with
  | nil => rfl
  | cons child rest induction =>
      rw [renumberFrom]
      cases here : child.isMember name with
      | false => simp [here, induction]
      | true =>
          have placed : (child.placed (.index next)).isMember name = true :=
            isMember_iff.mpr ⟨(isMember_iff.mp here).1, rfl⟩
          simp [here, placed, induction]

theorem removeMember?_others {node removed remaining : Node} {name : String} {position : Nat}
    (found : node.removeMember? name position = some (removed, remaining)) :
    remaining.facts = node.facts ∧ remaining.others name = node.others name := by
  rw [removeMember?] at found
  obtain ⟨⟨taken, rest⟩, took, equal⟩ := Option.map_eq_some_iff.mp found
  cases equal
  obtain ⟨before, after, children, rfl, here⟩ := takeFirst?_eq_some took
  simp only [isAt, Bool.and_eq_true, beq_iff_eq] at here
  have isMember : removed.isMember name = true :=
    isMember_iff.mpr ⟨here.1, by simp [isTemplate, here.2]⟩
  refine ⟨rfl, ?_⟩
  rw [others, others, renumber, others_renumberFrom, children, List.filter_append,
    List.filter_append, List.filter_cons_of_neg (by simp [isMember])]

/-! Steps that lead into a blueprint. -/

def entersBlueprint : List Step → Node → Bool
  | [], _ => false
  | step :: rest, node =>
      (node.child? step.name step.multiplicity).any fun child =>
        child.isTemplate || !node.repeats step.name && entersBlueprint rest child

theorem step_of_child? {node child : Node} {step : Step}
    (found : node.child? step.name step.multiplicity = some child) : child.step = step := by
  have here := List.find?_some found
  simp only [isAt, Bool.and_eq_true, beq_iff_eq] at here
  rw [Node.step, here.1, here.2]

theorem entersBlueprint_append {node : Node} {path : List Step}
    (enters : node.entersBlueprint path = true) (beyond : List Step) :
    node.entersBlueprint (path ++ beyond) = true := by
  induction path generalizing node with
  | nil => cases enters
  | cons step path induction =>
      rw [List.cons_append, entersBlueprint]
      rw [entersBlueprint] at enters
      obtain ⟨child, found, enters⟩ := (Option.any_eq_true _ _).mp enters
      rw [found, Option.any_some]
      rw [Bool.or_eq_true, Bool.and_eq_true] at enters ⊢
      exact enters.imp_right (And.imp_right induction)

/-- It takes a step to a template to enter a blueprint. -/
theorem entersBlueprint_append_outside {node : Node} {path beyond : List Step}
    (outside : ∀ step ∈ beyond, step.multiplicity ≠ .template)
    (enters : node.entersBlueprint (path ++ beyond) = true) :
    node.entersBlueprint path = true := by
  induction path generalizing node with
  | nil =>
      induction beyond generalizing node with
      | nil => exact enters
      | cons step beyond induction =>
          rw [List.nil_append, entersBlueprint] at enters
          obtain ⟨child, found, enters⟩ := (Option.any_eq_true _ _).mp enters
          obtain ⟨here, later⟩ := List.forall_mem_cons.mp outside
          have live : child.isTemplate = false := by
            have index : child.facts.multiplicity = step.multiplicity :=
              congrArg Step.multiplicity (step_of_child? found)
            simpa [isTemplate, index] using here
          rw [live, Bool.false_or, Bool.and_eq_true] at enters
          exact absurd (induction later enters.2) Bool.false_ne_true
  | cons step path induction =>
      rw [List.cons_append, entersBlueprint] at enters
      rw [entersBlueprint]
      obtain ⟨child, found, enters⟩ := (Option.any_eq_true _ _).mp enters
      rw [found, Option.any_some]
      rw [Bool.or_eq_true, Bool.and_eq_true] at enters ⊢
      exact enters.imp_right (And.imp_right induction)

theorem repeats_outline (node : Node) : node.outline.repeats = node.repeats := by
  apply repeats_congr
  rw [outline_children, List.map_map]
  apply List.map_congr_left
  intro child _
  cases child
  rfl

theorem entersBlueprint_outline (node : Node) (path : List Step) :
    node.outline.entersBlueprint path = node.entersBlueprint path := by
  induction path generalizing node with
  | nil => rfl
  | cons step path induction =>
      rw [entersBlueprint, entersBlueprint, child?_outline, repeats_outline]
      cases node.child? step.name step.multiplicity with
      | none => rfl
      | some child =>
          rw [Option.map_some, Option.any_some, Option.any_some, isTemplate_outline, induction]

/-! Changes further down. -/

section Below

variable {change : Node → Node}

theorem changeFirst_eq_self {holds : Node → Bool} {list : List Node}
    (none : list.find? holds = none) : changeFirst holds change list = list := by
  induction list with
  | nil => rfl
  | cons head tail induction =>
      have missed := List.find?_eq_none.mp none
      rw [changeFirst, if_neg (missed head List.mem_cons_self), induction]
      exact List.find?_eq_none.mpr fun other member => missed other (List.mem_cons_of_mem _ member)

theorem changeChild_cases (node : Node) (step : Step) (change : Node → Node) :
    (node.child? step.name step.multiplicity = none ∧
      node.changeChild step.name step.multiplicity change = node) ∨
    ∃ before child after, node.child? step.name step.multiplicity = some child ∧
      child.step = step ∧ node.children = before ++ child :: after ∧
      (node.changeChild step.name step.multiplicity change).children =
        before ++ change child :: after := by
  cases found : node.child? step.name step.multiplicity with
  | none =>
      left
      refine ⟨rfl, ?_⟩
      cases node
      rw [changeChild, changeFirst_eq_self found]
  | some child =>
      right
      obtain ⟨before, after, children, changed⟩ := changeFirst_split change found
      exact ⟨before, child, after, rfl, step_of_child? found, children, changed⟩

theorem step_changeDescendant {path : List Step} {node : Node}
    (keeps : ∀ found, node.descendant? path = some found → (change found).step = found.step) :
    (node.changeDescendant change path).step = node.step := by
  cases path with
  | nil => exact keeps node rfl
  | cons _ _ => rfl

theorem descendant?_cons {node child : Node} {step : Step} {path : List Step}
    (found : node.child? step.name step.multiplicity = some child) :
    node.descendant? (step :: path) = child.descendant? path := by
  rw [descendant?, found]
  rfl

theorem changeChild_of_reached {node found : Node} {step : Step} {path : List Step}
    (reached : node.descendant? (step :: path) = some found) (change : Node → Node) :
    ∃ before child after, child.descendant? path = some found ∧
      node.child? step.name step.multiplicity = some child ∧ child.step = step ∧
      node.children = before ++ child :: after ∧
      (node.changeChild step.name step.multiplicity change).children =
        before ++ change child :: after := by
  rcases node.changeChild_cases step change with
    ⟨missing, -⟩ | ⟨before, child, after, here, isStep, children, changed⟩
  · rw [descendant?, missing] at reached
    cases reached
  · rw [descendant?_cons here] at reached
    exact ⟨before, child, after, reached, here, isStep, children, changed⟩

theorem blueprints_changeDescendant {path : List Step} {node : Node}
    (keeps : ∀ found, node.descendant? path = some found →
      (change found).step = found.step ∧ (change found).blueprints = found.blueprints)
    (outside : node.entersBlueprint path = false) :
    (node.changeDescendant change path).blueprints = node.blueprints := by
  induction path generalizing node with
  | nil => exact (keeps node rfl).2
  | cons step path induction =>
      rw [changeDescendant]
      cases node.changeChild_cases step (changeDescendant change path) with
      | inl missing => rw [missing.2]
      | inr found =>
          obtain ⟨before, child, after, found, isStep, children, changed⟩ := found
          rw [entersBlueprint, found, Option.any_some, Bool.or_eq_false_iff,
            Bool.and_eq_false_iff] at outside
          obtain ⟨live, plain⟩ := outside
          simp only [descendant?_cons found] at keeps
          have steps := step_changeDescendant fun inner reached => (keeps inner reached).1
          have repeats : (node.changeChild step.name step.multiplicity
              (changeDescendant change path)).repeats = node.repeats := by
            apply repeats_congr
            rw [children, changed, List.map_append, List.map_append, List.map_cons, List.map_cons,
              steps]
          have here : blueprintsAt node.repeats (child.changeDescendant change path) =
              blueprintsAt node.repeats child := by
            cases plain with
            | inl repeated =>
                -- A member of a series that may grow has no blueprints of the form.
                have named : child.facts.name = step.name := congrArg Step.name isStep
                have changedNamed : (child.changeDescendant change path).facts.name = step.name :=
                  congrArg Step.name (steps.trans isStep)
                rw [Bool.not_eq_false'] at repeated
                rw [blueprintsAt_of_repeats (isTemplate_congr steps ▸ live) (changedNamed ▸ repeated),
                  blueprintsAt_of_repeats live (named ▸ repeated)]
            | inr below =>
                apply blueprintsAt_congr steps
                · rw [live]
                  exact fun template => absurd template Bool.false_ne_true
                · exact fun _ => induction keeps below
          rw [blueprints_eq, blueprints_eq, repeats, children, changed, List.flatMap_append,
            List.flatMap_append, List.flatMap_cons, List.flatMap_cons, here]

theorem entersBlueprint_changeDescendant (keeps : ∀ node, (change node).step = node.step)
    {path : List Step} {node : Node} :
    (node.changeDescendant change path).entersBlueprint path = node.entersBlueprint path := by
  induction path generalizing node with
  | nil => rfl
  | cons step path induction =>
      have below (child : Node) : (child.changeDescendant change path).step = child.step :=
        step_changeDescendant fun found _ => keeps found
      have repeats : (node.changeDescendant change (step :: path)).repeats = node.repeats := by
        apply repeats_congr
        exact map_changeFirst below node.children
      have here : (node.changeDescendant change (step :: path)).child? step.name step.multiplicity =
          (node.child? step.name step.multiplicity).map (changeDescendant change path) := by
        apply child?_changeChild_self
        intro child isAt
        have same := Step.mk.injEq .. ▸ below child
        rwa [Node.isAt, same.1, same.2]
      rw [entersBlueprint, entersBlueprint, here, repeats]
      cases node.child? step.name step.multiplicity with
      | none => rfl
      | some child =>
          rw [Option.map_some, Option.any_some, Option.any_some, induction,
            isTemplate_congr (below child)]

end Below

/-! The size of blueprints. -/

theorem sizeOfAll_eq_sum (nodes : List Node) : sizeOfAll nodes = (nodes.map size).sum := by
  induction nodes with
  | nil => rfl
  | cons node rest induction => rw [sizeOfAll, induction, List.map_cons, List.sum_cons]

theorem size_eq (node : Node) : node.size = 1 + (node.children.map size).sum := by
  cases node
  rw [size, sizeOfAll_eq_sum]

theorem size_outline (node : Node) : node.outline.size = node.size := by
  induction node using Node.induct with
  | step facts children induction =>
      rw [size_eq, size_eq, outline_children, List.map_map]
      congr 2
      exact List.map_congr_left induction

theorem size_of_outline {left right : Node} (same : left.outline = right.outline) :
    left.size = right.size := by
  rw [← size_outline, same, size_outline]

theorem size_placed (node : Node) (multiplicity : Multiplicity) :
    (node.placed multiplicity).size = node.size := by
  cases node
  rfl

def blueprintSize (node : Node) : Nat := (node.blueprints.map (·.2.size)).sum

def blueprintSizeAt (repeats : String → Bool) (child : Node) : Nat :=
  if child.isTemplate then child.size
  else if repeats child.facts.name then 0
  else child.blueprintSize

theorem blueprintSize_eq (node : Node) :
    node.blueprintSize = (node.children.map (blueprintSizeAt node.repeats)).sum := by
  have at_child (child : Node) : ((blueprintsAt node.repeats child).map (·.2.size)).sum =
      blueprintSizeAt node.repeats child := by
    rw [blueprintsAt, blueprintSizeAt]
    split
    · simp [size_of_outline (outline_inherit child true)]
    · split
      · rfl
      · rw [List.map_map]
        rfl
  rw [blueprintSize, blueprints_eq, List.map_flatMap, List.flatMap_def, List.sum_flatten,
    List.map_map]
  congr 1
  exact List.map_congr_left fun child _ => at_child child

theorem blueprintSize_outline (node : Node) : node.outline.blueprintSize = node.blueprintSize := by
  induction node using Node.induct with
  | step facts children induction =>
      rw [blueprintSize_eq, blueprintSize_eq, repeats_outline, outline_children, List.map_map]
      congr 1
      apply List.map_congr_left
      intro child member
      rw [Function.comp_apply, blueprintSizeAt, blueprintSizeAt, isTemplate_outline, size_outline,
        induction child member, outline_facts]
      rfl

section Below

variable {change : Node → Node}

theorem size_changeDescendant {path : List Step} {node found : Node}
    (reached : node.descendant? path = some found) (smaller : (change found).size < found.size) :
    (node.changeDescendant change path).size < node.size := by
  induction path generalizing node with
  | nil =>
      cases reached
      exact smaller
  | cons step path induction =>
      rcases changeChild_of_reached reached (changeDescendant change path) with
        ⟨before, child, after, reached, -, -, children, changed⟩
      have below := induction reached
      rw [changeDescendant, size_eq, size_eq node, children, changed]
      simp only [List.map_append, List.map_cons, List.sum_append, List.sum_cons]
      omega

theorem blueprintSize_changeDescendant {path : List Step} {node found : Node}
    (reached : node.descendant? path = some found) (steps : (change found).step = found.step)
    (smaller : (change found).size < found.size) (enters : node.entersBlueprint path = true) :
    (node.changeDescendant change path).blueprintSize < node.blueprintSize := by
  induction path generalizing node with
  | nil => cases enters
  | cons step path induction =>
      rw [changeDescendant]
      rcases changeChild_of_reached reached (changeDescendant change path) with
        ⟨before, child, after, reached, here, isStep, children, changed⟩
      rw [entersBlueprint, here, Option.any_some, Bool.or_eq_true, Bool.and_eq_true] at enters
      have childStep : (child.changeDescendant change path).step = child.step := by
        apply step_changeDescendant
        intro inner found
        cases reached.symm.trans found
        exact steps
      have repeats : (node.changeChild step.name step.multiplicity
          (changeDescendant change path)).repeats = node.repeats := by
        apply repeats_congr
        rw [children, changed, List.map_append, List.map_append, List.map_cons, List.map_cons,
          childStep]
      have lower : blueprintSizeAt node.repeats (child.changeDescendant change path) <
          blueprintSizeAt node.repeats child := by
        have named : (child.changeDescendant change path).facts.name = child.facts.name :=
          congrArg Step.name childStep
        rw [blueprintSizeAt, blueprintSizeAt, isTemplate_congr childStep, named]
        cases template : child.isTemplate with
        | true => exact size_changeDescendant reached smaller
        | false =>
            have inside := enters.resolve_left (by simp [template])
            have childNamed : child.facts.name = step.name := congrArg Step.name isStep
            have plain : node.repeats child.facts.name = false := by
              rw [childNamed]
              exact (Bool.not_eq_true' _).mp inside.1
            rw [plain]
            exact induction reached inside.2
      rw [blueprintSize_eq, blueprintSize_eq node, repeats, children, changed]
      simp only [List.map_append, List.map_cons, List.sum_append, List.sum_cons]
      omega

end Below

theorem size_removeMember? {node removed remaining : Node} {name : String} {position : Nat}
    (found : node.removeMember? name position = some (removed, remaining)) :
    remaining.size < node.size := by
  have renumbered (children : List Node) (next : Nat) :
      ((renumberFrom name next children).map size).sum = (children.map size).sum := by
    induction children generalizing next with
    | nil => rfl
    | cons child rest induction =>
        rw [renumberFrom]
        split
        · rw [List.map_cons, List.map_cons, List.sum_cons, List.sum_cons, induction, size_placed]
        · rw [List.map_cons, List.map_cons, List.sum_cons, List.sum_cons, induction]
  rw [removeMember?] at found
  obtain ⟨⟨taken, rest⟩, took, equal⟩ := Option.map_eq_some_iff.mp found
  cases equal
  obtain ⟨before, after, children, rfl, -⟩ := takeFirst?_eq_some took
  have positive : 0 < removed.size := by
    rw [size_eq]
    omega
  rw [size_eq, size_eq node, renumber, renumbered, children]
  simp only [List.map_append, List.map_cons, List.sum_append, List.sum_cons]
  omega

end Node

namespace AnswerTree

/-- The blueprints of a form and the steps below the root that lead to them. -/
def blueprints (tree : AnswerTree) : List (List Step × Node) := tree.root.blueprints

/-- Does a reference lead to a blueprint, or to what is inside? -/
def entersBlueprint (tree : AnswerTree) (reference : Reference) : Bool :=
  tree.root.entersBlueprint reference.steps.tail

theorem blueprints_change {tree : AnswerTree} {reference : Reference} {change : Node → Node}
    (keeps : ∀ node, tree.find? reference = some node →
      (change node).step = node.step ∧ (change node).blueprints = node.blueprints)
    (outside : tree.entersBlueprint reference = false) :
    (tree.change reference change).blueprints = tree.blueprints := by
  rw [AnswerTree.change]
  cases steps : tree.steps? reference with
  | none => rfl
  | some path =>
      rw [entersBlueprint, (steps?_eq_some_iff.mp steps).2] at outside
      apply Node.blueprints_changeDescendant
      · intro found reached
        apply keeps
        rw [find?, steps]
        exact reached
      · exact outside

/-- A reference runs outside of all blueprints as long as it leads to single
nodes, and from there on into no template. -/
def Avoids (tree : AnswerTree) (reference : Reference) : Prop :=
  ∃ firm loose, reference.steps = firm ++ loose ∧
    (∀ step ∈ firm, step.multiplicity.isBound = true) ∧
    tree.root.entersBlueprint firm.tail = false ∧
    ∀ step ∈ loose, step.multiplicity ≠ .template

namespace Avoids

variable {tree : AnswerTree} {reference : Reference}

theorem of_not_template (live : ∀ step ∈ reference.steps, step.multiplicity ≠ .template) :
    tree.Avoids reference :=
  ⟨[], reference.steps, rfl, List.forall_mem_nil _, rfl, live⟩

theorem of_outside (outside : reference.entersTemplate = false) : tree.Avoids reference := by
  rw [Reference.entersTemplate, List.any_eq_false] at outside
  exact of_not_template (by simpa using outside)

theorem of_isPlace (isPlace : reference.IsPlace)
    (outside : tree.entersBlueprint reference = false) : tree.Avoids reference :=
  ⟨reference.steps, [], by simp, isPlace.bound, outside, by simp⟩

theorem child (avoids : tree.Avoids reference) {name : String} {multiplicity : Multiplicity}
    (live : multiplicity ≠ .template) : tree.Avoids (reference.child name multiplicity) := by
  obtain ⟨firm, loose, steps, bound, outside, beyond⟩ := avoids
  refine ⟨firm, loose ++ [⟨name, multiplicity⟩], ?_, bound, outside, ?_⟩
  · rw [Reference.child, steps, List.append_assoc]
  · exact List.forall_mem_append.mpr ⟨beyond, List.forall_mem_singleton.mpr live⟩

theorem outside (avoids : tree.Avoids reference) : tree.entersBlueprint reference = false := by
  obtain ⟨firm, loose, steps, -, outside, beyond⟩ := avoids
  rw [AnswerTree.entersBlueprint, steps, ← Bool.not_eq_true]
  intro enters
  cases firm with
  | nil =>
      have inLoose : ∀ step ∈ loose.tail, step.multiplicity ≠ .template :=
        fun step member => beyond step (List.mem_of_mem_tail member)
      have none : tree.root.entersBlueprint [] = true :=
        Node.entersBlueprint_append_outside inLoose enters
      cases none
  | cons first firm =>
      have inside := Node.entersBlueprint_append_outside beyond enters
      exact absurd inside (Bool.eq_false_iff.mp outside)

theorem sameShape {other : AnswerTree} (avoids : tree.Avoids reference)
    (shape : tree.SameShape other) : other.Avoids reference := by
  obtain ⟨firm, loose, steps, bound, outside, beyond⟩ := avoids
  refine ⟨firm, loose, steps, bound, ?_, beyond⟩
  rw [← Node.entersBlueprint_outline, ← show tree.root.outline = other.root.outline from shape,
    Node.entersBlueprint_outline]
  exact outside

theorem not_template_of_denotes {steps path : List Step}
    (unbound : ∀ step ∈ steps, step.multiplicity = .unbound)
    (denotes : List.Forall₂ Denotes steps path) : ∀ step ∈ path, step.multiplicity ≠ .template := by
  intro reached member
  obtain ⟨step, inSteps, here⟩ := exists_of_forall₂ denotes.flip member
  cases here with
  | inl same =>
      rw [same, unbound step inSteps]
      exact Multiplicity.noConfusion
  | inr other => exact other.2.2

/-- What a pattern leads to as seen from some context runs along the context, and
from there on into no template. -/
theorem exists_shared {pattern firm loose path : List Step}
    (unbound : ∀ step ∈ pattern, step.multiplicity = .unbound)
    (bound : ∀ step ∈ firm, step.multiplicity.isBound = true)
    (beyond : ∀ step ∈ loose, step.multiplicity ≠ .template)
    (denotes : List.Forall₂ Denotes (Reference.anchorSteps pattern (firm ++ loose)) path) :
    ∃ shared free, path = shared ++ free ∧ shared <+: firm ∧
      ∀ step ∈ free, step.multiplicity ≠ .template := by
  -- Along the context: first through its firm steps, then through its loose ones.
  induction pattern generalizing firm loose path with
  | nil =>
      cases denotes
      exact ⟨[], [], rfl, List.nil_prefix, by simp⟩
  | cons step pattern induction =>
      obtain ⟨stepUnbound, below⟩ := List.forall_mem_cons.mp unbound
      have apart (kept : Reference.anchorSteps (step :: pattern) (firm ++ loose) = step :: pattern) :
          ∃ shared free, path = shared ++ free ∧ shared <+: firm ∧
            ∀ step ∈ free, step.multiplicity ≠ .template := by
        rw [kept] at denotes
        exact ⟨[], path, rfl, List.nil_prefix, not_template_of_denotes unbound denotes⟩
      cases firm with
      | nil =>
          cases loose with
          | nil => exact apart rfl
          | cons other loose =>
              by_cases named : step.name = other.name
              · rw [List.nil_append, Reference.anchorSteps_cons_of_eq stepUnbound named] at denotes
                cases denotes with
                | cons here rest =>
                    obtain ⟨otherLive, looseLive⟩ := List.forall_mem_cons.mp beyond
                    rw [← List.nil_append loose] at rest
                    obtain ⟨shared, free, rfl, within, live⟩ :=
                      induction below (List.forall_mem_nil _) looseLive rest
                    cases List.prefix_nil.mp within
                    refine ⟨[], _, rfl, List.nil_prefix, List.forall_mem_cons.mpr ⟨?_, live⟩⟩
                    cases here with
                    | inl same => rwa [same]
                    | inr loosely => exact loosely.2.2
              · exact apart (Reference.anchorSteps_cons_of_ne named)
      | cons other firm =>
          by_cases named : step.name = other.name
          · rw [List.cons_append, Reference.anchorSteps_cons_of_eq stepUnbound named] at denotes
            cases denotes with
            | cons here rest =>
                obtain ⟨otherBound, firmBound⟩ := List.forall_mem_cons.mp bound
                obtain ⟨shared, free, rfl, within, live⟩ := induction below firmBound beyond rest
                refine ⟨other :: shared, free, ?_, List.cons_prefix_cons.mpr ⟨rfl, within⟩, live⟩
                cases here with
                | inl same => rw [same, List.cons_append]
                | inr loosely =>
                    rw [loosely.1] at otherBound
                    cases otherBound
          · exact apart (Reference.anchorSteps_cons_of_ne named)

theorem target {pattern context near place : Reference} (isPattern : pattern.IsPattern)
    (avoids : tree.Avoids context) (anchored : pattern.anchor context = .ok near)
    {other : AnswerTree} {found : List Reference} (expanded : other.expand near none = .ok found)
    (member : place ∈ found) : tree.Avoids place := by
  obtain ⟨firm, loose, steps, bound, outside, beyond⟩ := avoids
  obtain ⟨-, denotes⟩ :=
    denotes_of_mem_expand (Reference.anchor_origin anchored) expanded member
  have isShared : ∃ shared free, place.steps = shared ++ free ∧ shared <+: firm ∧
      ∀ step ∈ free, step.multiplicity ≠ .template := by
    rw [Reference.anchor, isPattern.absolute] at anchored
    cases anchored
    simp only [Reference.absolute] at denotes
    split at denotes
    · rw [steps] at denotes
      exact exists_shared isPattern.unbound bound beyond denotes
    · exact ⟨[], place.steps, rfl, List.nil_prefix,
        not_template_of_denotes isPattern.unbound denotes⟩
  obtain ⟨shared, free, whole, ⟨rest, rfl⟩, live⟩ := isShared
  refine ⟨shared, free, whole, fun step inShared => bound step (List.mem_append_left _ inShared),
    ?_, live⟩
  rw [← Bool.not_eq_true]
  intro enters
  cases shared with
  | nil => cases enters
  | cons first shared =>
      have inside := Node.entersBlueprint_append enters rest
      exact absurd inside (Bool.eq_false_iff.mp outside)

end Avoids

end AnswerTree

theorem Engine.keeps_blueprints {engine : Engine}
    (bound : ∀ {number rule}, engine.rulebook.rule? number = some rule → rule.IsBound)
    (tree : AnswerTree) :
    engine.Keeps (fun after => after.SameShape tree ∧ after.blueprints = tree.blueprints)
      tree.Avoids := by
  refine ⟨fun avoids live => avoids.child live, ?_, ?_⟩
  · intro after number rule anchors found _ entered inside located target inFound
    have isPattern := (bound entered).target
    cases anchors with
    | nil =>
        change after.expand rule.target none = .ok found at located
        have denotes := (AnswerTree.denotes_of_mem_expand isPattern.absolute located inFound).2
        exact .of_not_template (AnswerTree.Avoids.not_template_of_denotes isPattern.unbound denotes)
    | cons anchor anchors =>
        obtain ⟨context, inAnchors, near, isNear, inNear⟩ :=
          (mem_targets (List.cons_ne_nil _ _) located).2 target inFound
        rw [targetsNear] at isNear
        split at isNear
        · cases isNear
        next reference anchored =>
          exact (inside context inAnchors).target isPattern anchored isNear inNear
  · intro before target change held inside adjusts
    obtain ⟨shape, same⟩ := held
    refine ⟨(AnswerTree.change_sameShape adjusts.outline_eq _ _).trans shape, ?_⟩
    rw [← same]
    apply AnswerTree.blueprints_change
    · intro node _
      exact ⟨adjusts.step_eq node, adjusts.blueprints_eq node⟩
    · exact (inside.sameShape shape.symm).outside

namespace AnswerTree

/-! Insertions and removals. -/

theorem insert_changesSeries {tree grown : AnswerTree} {parent inserted : Reference}
    {name : String} {position : Nat}
    (done : tree.insert parent name position = .ok (grown, inserted)) :
    ∃ node changed, node.repeats name = true ∧
      tree.ChangesSeries grown parent name node changed := by
  rcases insert_ok done with ⟨node, template, found, here, rfl, -⟩
  let put : Node → Node := (·.insertMember (template.copy (.index position)) position)
  have grows := node.insertMember_grows (template.copy (.index position)) position
  rw [Node.name_copy, Node.name_of_template? here] at grows
  have grown : Node.GrowsBy name _ _ node (put node) := ⟨rfl, grows⟩
  have same : tree.change parent put = tree.change parent fun _ => put node :=
    change_congr found rfl
  refine ⟨node, put node, by rw [Node.repeats, here]; rfl, ?_⟩
  change tree.ChangesSeries (tree.change parent put) parent name node (put node)
  rw [same]
  exact changesSeries_of_change found rfl grown.others

theorem remove_changesSeries {tree shrunk : AnswerTree} {reference : Reference} {removed : Node}
    (done : tree.remove reference = .ok (shrunk, removed)) :
    ∃ parent position name node changed, reference.parent? = some parent ∧
      removed.facts.multiplicity = .index position ∧ node.repeats name = true ∧
      tree.ChangesSeries shrunk parent name node changed := by
  rcases remove_ok done with ⟨position, name, parent, node, remaining, -, -, isParent, found,
    templated, taken, rfl⟩
  rcases Node.removeMember?_others taken with ⟨facts, others⟩
  rw [Node.removeMember?] at taken
  rcases Option.map_eq_some_iff.mp taken with ⟨⟨first, rest⟩, took, equal⟩
  rcases takeFirst?_eq_some took with ⟨before, after, -, -, here⟩
  simp only [Node.isAt, Bool.and_eq_true, beq_iff_eq] at here
  cases equal
  refine ⟨parent, position, name, node, _, isParent, here.2, ?_,
    changesSeries_of_change found facts others⟩
  rw [Node.repeats, Option.isSome_iff_ne_none]
  exact templated

theorem insert_blueprints {tree grown : AnswerTree} {parent inserted : Reference} {name : String}
    {position : Nat} (outside : tree.entersBlueprint parent = false)
    (done : tree.insert parent name position = .ok (grown, inserted)) :
    grown.blueprints = tree.blueprints := by
  obtain ⟨node, changed, repeated, changes⟩ := insert_changesSeries done
  rw [changes.replaced]
  apply blueprints_change _ outside
  intro other again
  cases changes.found.symm.trans again
  have step : changed.step = node.step := by rw [Node.step, Node.step, changes.facts]
  exact ⟨step, Node.blueprints_of_others repeated changes.others⟩

theorem entersBlueprint_child {tree : AnswerTree} {parent : Reference} {name : String}
    {multiplicity : Multiplicity} (nonempty : parent.steps ≠ [])
    (live : multiplicity ≠ .template) :
    tree.entersBlueprint (parent.child name multiplicity) = tree.entersBlueprint parent := by
  rw [entersBlueprint, entersBlueprint, Reference.child, List.tail_append_of_ne_nil nonempty,
    Bool.eq_iff_iff]
  constructor
  · exact Node.entersBlueprint_append_outside (List.forall_mem_singleton.mpr live)
  · exact fun enters => Node.entersBlueprint_append enters _

theorem remove_blueprints {tree shrunk : AnswerTree} {reference parent : Reference} {removed : Node}
    (isParent : reference.parent? = some parent)
    (done : tree.remove reference = .ok (shrunk, removed)) :
    (tree.entersBlueprint reference = false → shrunk.blueprints = tree.blueprints ∧
      shrunk.Avoids parent ∧ shrunk.Avoids reference) ∧
    (tree.entersBlueprint reference = true →
      shrunk.root.blueprintSize < tree.root.blueprintSize) := by
  obtain ⟨position, name, other, node, remaining, lastMultiplicity, lastName, again, found,
    templated, taken, rfl⟩ := remove_ok done
  cases isParent.symm.trans again
  obtain ⟨path, isPlace, whole, steps, reached⟩ := parent_steps found
  have isMember : reference = parent.child name (.index position) :=
    Reference.eq_child_of_parent? isParent isPlace.absolute lastName lastMultiplicity
  have sameEntry : tree.entersBlueprint reference = tree.entersBlueprint parent := by
    rw [isMember]
    exact entersBlueprint_child (by simp [whole]) Multiplicity.noConfusion
  obtain ⟨facts, others⟩ := Node.removeMember?_others taken
  have step : remaining.step = node.step := by rw [Node.step, Node.step, facts]
  constructor
  · intro outside
    rw [sameEntry] at outside
    have avoids : (tree.change parent fun _ => remaining).Avoids parent := by
      let put : Node → Node := ({ · with children := remaining.children })
      have same : remaining = put node := by
        change remaining = Node.mk node.facts remaining.children
        rw [← facts]
        cases remaining
        rfl
      apply Avoids.of_isPlace isPlace
      rw [entersBlueprint, whole, List.tail_cons] at outside ⊢
      rw [change_congr found same, AnswerTree.change, steps]
      have kept : ∀ node, (put node).step = node.step := fun _ => rfl
      exact (Node.entersBlueprint_changeDescendant kept).trans outside
    refine ⟨?_, avoids, ?_⟩
    · apply blueprints_change _ outside
      intro other again
      cases found.symm.trans again
      refine ⟨step, Node.blueprints_of_others ?_ others⟩
      rw [Node.repeats, Option.isSome_iff_ne_none]
      exact templated
    · rw [isMember]
      exact avoids.child Multiplicity.noConfusion
  · intro enters
    rw [sameEntry, entersBlueprint, whole] at enters
    rw [AnswerTree.change, steps]
    exact Node.blueprintSize_changeDescendant reached step (Node.size_removeMember? taken) enters

end AnswerTree

/-! Requests. -/

theorem Engine.setAnswer_outside {engine : Engine} {tree : AnswerTree} {reference : Reference}
    {value : Option Value} {after : Pass}
    (done : engine.setAnswer tree reference value = .ok after) :
    reference.entersTemplate = false := by
  rw [setAnswer] at done
  split at done
  · cases done
  next outside => simpa using outside

/-- Every request that is met leaves the blueprints of the form as they are, but
for a removal from inside a blueprint, which never does. -/
theorem Form.perform_blueprints_iff {form : Form} (bound : ∀ {number rule},
      form.engine.rulebook.rule? number = some rule → rule.IsBound)
    {request : Request} {outcome : Outcome} (done : form.perform request = .ok outcome) :
    outcome.form.tree.blueprints = form.tree.blueprints ↔
      ∀ reference, request = .removeMember reference →
        form.tree.entersBlueprint reference = false := by
  cases request with
  | initial =>
      cases done
      refine iff_of_true ?_ (fun _ other => nomatch other)
      exact ((Engine.keeps_blueprints bound form.tree).initial ⟨.refl _, rfl⟩).2
  | setAnswer reference value =>
      obtain ⟨pass, set, rfl⟩ := setAnswer_ok done
      refine iff_of_true ?_ (fun _ other => nomatch other)
      exact ((Engine.keeps_blueprints bound form.tree).setAnswer ⟨.refl _, rfl⟩
        (.of_outside (Engine.setAnswer_outside set)) set).2
  | insertMember parent name position =>
      obtain ⟨⟨made, inserted⟩, met, rfl⟩ := map_eq_ok.mp done
      obtain ⟨pass, insert, rfl⟩ := insertMember_ok met
      refine iff_of_true ?_ (fun _ other => nomatch other)
      obtain ⟨grown, -, outside, grows, -⟩ := Engine.insertMember_ok insert
      have avoids {tree : AnswerTree} : tree.Avoids parent := .of_outside outside
      have isInserted : grown.Avoids inserted := by
        obtain ⟨-, -, -, -, -, rfl⟩ := AnswerTree.insert_ok grows
        exact avoids.child Multiplicity.noConfusion
      have kept := (Engine.keeps_blueprints bound grown).insertMember grows ⟨.refl _, rfl⟩ avoids
        isInserted insert
      exact kept.2.trans (AnswerTree.insert_blueprints avoids.outside grows)
  | removeMember reference =>
      obtain ⟨parent, shrunk, removed, pass, isParent, taken, repaired, rfl⟩ :=
        removeMember_ok done
      obtain ⟨leaves, shrinks⟩ := AnswerTree.remove_blueprints isParent taken
      cases enters : form.tree.entersBlueprint reference with
      | false =>
          obtain ⟨same, avoids, avoidsToo⟩ := leaves enters
          have kept := (Engine.keeps_blueprints bound shrunk).afterRemoval ⟨.refl _, rfl⟩ avoids
            avoidsToo repaired
          apply iff_of_true (kept.2.trans same)
          rintro _ ⟨⟩
          exact enters
      | true =>
          -- A blueprint has become smaller, and no rule changes its size.
          have shape := (form.engine.keeps_sameShape shrunk).afterRemoval (.refl _) trivial trivial
            repaired
          apply iff_of_false
          · intro same
            have size : pass.tree.root.blueprintSize = shrunk.root.blueprintSize := by
              rw [← Node.blueprintSize_outline,
                show pass.tree.root.outline = shrunk.root.outline from shape,
                Node.blueprintSize_outline]
            have unchanged : pass.tree.root.blueprintSize = form.tree.root.blueprintSize :=
              congrArg (fun blueprints => (blueprints.map (·.2.size)).sum) same
            have := shrinks enters
            omega
          · intro outside
            rw [outside reference rfl] at enters
            cases enters

/-- In every form that a definition makes, over saved answers or not, and after
any requests: a request that is met leaves all blueprints as they are, with what
they hold and what is below them, unless it is a removal from inside one of them.
Such a removal takes something away from it. -/
theorem Definition.reached_blueprints_iff {definition : Definition} {constructors : Constructors}
    {settings : Settings} {material : Material} {evaluator : Evaluator}
    {saved : Option AnswerTree} {form : Form}
    (made : definition.material constructors settings = .ok material)
    (built : Form.build material evaluator saved = .ok form) {current : Form}
    (reached : form.Reached current) {request : Request} {outcome : Outcome}
    (done : current.perform request = .ok outcome) :
    outcome.form.tree.blueprints = current.tree.blueprints ↔
      ∀ reference, request = .removeMember reference →
        current.tree.entersBlueprint reference = false := by
  apply Form.perform_blueprints_iff _ done
  intro number rule entered
  rw [reached.rulebook] at entered
  have rules := Definition.rules_isMade (Definition.material_ok made).2.1
  exact (Form.build_isMade rules built entered).isBound

/-! An order that is shipped in boxes, with parcels in every box. -/

namespace Order

def shipment : Definition where
  id := none
  title := "shipment"
  skeleton :=
    let parcel (isTemplate : Bool) : Skeleton :=
      { Skeleton.ofName "parcel" with isTemplate, type := .int }
    let box (isTemplate : Bool) : Skeleton :=
      { Skeleton.ofName "box" with isTemplate, children := [parcel true, parcel false] }
    { Skeleton.ofName "data" with children := [box true] }
  binds := []

def parcelOf (box : Multiplicity) : Reference :=
  ((Reference.root "data").child "box" box).child "parcel" (.index 0)

end Order

/-- A parcel is removed from a new box. -/
theorem shipment_reached_blueprints : ∃ material form filled outcome,
    Order.shipment.material .standard .standard = .ok material ∧
    Form.build material (Expression.evaluator .startOf2020) none = .ok form ∧
    form.Reached filled ∧
    filled.perform (.removeMember (Order.parcelOf (.index 0))) = .ok outcome ∧
    outcome.form.tree.blueprints = filled.tree.blueprints := by
  have ready : (Order.shipment.material .standard .standard).toOption.any (fun material =>
      (Form.build material (Expression.evaluator .startOf2020) none).toOption.any fun form =>
        (form.perform (.insertMember (.root "data") "box" 0)).toOption.any fun filled =>
          !filled.form.tree.entersBlueprint (Order.parcelOf (.index 0)) &&
            (filled.form.perform (.removeMember (Order.parcelOf (.index 0)))).toOption.isSome) =
        true := by
    decide +kernel
  obtain ⟨material, made, ready⟩ := exists_ok_of_any ready
  obtain ⟨form, built, ready⟩ := exists_ok_of_any ready
  obtain ⟨filled, inserted, ready⟩ := exists_ok_of_any ready
  obtain ⟨outside, ready⟩ := Bool.and_eq_true_iff.mp ready
  cases removed : filled.form.perform (.removeMember (Order.parcelOf (.index 0))) with
  | error _ =>
      rw [removed] at ready
      cases ready
  | ok outcome =>
      have reached : form.Reached filled.form := Form.Reached.start.perform inserted
      refine ⟨material, form, filled.form, outcome, made, built, reached, removed, ?_⟩
      rw [Definition.reached_blueprints_iff made built reached removed]
      rintro _ ⟨⟩
      simpa using outside

/-- The parcel of the template can be removed as well, and then a new box has
none. -/
theorem shipment_blueprint_lost : ∃ material form outcome next,
    Order.shipment.material .standard .standard = .ok material ∧
    Form.build material (Expression.evaluator .startOf2020) none = .ok form ∧
    form.initial.form.perform (.removeMember (Order.parcelOf .template)) = .ok outcome ∧
    outcome.report.failures = [] ∧
    outcome.form.perform (.insertMember (.root "data") "box" 0) = .ok next ∧
    (form.initial.form.tree.find? ((Reference.root "data").child "box" .template)).map
      (·.memberCount "parcel") = some 1 ∧
    (outcome.form.tree.find? ((Reference.root "data").child "box" .template)).map
      (·.memberCount "parcel") = some 0 ∧
    (next.form.tree.find? ((Reference.root "data").child "box" (.index 0))).map
      (·.memberCount "parcel") = some 0 := by
  have lost : (Order.shipment.material .standard .standard).toOption.any (fun material =>
      (Form.build material (Expression.evaluator .startOf2020) none).toOption.any fun form =>
        (form.initial.form.perform (.removeMember (Order.parcelOf .template))).toOption.any
          fun outcome => (outcome.form.perform (.insertMember (.root "data") "box" 0)).toOption.any
            fun next => decide (outcome.report.failures = [] ∧
              (form.initial.form.tree.find? ((Reference.root "data").child "box" .template)).map
                (·.memberCount "parcel") = some 1 ∧
              (outcome.form.tree.find? ((Reference.root "data").child "box" .template)).map
                (·.memberCount "parcel") = some 0 ∧
              (next.form.tree.find? ((Reference.root "data").child "box" (.index 0))).map
                (·.memberCount "parcel") = some 0)) = true := by
    decide +kernel
  obtain ⟨material, made, lost⟩ := exists_ok_of_any lost
  obtain ⟨form, built, lost⟩ := exists_ok_of_any lost
  obtain ⟨outcome, removed, lost⟩ := exists_ok_of_any lost
  obtain ⟨next, inserted, lost⟩ := exists_ok_of_any lost
  obtain ⟨clean, before, after, fresh⟩ := decide_eq_true_eq.mp lost
  exact ⟨material, form, outcome, next, made, built, removed, clean, inserted, before, after, fresh⟩

end ReactiveForm
