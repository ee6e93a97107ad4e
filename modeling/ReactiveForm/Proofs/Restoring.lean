import Mathlib.Data.List.Induction
import Mathlib.Order.MinMax
import ReactiveForm.Proofs.Blueprints
import ReactiveForm.Proofs.SeriesList

/-! Restored answers are all there. Every saved node that has a counterpart in
the tree, or gets one from a template, is found again under its own path with
what it held, and nothing else in the tree changes. -/

namespace ReactiveForm

/-! Attributes. -/

def Attribute.isNamed (space : Option String) (name : String) (entry : Attribute) : Bool :=
  entry.space == space && entry.name == name

def Facts.latest? (facts : Facts) (space : Option String) (name : String) : Option String :=
  (facts.attributes.reverse.find? (Attribute.isNamed space name)).map (·.value)

namespace Attribute

variable {space : Option String} {name : String}

theorem find?_putInto (entry : Attribute) (entries : List Attribute) :
    ((entry.putInto entries).find? (isNamed space name)).map (·.value) =
      if entry.isNamed space name then some entry.value
      else (entries.find? (isNamed space name)).map (·.value) := by
  induction entries with
  | nil => cases named : entry.isNamed space name <;> simp [putInto, named]
  | cons first rest induction =>
      rw [putInto]
      split
      next same =>
        have alike : isNamed space name { first with value := entry.value } =
            entry.isNamed space name := by
          simp [isNamed, same]
        have alikeFirst : first.isNamed space name = entry.isNamed space name := by
          simp [isNamed, same]
        cases named : entry.isNamed space name <;> simp [alike, alikeFirst, named]
      next apart =>
        rw [List.find?_cons, List.find?_cons]
        cases named : first.isNamed space name with
        | false => exact induction
        | true =>
            have otherwise : entry.isNamed space name = false := by
              rw [← Bool.not_eq_true]
              intro alike
              simp only [isNamed, Bool.and_eq_true, beq_iff_eq] at named alike
              exact apart ⟨named.1.trans alike.1.symm, named.2.trans alike.2.symm⟩
            simp [otherwise]

theorem find?_foldl_putInto (entries base : List Attribute) :
    ((entries.foldl (fun entries entry => entry.putInto entries) base).find?
        (isNamed space name)).map (·.value) =
      ((entries.reverse.find? (isNamed space name)).map (·.value)).or
        ((base.find? (isNamed space name)).map (·.value)) := by
  induction entries generalizing base with
  | nil => rfl
  | cons entry rest induction =>
      rw [List.foldl_cons, induction, find?_putInto, List.reverse_cons, List.find?_append]
      cases named : entry.isNamed space name <;>
        cases rest.reverse.find? (isNamed space name) <;> simp [named]

end Attribute

namespace Node

theorem attribute?_takeOver (saved facts : Facts) (space : Option String) (name : String) :
    (takeOver saved facts).attribute? space name =
      (saved.latest? space name).or (facts.attribute? space name) :=
  Attribute.find?_foldl_putInto saved.attributes facts.attributes

/-! The counterpart of a saved child. -/

/-- The child that receives what a saved child holds: the one under the same
step, or else a copy of the template. -/
def counterpart? (node : Node) (step : Step) : Option Node :=
  (node.child? step.name step.multiplicity).or
    ((node.template? step.name).map fun template =>
      (template.copy step.multiplicity).inherit node.isRelevant)

def receiver? : List Step → Node → Option Node
  | [], node => some node
  | step :: rest, node => (node.counterpart? step).bind (receiver? rest)

theorem counterpart?_eq_child {node child : Node} {step : Step}
    (found : node.child? step.name step.multiplicity = some child) :
    node.counterpart? step = some child := by
  rw [counterpart?, found, Option.some_or]

theorem receiver?_of_descendant? {node found : Node} {steps : List Step}
    (reached : node.descendant? steps = some found) : node.receiver? steps = some found := by
  induction steps generalizing node with
  | nil => exact reached
  | cons step rest induction =>
      rw [descendant?] at reached
      rcases Option.bind_eq_some_iff.mp reached with ⟨child, here, below⟩
      rw [receiver?, counterpart?_eq_child here]
      exact induction below

theorem Numbered.counterpart {node found : Node} {step : Step} (numbered : node.Numbered)
    (counterpart : node.counterpart? step = some found) : found.Numbered := by
  rw [counterpart?, Option.or_eq_some_iff] at counterpart
  rcases counterpart with here | ⟨-, copied⟩
  · exact numbered.child found (mem_of_child? here)
  · rcases Option.map_eq_some_iff.mp copied with ⟨template, here, rfl⟩
    exact ((numbered.child template (mem_of_child? here)).copy _).of_outline (outline_inherit _ _)

theorem Numbered.receiver {node found : Node} {steps : List Step} (numbered : node.Numbered)
    (received : node.receiver? steps = some found) : found.Numbered := by
  induction steps generalizing node with
  | nil =>
      cases received
      exact numbered
  | cons step rest induction =>
      rcases Option.bind_eq_some_iff.mp received with ⟨counterpart, here, below⟩
      exact induction (numbered.counterpart here) below

/-! One saved child after the other. -/

theorem restoreChildren_append (first second : List Node) (target : Node) :
    restoreChildren (first ++ second) target =
      restoreChildren second (restoreChildren first target) := by
  induction first generalizing target with
  | nil => rfl
  | cons child rest induction =>
      rw [List.cons_append, restoreChildren, restoreChildren, induction]

theorem Counted.init {name : String} {first second : List Node}
    (counted : Counted name (first ++ second)) : Counted name first := by
  rcases counted_iff.mp counted with ⟨count, sequence⟩
  rw [numbers_append] at sequence
  exact counted_iff.mpr ⟨_, (range'_of_append sequence).1⟩

theorem Counted.multiplicity {before after : List Node} {child : Node}
    (counted : Counted child.facts.name (before ++ child :: after))
    (live : child.isTemplate = false) : child.facts.multiplicity =
      .index (before.filter (isMember child.facts.name)).length := by
  rcases counted_iff.mp counted with ⟨count, sequence⟩
  rw [numbers_append] at sequence
  rcases range'_of_append sequence with ⟨-, lasts, -⟩
  rw [numbers_cons_member (isMember_iff.mpr ⟨rfl, live⟩), Nat.zero_add, length_numbers] at lasts
  exact (List.cons.inj lasts).1

theorem isAt_iff {name : String} {multiplicity : Multiplicity} {node : Node} :
    node.isAt name multiplicity = true ↔ node.step = ⟨name, multiplicity⟩ := by
  rw [isAt, Bool.and_eq_true, beq_iff_eq, beq_iff_eq, Node.step, Step.mk.injEq]

theorem isAt_index {name : String} {position : Nat} {node : Node} :
    node.isAt name (.index position) = true ↔
      node.isMember name = true ∧ node.facts.multiplicity = .index position := by
  rw [isMember_iff]
  simp only [isAt, Bool.and_eq_true, beq_iff_eq, isTemplate, beq_eq_false_iff_ne]
  constructor
  · rintro ⟨named, here⟩
    exact ⟨⟨named, by simp [here]⟩, here⟩
  · rintro ⟨⟨named, -⟩, here⟩
    exact ⟨named, here⟩

theorem Counted.find?_isSome {name : String} {children : List Node}
    (counted : Counted name children) (position : Nat) :
    (children.find? (isAt name (.index position))).isSome = true ↔
      position < (children.filter (isMember name)).length := by
  have inSeries : (∃ child ∈ children, isAt name (.index position) child = true) ↔
      .index position ∈ (children.filter (isMember name)).map (·.facts.multiplicity) := by
    simp only [isAt_index, List.mem_map, List.mem_filter, and_assoc]
  rw [List.find?_isSome, inSeries, counted.length]
  simp

theorem templates_find? {node other : Node}
    (same : node.children.filter isTemplate = other.children.filter isTemplate) (name : String) :
    node.template? name = other.template? name := by
  have inTemplates (children : List Node) : children.find? (isAt name .template) =
      (children.filter isTemplate).find? (isAt name .template) := by
    rw [List.find?_filter]
    congr 1
    funext child
    cases here : isAt name .template child with
    | false => simp
    | true =>
        simp only [isAt, Bool.and_eq_true, beq_iff_eq] at here
        simp [isTemplate, here.2]
  rw [template?, template?, child?, child?, inTemplates, same, ← inTemplates]

theorem Numbered.renumber_eq {node : Node} (numbered : node.Numbered) (name : String) :
    node.renumber name = node := by
  rcases counted_iff.mp (numbered.counted name) with ⟨count, sequence⟩
  cases node
  rw [renumber, renumberFrom_eq_self sequence]

theorem name_of_child? {node child : Node} {name : String} {multiplicity : Multiplicity}
    (found : node.child? name multiplicity = some child) : child.facts.name = name := by
  have here := List.find?_some found
  simp only [isAt, Bool.and_eq_true, beq_iff_eq] at here
  exact here.1

theorem multiplicity_copy (node : Node) (multiplicity : Multiplicity) :
    (node.copy multiplicity).facts.multiplicity = multiplicity := by
  cases node
  rfl

theorem isTemplate_copy (node : Node) (position : Nat) :
    (node.copy (.index position)).isTemplate = false := by
  simp [isTemplate, multiplicity_copy]

theorem Numbered.provide_cases {node : Node} (numbered : node.Numbered) (name : String)
    (position : Nat) :
    (node.provide name (.index position) = node ∧
      node.counterpart? ⟨name, .index position⟩ = node.child? name (.index position)) ∨
    ∃ template, node.child? name (.index position) = none ∧
      node.template? name = some template ∧ node.provide name (.index position) =
        { node with
          children := node.children ++
            [(template.copy (.index (node.memberCount name))).inherit node.isRelevant] } := by
  cases here : node.child? name (.index position) with
  | some child =>
      refine .inl ⟨?_, counterpart?_eq_child here⟩
      rw [Node.provide, here, Option.isSome_some, if_pos rfl]
  | none =>
      cases blueprint : node.template? name with
      | none =>
          refine .inl ⟨?_, by rw [counterpart?, here, blueprint]; rfl⟩
          rw [Node.provide, here, blueprint, Option.isSome_none, if_neg Bool.false_ne_true]
      | some template =>
          refine .inr ⟨template, rfl, rfl, ?_⟩
          have named : (template.copy (.index position)).facts.name = name :=
            (name_copy ..).trans (name_of_child? blueprint)
          have copied := (numbered.child template (mem_of_child? blueprint)).copy (.index position)
          rw [Node.provide, here, blueprint, Option.isSome_none, if_neg Bool.false_ne_true]
          dsimp only
          rw [(numbered.append copied).renumber_eq, Node.append, isTemplate_copy,
            if_neg Bool.false_ne_true, named]
          rfl

theorem Numbered.templates_provide {node : Node} (numbered : node.Numbered) (name : String)
    (position : Nat) :
    (node.provide name (.index position)).children.filter isTemplate =
      node.children.filter isTemplate := by
  rcases numbered.provide_cases name position with ⟨same, -⟩ | ⟨template, -, -, grown⟩
  · rw [same]
  · have live : (inherit node.isRelevant
        (template.copy (.index (node.memberCount name)))).isTemplate = false := by
      rw [isTemplate, facts_inherit]
      exact isTemplate_copy template (node.memberCount name)
    rw [grown, List.filter_append, List.filter_singleton, live]
    exact List.append_nil _

theorem Numbered.child?_provide {node : Node} (numbered : node.Numbered) {name : String}
    {position : Nat}
    (reached : (node.template? name).isSome = true → position ≤ node.memberCount name)
    (step : Step) :
    (node.provide name (.index position)).child? step.name step.multiplicity =
      if step = ⟨name, .index position⟩ then node.counterpart? step
      else node.child? step.name step.multiplicity := by
  rcases numbered.provide_cases name position with ⟨same, here⟩ | ⟨template, missing, blueprint, grown⟩
  · rw [same]
    split
    next isNext =>
      subst isNext
      exact here.symm
    next => rfl
  · have counts : node.memberCount name = position := by
      refine Nat.le_antisymm ?_ (reached (by rw [blueprint]; rfl))
      rw [← Nat.not_lt, Node.memberCount, members, ← (numbered.counted name).find?_isSome, ← child?,
        missing]
      exact Bool.false_ne_true
    have lastStep : (inherit node.isRelevant (template.copy (.index position))).step =
        ⟨name, .index position⟩ := by
      rw [Node.step, facts_inherit, name_copy, multiplicity_copy, name_of_child? blueprint]
    rw [grown, counts, child?, List.find?_append, ← child?, List.find?_singleton]
    by_cases isNext : step = ⟨name, .index position⟩
    · subst isNext
      rw [missing, if_pos (isAt_iff.mpr lastStep), if_pos rfl, counterpart?, missing, blueprint]
      rfl
    · rw [if_neg fun here => isNext ((isAt_iff.mp here).symm.trans lastStep), if_neg isNext,
        Option.or_none]

structure Receives (saved : List Node) (target result : Node) : Prop where
  facts : result.facts = target.facts
  templates : result.children.filter isTemplate = target.children.filter isTemplate
  child : ∀ name position, result.child? name (.index position) =
    match saved.find? (isAt name (.index position)) with
    | none => target.child? name (.index position)
    | some child => (target.counterpart? ⟨name, .index position⟩).map child.restore

section Receiving

variable {saved : List Node} {child target result : Node}

theorem Receives.template (receives : Receives saved target result)
    (template : child.isTemplate = true) : Receives (saved ++ [child]) target result := by
  refine ⟨receives.facts, receives.templates, fun name position => ?_⟩
  have missed : isAt name (.index position) child = false := by
    rw [← Bool.not_eq_true, isAt_index, isMember_iff, template]
    simp
  rw [List.find?_append, List.find?_singleton, missed, receives.child]
  simp

theorem counterpart?_isSome {name : String} {multiplicity : Multiplicity}
    {growing : Bool} (template : (target.template? name).isSome = growing) :
    (target.counterpart? ⟨name, multiplicity⟩).isSome =
      (growing || (target.child? name multiplicity).isSome) := by
  rw [counterpart?, Option.isSome_or, Option.isSome_map, template, Bool.or_comm]

theorem Receives.memberCount (receives : Receives saved target result) {name : String}
    (counted : Counted name saved) (targetCounted : Counted name target.children)
    (resultCounted : Counted name result.children) :
    result.memberCount name =
      if (target.template? name).isSome then
        max (saved.filter (isMember name)).length (target.memberCount name)
      else target.memberCount name := by
  have taken (position : Nat) : position < result.memberCount name ↔
      position < target.memberCount name ∨
        position < (saved.filter (isMember name)).length ∧ (target.template? name).isSome := by
    have here := receives.child name position
    have inResult := resultCounted.find?_isSome position
    have inTarget := targetCounted.find?_isSome position
    have inSaved := counted.find?_isSome position
    rw [← child?] at inResult inTarget
    rw [Node.memberCount, Node.memberCount, members, members, ← inResult, ← inTarget, ← inSaved,
      here]
    cases saved.find? (isAt name (.index position)) with
    | none => simp
    | some child => simp [counterpart?_isSome rfl, or_comm]
  refine eq_of_forall_lt_iff fun position => (taken position).trans ?_
  split
  next growing => rw [lt_max_iff, or_comm, and_iff_left growing]
  next fixed => rw [or_iff_left fun grown => fixed grown.2]

theorem filter_changeFirst {α : Type} {holds other : α → Bool} {change : α → α}
    (apart : ∀ element, holds element → other element = false ∧ other (change element) = false) :
    ∀ list : List α, (changeFirst holds change list).filter other = list.filter other
  | [] => rfl
  | head :: tail => by
      cases found : holds head with
      | true => simp [changeFirst, found, apart head found]
      | false => simp [changeFirst, found, List.filter_cons, filter_changeFirst apart tail]

theorem templates_changeChild {name : String} {position : Nat} {change : Node → Node}
    (keeps : ∀ child, (change child).step = child.step) (node : Node) :
    (node.changeChild name (.index position) change).children.filter isTemplate =
      node.children.filter isTemplate := by
  refine filter_changeFirst (fun child here => ?_) _
  have isMember := (isAt_index.mp here).1
  have stillMember := isMember
  rw [isMember_of_step (keeps child).symm] at stillMember
  exact ⟨(isMember_iff.mp isMember).2, (isMember_iff.mp stillMember).2⟩

theorem Receives.counterpart?_unsaved (receives : Receives saved target result) {name : String}
    {position : Nat} (unsaved : saved.find? (isAt name (.index position)) = none) :
    result.counterpart? ⟨name, .index position⟩ = target.counterpart? ⟨name, .index position⟩ := by
  rw [counterpart?, counterpart?, receives.child, unsaved, templates_find? receives.templates name,
    isRelevant, isRelevant, receives.facts]

theorem Receives.count_le (receives : Receives saved target result) {name : String}
    (counted : Counted name saved) (targetCounted : Counted name target.children)
    (resultCounted : Counted name result.children)
    (growing : (result.template? name).isSome = true) :
    (saved.filter (isMember name)).length ≤ result.memberCount name := by
  rw [templates_find? receives.templates name] at growing
  rw [receives.memberCount counted targetCounted resultCounted, if_pos growing]
  exact Nat.le_max_left ..

/-- The next saved child finds its counterpart. -/
theorem Receives.next (receives : Receives saved target result) (targetNumbered : target.Numbered)
    (resultNumbered : result.Numbered) (counted : ∀ name, Counted name (saved ++ [child]))
    (live : child.isTemplate = false) :
    Receives (saved ++ [child]) target
      ((result.provide child.facts.name child.facts.multiplicity).changeChild child.facts.name
        child.facts.multiplicity child.restore) := by
  have savedCounted := (counted child.facts.name).init
  have multiplicity := (counted child.facts.name).multiplicity live
  have beyond := savedCounted.find?_isSome (saved.filter (isMember child.facts.name)).length
  have reached := receives.count_le savedCounted (targetNumbered.counted child.facts.name)
    (resultNumbered.counted child.facts.name)
  generalize (saved.filter (isMember child.facts.name)).length = count at *
  have unsaved : saved.find? (isAt child.facts.name (.index count)) = none := by
    rw [← Option.not_isSome_iff_eq_none, beyond]
    exact Nat.lt_irrefl count
  have keeps (node : Node) : (child.restore node).step = node.step := (restore_numbered child node).2
  rw [multiplicity]
  refine ⟨(facts_provide ..).trans receives.facts, ?_, fun name position => ?_⟩
  · rw [templates_changeChild keeps, resultNumbered.templates_provide, receives.templates]
  · have provided := resultNumbered.child?_provide reached ⟨name, .index position⟩
    dsimp only at provided
    have keepsBoth (node : Node) : (child.restore node).facts.name = node.facts.name ∧
        (child.restore node).facts.multiplicity = node.facts.multiplicity :=
      Step.mk.injEq .. ▸ keeps node
    rw [List.find?_append, List.find?_singleton]
    by_cases isNext : (⟨name, .index position⟩ : Step) = ⟨child.facts.name, .index count⟩
    · cases isNext
      have here : isAt child.facts.name (.index count) child = true :=
        isAt_iff.mpr (by rw [Node.step, multiplicity])
      rw [child?_changeChild_self, provided, if_pos rfl, receives.counterpart?_unsaved unsaved,
        unsaved, if_pos here]
      · rfl
      · exact fun node here => isAt_iff.mpr ((keeps node).trans (isAt_iff.mp here))
    · have elsewhere : ¬ isAt name (.index position) child = true := by
        intro here
        rw [isAt_iff, Node.step, multiplicity] at here
        exact isNext here.symm
      rw [child?_changeChild_other keepsBoth, provided, if_neg isNext, receives.child,
        if_neg elsewhere, Option.or_none]
      rwa [← Step.mk.injEq]

theorem restoreChildren_receives (saved : List Node) (counted : ∀ name, Counted name saved)
    (targetNumbered : target.Numbered) : Receives saved target (restoreChildren saved target) := by
  induction saved using List.reverseRecOn with
  | nil => exact ⟨rfl, rfl, fun _ _ => rfl⟩
  | append_singleton saved child induction =>
      have receives := induction fun name => (counted name).init
      have resultNumbered := (restores_numbered.restoreChildren saved target).1 targetNumbered
      rw [restoreChildren_append, restoreChildren, restoreChildren]
      cases live : child.isTemplate with
      | true => exact receives.template live
      | false => exact receives.next targetNumbered resultNumbered counted live

end Receiving

/-! Whole paths. -/

section Paths

variable {saved target : Node}

theorem restore_receives (saved target : Node) (savedNumbered : saved.Numbered)
    (targetNumbered : target.Numbered) :
    Receives saved.children (target.withFacts (takeOver saved.facts)) (saved.restore target) := by
  cases saved
  exact restoreChildren_receives _ savedNumbered.counted (targetNumbered.withFacts _)

theorem counterpart?_takeOver (facts : Facts) (target : Node) (step : Step) :
    (target.withFacts (takeOver facts)).counterpart? step = target.counterpart? step :=
  rfl

theorem descendant?_restore {steps : List Step}
    (indexed : ∀ step ∈ steps, ∃ position, step.multiplicity = .index position) {found : Node}
    (savedNumbered : saved.Numbered) (targetNumbered : target.Numbered)
    (reached : saved.descendant? steps = some found) :
    (saved.restore target).descendant? steps = (target.receiver? steps).map found.restore := by
  induction steps generalizing saved target with
  | nil =>
      cases reached
      rfl
  | cons step rest induction =>
      rcases List.forall_mem_cons.mp indexed with ⟨⟨position, index⟩, indexed⟩
      rcases Option.bind_eq_some_iff.mp reached with ⟨child, here, below⟩
      have received :=
        (restore_receives saved target savedNumbered targetNumbered).child step.name position
      rw [← index, ← child?, here] at received
      dsimp only at received
      rw [descendant?, received, receiver?, counterpart?_takeOver]
      cases counterpart : target.counterpart? step with
      | none => rfl
      | some receiver =>
          exact induction indexed (savedNumbered.child child (mem_of_child? here))
            (targetNumbered.counterpart counterpart) below

theorem descendant?_restore_unsaved {steps : List Step} {found : Node}
    (savedNumbered : saved.Numbered) (targetNumbered : target.Numbered)
    (reached : target.descendant? steps = some found)
    (unsaved : (∀ step ∈ steps, ∃ position, step.multiplicity = .index position) →
      saved.descendant? steps = none) :
    (saved.restore target).descendant? steps = some found := by
  induction steps generalizing saved target with
  | nil => cases unsaved (fun _ member => nomatch member)
  | cons step rest induction =>
      rcases Option.bind_eq_some_iff.mp reached with ⟨child, here, below⟩
      have receives := restore_receives saved target savedNumbered targetNumbered
      rcases step with ⟨name, - | - | position⟩
      case unbound =>
        -- Every member has a number.
        have step := isAt_iff.mp (List.find?_some here)
        rw [Node.step, Step.mk.injEq] at step
        rcases (IsDistinct.of_numbered targetNumbered).exists_index (mem_of_child? here)
          (by simp [isTemplate, step.2]) with ⟨position, index⟩
        cases step.2.symm.trans index
      case template =>
        have same := (templates_find? receives.templates name).trans here
        rw [template?] at same
        rw [descendant?, same]
        exact below
      case index =>
        have received := receives.child name position
        rw [← child?] at received
        cases saidToo : saved.child? name (.index position) with
        | none =>
            rw [saidToo] at received
            rw [descendant?, received]
            exact reached
        | some savedChild =>
            rw [saidToo] at received
            dsimp only at received
            rw [descendant?, received, counterpart?_takeOver, counterpart?_eq_child here]
            refine induction (savedNumbered.child savedChild (mem_of_child? saidToo))
              (targetNumbered.child child (mem_of_child? here)) below fun indexed => ?_
            have missing := unsaved (List.forall_mem_cons.mpr ⟨⟨position, rfl⟩, indexed⟩)
            rw [descendant?, saidToo] at missing
            exact missing

end Paths

/-- What a node of the restored tree holds, by what was saved and by what its
receiver held. -/
structure Gathers (saved target restored : Node) : Prop where
  type : restored.facts.type = target.facts.type
  answer : restored.facts.answer = saved.facts.answer.or target.facts.answer
  attributes : ∀ space name, restored.facts.attribute? space name =
    (saved.facts.latest? space name).or (target.facts.attribute? space name)
  templates : restored.children.filter isTemplate = target.children.filter isTemplate
  memberCount : ∀ name, restored.memberCount name =
    if (target.template? name).isSome then max (saved.memberCount name) (target.memberCount name)
    else target.memberCount name

theorem restore_gathers {saved target : Node} (savedNumbered : saved.Numbered)
    (targetNumbered : target.Numbered) : Gathers saved target (saved.restore target) := by
  have receives := restore_receives saved target savedNumbered targetNumbered
  have facts := receives.facts
  refine ⟨?_, ?_, fun space name => ?_, receives.templates, fun name => ?_⟩
  · rw [facts]
    rfl
  · rw [facts]
    rfl
  · rw [facts]
    exact attribute?_takeOver ..
  · exact receives.memberCount (savedNumbered.counted name) (targetNumbered.counted name)
      (((restore_numbered saved target).1 targetNumbered).counted name)

end Node

namespace AnswerTree

variable {tree saved restored : AnswerTree}

/-- The node that receives what a saved node at a place holds. -/
def receiver? (tree : AnswerTree) (place : Reference) : Option Node :=
  (tree.steps? place).bind (tree.root.receiver? ·)

theorem steps?_congr (sameName : saved.root.facts.name = tree.root.facts.name)
    (place : Reference) : saved.steps? place = tree.steps? place := by
  rw [steps?, steps?, sameName]

theorem indexed_of_steps? {place : Reference} {steps : List Step} (live : place.IsLive)
    (there : tree.steps? place = some steps) :
    ∀ step ∈ steps, ∃ position, step.multiplicity = .index position := by
  have whole := live.indexed
  rw [(steps?_eq_some_iff.mp there).2] at whole
  exact (List.forall_mem_cons.mp whole).2

theorem isLive_of_steps? {place : Reference} {steps : List Step}
    (there : tree.steps? place = some steps)
    (indexed : ∀ step ∈ steps, ∃ position, step.multiplicity = .index position) : place.IsLive := by
  obtain ⟨isPlace, whole⟩ := steps?_eq_some_iff.mp there
  refine ⟨isPlace.absolute, ?_⟩
  rw [whole]
  exact List.forall_mem_cons.mpr ⟨⟨0, rfl⟩, indexed⟩

/-- Saved answers of the same form are restored without loss. Every saved node
that has a receiver, in the tree or in copies of templates, is found under its
own place with what both of them hold. Every node of the tree is still there
with its type, and is the same as before if it has not been saved or stands in a
template. The members of every series are numbered again. -/
theorem restore_complete (numbered : tree.root.Numbered) (savedNumbered : saved.root.Numbered)
    (sameName : saved.root.facts.name = tree.root.facts.name) :
    ∃ restored, tree.restore saved = .ok restored ∧ restored.root.Numbered ∧
      (∀ place node receiver, place.IsLive → saved.find? place = some node →
        tree.receiver? place = some receiver →
        ∃ result, restored.find? place = some result ∧ node.Gathers receiver result) ∧
      ∀ place node, tree.find? place = some node →
        ∃ result, restored.find? place = some result ∧ result.facts.type = node.facts.type ∧
          ((place.IsLive → saved.find? place = none) → result = node) := by
  refine ⟨⟨saved.root.restore tree.root⟩, by rw [restore, if_pos sameName], ?_⟩
  obtain ⟨restoredNumbered, step⟩ := Node.restore_numbered saved.root tree.root
  rw [Node.step, Node.step, Step.mk.injEq] at step
  have sameSteps (place : Reference) :
      steps? ⟨saved.root.restore tree.root⟩ place = tree.steps? place :=
    steps?_congr step.1 place
  have gathered : ∀ place node receiver, place.IsLive → saved.find? place = some node →
      tree.receiver? place = some receiver →
      ∃ result, find? ⟨saved.root.restore tree.root⟩ place = some result ∧
        node.Gathers receiver result := by
    intro place node receiver live found received
    obtain ⟨steps, there, reached⟩ := Option.bind_eq_some_iff.mp found
    rw [steps?_congr sameName] at there
    rw [receiver?, there, Option.bind_some] at received
    have indexed := indexed_of_steps? live there
    have receiverNumbered := numbered.receiver received
    refine ⟨node.restore receiver, ?_, Node.restore_gathers ?_ receiverNumbered⟩
    · rw [find?, sameSteps, there, Option.bind_some,
        Node.descendant?_restore indexed savedNumbered numbered reached, received]
      rfl
    · exact find?_hereditary (fun _ => Node.Numbered.child) savedNumbered found
  refine ⟨restoredNumbered numbered, gathered, fun place node found => ?_⟩
  obtain ⟨steps, there, reached⟩ := Option.bind_eq_some_iff.mp found
  -- What is saved there is restored onto the node itself, which keeps its type.
  by_cases unsaved : place.IsLive → saved.find? place = none
  · refine ⟨node, ?_, rfl, fun _ => rfl⟩
    rw [find?, sameSteps, there, Option.bind_some]
    refine Node.descendant?_restore_unsaved savedNumbered numbered reached fun indexed => ?_
    have missing := unsaved (isLive_of_steps? there indexed)
    rwa [find?, steps?_congr sameName, there] at missing
  · obtain ⟨live, isSaved⟩ := Classical.not_imp.mp unsaved
    obtain ⟨savedNode, savedThere⟩ := Option.ne_none_iff_exists'.mp isSaved
    have received : tree.receiver? place = some node := by
      rw [receiver?, there, Option.bind_some]
      exact Node.receiver?_of_descendant? reached
    obtain ⟨result, here, gathers⟩ := gathered place savedNode node live savedThere received
    exact ⟨result, here, gathers.type, fun missing => absurd missing unsaved⟩

end AnswerTree

namespace Order

def packed : Definition where
  id := none
  title := "shipment"
  skeleton :=
    let parcel (weight : String) : Skeleton :=
      { Skeleton.ofName "parcel" with type := .int, value := some weight }
    let box (weights : List String) : Skeleton :=
      { Skeleton.ofName "box" with children := weights.map parcel }
    { Skeleton.ofName "data" with children := [box ["2", "3"], box ["5"]] }
  binds := []

end Order

/-- The second parcel of the first box is restored, though the form had no box. -/
theorem shipment_restore_complete : ∃ tree saved restored result,
    Order.shipment.tree .standard = .ok tree ∧ Order.packed.tree .standard = .ok saved ∧
    tree.restore saved = .ok restored ∧ restored.root.Numbered ∧
    restored.find? (((Reference.root "data").child "box" (.index 0)).child "parcel" (.index 1)) =
      some result ∧
    result.facts.answer = some (.int 3) := by
  have ready : (Order.shipment.tree .standard).toOption.any (fun tree =>
      (Order.packed.tree .standard).toOption.any fun saved =>
        decide (saved.root.facts.name = tree.root.facts.name) &&
          ((saved.find? (((Reference.root "data").child "box" (.index 0)).child "parcel"
            (.index 1))).any fun node => decide (node.facts.answer = some (.int 3))) &&
          (tree.receiver? (((Reference.root "data").child "box" (.index 0)).child "parcel"
            (.index 1))).isSome) = true := by
    decide +kernel
  obtain ⟨tree, described, ready⟩ := exists_ok_of_any ready
  obtain ⟨saved, packed, ready⟩ := exists_ok_of_any ready
  simp only [Bool.and_eq_true, decide_eq_true_eq, Option.any_eq_true, Option.isSome_iff_exists]
    at ready
  obtain ⟨⟨sameName, node, found, answer⟩, receiver, received⟩ := ready
  obtain ⟨restored, done, numbered, gathered, -⟩ :=
    AnswerTree.restore_complete (Definition.tree_numbered described) (Definition.tree_numbered packed)
      sameName
  have live : (((Reference.root "data").child "box" (.index 0)).child "parcel" (.index 1)).IsLive := by
    refine ⟨rfl, ?_⟩
    simp [Reference.child, Reference.root, Reference.absolute]
  obtain ⟨result, there, gathers⟩ := gathered _ _ _ live found received
  refine ⟨tree, saved, restored, result, described, packed, done, numbered, there, ?_⟩
  rw [gathers.answer, answer, Option.some_or]

end ReactiveForm
