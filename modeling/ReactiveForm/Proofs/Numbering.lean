import ReactiveForm.Form.Basic
import ReactiveForm.Proofs.Census

/-! The members of every series are numbered in document order: in the tree that
a definition describes, and in one that saved answers are restored onto. -/

namespace ReactiveForm

namespace Node

theorem isMember_of_step {left right : Node} (same : left.step = right.step) (name : String) :
    left.isMember name = right.isMember name := by
  rcases Step.mk.injEq .. ▸ same with ⟨names, multiplicities⟩
  rw [isMember, isMember, isTemplate, isTemplate, names, multiplicities]

theorem multiplicities_of_steps {name : String} {lefts rights : List Node}
    (same : lefts.map step = rights.map step) :
    (lefts.filter (isMember name)).map (·.facts.multiplicity) =
      (rights.filter (isMember name)).map (·.facts.multiplicity) := by
  induction lefts generalizing rights with
  | nil =>
      cases rights with
      | nil => rfl
      | cons _ _ => cases same
  | cons left lefts induction =>
      cases rights with
      | nil => cases same
      | cons right rights =>
          rcases List.cons.inj same with ⟨first, rest⟩
          have here := isMember_of_step first name
          have multiplicity : left.facts.multiplicity = right.facts.multiplicity :=
            congrArg Step.multiplicity first
          rw [List.filter_cons, List.filter_cons, here]
          split
          · rw [List.map_cons, List.map_cons, induction rest, multiplicity]
          · exact induction rest

theorem Counted.congr {name : String} {lefts rights : List Node} (counted : Counted name lefts)
    (same : lefts.map step = rights.map step) : Counted name rights := by
  rwa [Counted, ← multiplicities_of_steps same]

theorem Counted.length {name : String} {children : List Node} (counted : Counted name children) :
    (children.filter (isMember name)).map (·.facts.multiplicity) =
      (List.range (children.filter (isMember name)).length).map .index := by
  rcases counted with ⟨count, multiplicities⟩
  have lengths := congrArg List.length multiplicities
  rw [List.length_map, List.length_map, List.length_range] at lengths
  rw [multiplicities, lengths]

/-! Changes that keep the numbers. -/

namespace Numbered

variable {node : Node}

theorem withFacts (numbered : node.Numbered) (change : Facts → Facts) :
    (node.withFacts change).Numbered := by
  cases numbered with
  | intro counted below => exact .intro counted below

theorem withChildren (numbered : node.Numbered) {children : List Node}
    (same : node.children.map step = children.map step)
    (below : ∀ child ∈ children, child.Numbered) :
    ({ node with children } : Node).Numbered :=
  .intro (fun name => Counted.congr (numbered.counted name) same) below

theorem of_outline {other : Node} (numbered : node.Numbered) (same : other.outline = node.outline) :
    other.Numbered := by
  rw [← numbered_outline, same, numbered_outline]
  exact numbered

end Numbered

theorem resetAll_eq_map (nodes : List Node) : resetAll nodes = nodes.map reset := by
  induction nodes with
  | nil => rfl
  | cons node rest induction => rw [resetAll, induction, List.map_cons]

theorem outline_reset (node : Node) : node.reset.outline = node.outline := by
  induction node using Node.induct with
  | step facts children induction =>
      rw [reset, outline_eq_iff]
      refine ⟨rfl, rfl, ?_⟩
      rw [resetAll_eq_map, List.map_map]
      exact List.map_congr_left induction

@[simp] theorem name_copy (node : Node) (multiplicity : Multiplicity) :
    (node.copy multiplicity).facts.name = node.facts.name := by
  cases node
  rfl

theorem Numbered.copy {node : Node} (numbered : node.Numbered) (multiplicity : Multiplicity) :
    (node.copy multiplicity).Numbered :=
  (numbered.of_outline (outline_reset node)).withFacts _

theorem Counted.append {children : List Node} (counted : ∀ name, Counted name children)
    {last : Node} (next : last.isTemplate = false → last.facts.multiplicity =
      .index (children.filter (isMember last.facts.name)).length) (name : String) :
    Counted name (children ++ [last]) := by
  cases here : last.isMember name with
  | false =>
      rcases counted name with ⟨count, multiplicities⟩
      exact ⟨count, by simp [List.filter_append, here, multiplicities]⟩
  | true =>
      have member : last.facts.name = name ∧ last.isTemplate = false := by
        simpa [isMember] using here
      refine ⟨(children.filter (isMember name)).length + 1, ?_⟩
      rw [List.filter_append, List.map_append, (counted name).length, List.range_succ,
        List.map_append]
      simp [here, next member.2, member.1]

@[simp] theorem facts_inherit (node : Node) (above : Bool) :
    (node.inherit above).facts = { node.facts with underRelevant := above } := by
  cases node
  rfl

theorem Numbered.append {node child : Node} (numbered : node.Numbered)
    (childNumbered : child.Numbered) : (node.append child).Numbered := by
  rw [Node.append]
  refine .intro (Counted.append numbered.counted fun live => ?_) ?_
  · cases template : child.isTemplate with
    | true =>
        rw [if_pos template, isTemplate, facts_inherit] at live
        rw [isTemplate] at template
        rw [template] at live
        cases live
    | false => simp [placed, Node.withFacts, memberCount, members]
  · intro other member
    rcases List.mem_append.mp member with member | single
    · exact numbered.child other member
    · cases List.mem_singleton.mp single
      apply Numbered.of_outline _ (outline_inherit _ _)
      split
      · exact childNumbered
      · exact childNumbered.withFacts _

theorem renumberFrom_counted (name : String) (next : Nat) (children : List Node) :
    ((renumberFrom name next children).filter (isMember name)).map (·.facts.multiplicity) =
      (List.range' next (children.filter (isMember name)).length).map .index := by
  induction children generalizing next with
  | nil => rfl
  | cons child rest induction =>
      cases here : child.isMember name with
      | true =>
          have placedHere : (child.placed (.index next)).isMember name = true := by
            simp [isMember, isTemplate] at here ⊢
            simp [placed, Node.withFacts, here.1]
          rw [renumberFrom, if_pos here, List.filter_cons, if_pos placedHere, List.filter_cons, if_pos here,
            List.map_cons, induction, List.length_cons, List.range'_succ, List.map_cons]
          rfl
      | false => simp [renumberFrom, here, induction]

theorem renumberFrom_other {name other : String} (apart : other ≠ name) (next : Nat)
    (children : List Node) :
    ((renumberFrom name next children).filter (isMember other)).map (·.facts.multiplicity) =
      (children.filter (isMember other)).map (·.facts.multiplicity) := by
  induction children generalizing next with
  | nil => rfl
  | cons child rest induction =>
      rw [renumberFrom]
      split
      next here =>
        have named : child.facts.name = name := by
          simp only [isMember, Bool.and_eq_true, beq_iff_eq] at here
          exact here.1
        have missed : child.isMember other = false := by simp [isMember, named, apart.symm]
        have missedToo : (child.placed (.index next)).isMember other = false := by
          simp [isMember, placed, Node.withFacts, named, apart.symm]
        simp [missed, missedToo, induction]
      next =>
        cases there : child.isMember other <;> simp [there, induction]

theorem forall₂_renumberFrom (name : String) (next : Nat) (children : List Node) :
    List.Forall₂ (fun renumbered child : Node =>
      renumbered = child ∨ ∃ number, renumbered = child.placed (.index number))
      (renumberFrom name next children) children := by
  induction children generalizing next with
  | nil => exact .nil
  | cons child rest induction =>
      rw [renumberFrom]
      split
      · exact .cons (.inr ⟨next, rfl⟩) (induction _)
      · exact .cons (.inl rfl) (induction _)

theorem mem_renumberFrom {name : String} {next : Nat} {children : List Node} {node : Node}
    (member : node ∈ renumberFrom name next children) :
    ∃ child ∈ children, node = child ∨ ∃ number, node = child.placed (.index number) :=
  exists_of_forall₂ (forall₂_renumberFrom name next children) member

theorem renumber_numbered {node : Node} {name : String}
    (others : ∀ other, other ≠ name → Counted other node.children)
    (below : ∀ child ∈ node.children, child.Numbered) : (node.renumber name).Numbered := by
  refine .intro (fun other => ?_) fun child member => ?_
  · by_cases same : other = name
    · subst same
      exact ⟨_, by rw [renumberFrom_counted, List.range_eq_range']⟩
    · rw [Counted, renumberFrom_other same]
      exact others other same
  · rcases mem_renumberFrom member with ⟨original, inChildren, rfl | ⟨number, rfl⟩⟩
    · exact below child inChildren
    · exact (below original inChildren).withFacts _

theorem Numbered.changeChild {node : Node} (numbered : node.Numbered) {name : String}
    {multiplicity : Multiplicity} {change : Node → Node}
    (keeps : ∀ child, (change child).step = child.step)
    (changed : ∀ child, child.Numbered → (change child).Numbered) :
    (node.changeChild name multiplicity change).Numbered := by
  have below : ∀ children : List Node, (∀ child ∈ children, child.Numbered) →
      ∀ child ∈ changeFirst (isAt name multiplicity) change children, child.Numbered := by
    intro children
    induction children with
    | nil => exact fun each => each
    | cons head tail induction =>
        intro each
        rcases List.forall_mem_cons.mp each with ⟨first, rest⟩
        rw [changeFirst]
        split
        · exact List.forall_mem_cons.mpr ⟨changed head first, rest⟩
        · exact List.forall_mem_cons.mpr ⟨first, induction rest⟩
  exact numbered.withChildren (map_changeFirst keeps node.children).symm
    (below node.children numbered.child)

/-! Restoring. -/

theorem step_withFacts {node : Node} {change : Facts → Facts}
    (name : ∀ facts, (change facts).name = facts.name)
    (multiplicity : ∀ facts, (change facts).multiplicity = facts.multiplicity) :
    (node.withFacts change).step = node.step := by
  rw [step, step]
  exact Step.mk.injEq .. ▸ ⟨name node.facts, multiplicity node.facts⟩

theorem mem_of_child? {node child : Node} {name : String} {multiplicity : Multiplicity}
    (found : node.child? name multiplicity = some child) : child ∈ node.children :=
  List.mem_of_find?_eq_some found

theorem Numbered.provide {node : Node} (numbered : node.Numbered) (name : String)
    (multiplicity : Multiplicity) : (node.provide name multiplicity).Numbered := by
  rw [Node.provide]
  split
  · exact numbered
  · split
    · exact numbered
    next template found =>
      have copied := (numbered.child template (mem_of_child? found)).copy multiplicity
      have appended := numbered.append copied
      exact renumber_numbered (fun other _ => appended.counted other) appended.child

theorem facts_provide (node : Node) (name : String) (multiplicity : Multiplicity) :
    (node.provide name multiplicity).facts = node.facts := by
  rw [Node.provide]
  split
  · rfl
  · split <;> rfl

/-- A way in which a node becomes another one, such that restoring keeps to it: taking over what
was saved does so, and so do providing a member and a change of a child that does so itself. -/
structure Restores (becomes : Node → Node → Prop) : Prop where
  refl : ∀ node, becomes node node
  trans : ∀ {first second third : Node}, becomes first second → becomes second third →
    becomes first third
  takeOver : ∀ (node : Node) (saved : Facts), becomes node (node.withFacts (takeOver saved))
  provide : ∀ (node : Node) (name : String) {multiplicity : Multiplicity},
    multiplicity ≠ .template → becomes node (node.provide name multiplicity)
  changeChild : ∀ (node : Node) (step : Step) {change : Node → Node},
    (∀ child, becomes child (change child)) →
    becomes node (node.changeChild step.name step.multiplicity change)

mutual

theorem Restores.restore {becomes : Node → Node → Prop} (restores : Restores becomes) :
    ∀ saved target : Node, becomes target (saved.restore target)
  | ⟨facts, children⟩, target =>
      restores.trans (restores.takeOver target facts) (restores.restoreChildren children _)

theorem Restores.restoreChildren {becomes : Node → Node → Prop} (restores : Restores becomes) :
    ∀ (saved : List Node) (target : Node), becomes target (restoreChildren saved target)
  | [], target => restores.refl target
  | child :: rest, target => by
      rw [Node.restoreChildren]
      refine restores.trans ?_ (restores.restoreChildren rest _)
      split
      · exact restores.refl target
      next live =>
        have live : child.facts.multiplicity ≠ .template := by simpa [isTemplate] using live
        have provided := restores.provide target child.facts.name live
        exact restores.trans provided (restores.changeChild _ child.step (restores.restore child))

end

theorem Restores.root {becomes : Node → Node → Prop} (restores : Restores becomes)
    {tree saved restored : AnswerTree} (done : tree.restore saved = .ok restored) :
    becomes tree.root restored.root := by
  rw [AnswerTree.restore] at done
  split at done
  · cases done
    exact restores.restore saved.root tree.root
  · cases done

theorem restores_numbered : Restores fun node other =>
    (node.Numbered → other.Numbered) ∧ other.step = node.step where
  refl _ := ⟨id, rfl⟩
  trans := fun ⟨first, step⟩ ⟨second, stepToo⟩ => ⟨second ∘ first, stepToo.trans step⟩
  takeOver _ _ := ⟨fun numbered => numbered.withFacts _, step_withFacts (fun _ => rfl) fun _ => rfl⟩
  provide node name multiplicity _ := by
    refine ⟨fun numbered => numbered.provide name multiplicity, ?_⟩
    rw [step, step, facts_provide]
  changeChild _ _ _ each :=
    ⟨fun numbered => numbered.changeChild (fun child => (each child).2) fun child => (each child).1,
      rfl⟩

theorem restore_numbered (saved target : Node) :
    (target.Numbered → (saved.restore target).Numbered) ∧ (saved.restore target).step = target.step :=
  restores_numbered.restore saved target

end Node

/-! Definitions. -/

structure Skeleton.Keeps (holds : Node → Prop) : Prop where
  blank : ∀ name multiplicity type answer,
    holds (.leaf { Facts.blank name multiplicity with type, answer })
  attributed : ∀ {node : Node}, holds node → ∀ entry, holds (node.setAttribute entry)
  appended : ∀ {node child : Node}, holds node → holds child → holds (node.append child)

/-- A property of nodes that a description keeps step by step, as it constructs the
answers that nodes begin with. -/
structure Skeleton.Grants (constructors : Constructors) (holds : Node → Prop) : Prop where
  blank : ∀ (name : String) (multiplicity : Multiplicity) {type : ValueType}
    {value : Option String} {answer : Option Value},
    value.mapM (constructors.construct type.tag) = .ok answer →
    holds (.leaf { Facts.blank name multiplicity with type, answer })
  attributed : ∀ {node : Node}, holds node → ∀ entry, holds (node.setAttribute entry)
  appended : ∀ {node child : Node}, holds node → holds child → holds (node.append child)

mutual

theorem Skeleton.node_granted {constructors : Constructors} {holds : Node → Prop}
    (grants : Grants constructors holds) : ∀ (skeleton : Skeleton) {node : Node},
    skeleton.node constructors = .ok node → holds node
  | ⟨name, isTemplate, type, value, attributes, children⟩, node, described => by
      have attributedAll : ∀ (attributes : List Attribute) (node : Node), holds node →
          holds (attributes.foldl Node.setAttribute node) := by
        intro attributes
        induction attributes with
        | nil => exact fun _ begun => begun
        | cons entry attributes induction =>
            exact fun node begun => induction _ (grants.attributed begun entry)
      rw [Skeleton.node] at described
      rcases bind_eq_ok.mp described with ⟨answer, constructed, described⟩
      exact Skeleton.appendNodes_granted grants children
        (attributedAll _ _ (grants.blank _ _ constructed)) described

theorem Skeleton.appendNodes_granted {constructors : Constructors} {holds : Node → Prop}
    (grants : Grants constructors holds) : ∀ (skeletons : List Skeleton) {node result : Node},
    holds node → Skeleton.appendNodes constructors node skeletons = .ok result → holds result
  | [], _, _, begun, described => by
      cases described
      exact begun
  | skeleton :: rest, node, result, begun, described => by
      rw [Skeleton.appendNodes] at described
      rcases bind_eq_ok.mp described with ⟨child, first, described⟩
      have childHolds := Skeleton.node_granted grants skeleton first
      exact Skeleton.appendNodes_granted grants rest (grants.appended begun childHolds) described

end

theorem Skeleton.node_holds {holds : Node → Prop} (keeps : Keeps holds)
    (constructors : Constructors) (skeleton : Skeleton) {node : Node}
    (described : skeleton.node constructors = .ok node) : holds node :=
  skeleton.node_granted
    ⟨fun _ _ _ _ _ _ => keeps.blank _ _ _ _, keeps.attributed, keeps.appended⟩ described

theorem Definition.tree_numbered {definition : Definition} {constructors : Constructors}
    {tree : AnswerTree} (described : definition.tree constructors = .ok tree) :
    tree.root.Numbered := by
  rcases map_eq_ok.mp described with ⟨root, node, rfl⟩
  have keeps : Skeleton.Keeps Node.Numbered := by
    refine ⟨fun _ _ _ _ => ?_, fun numbered _ => numbered.withFacts _, Node.Numbered.append⟩
    exact .intro (fun name => ⟨0, rfl⟩) fun child member => nomatch member
  have numbered := Skeleton.node_holds keeps constructors _ node
  exact numbered.withFacts ({ · with multiplicity := .index 0 })

theorem AnswerTree.restore_numbered {tree saved restored : AnswerTree}
    (numbered : tree.root.Numbered) (done : tree.restore saved = .ok restored) :
    restored.root.Numbered := by
  exact (Node.restores_numbered.root done).1 numbered

end ReactiveForm
