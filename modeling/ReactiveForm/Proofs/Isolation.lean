import ReactiveForm.Proofs.Making
import ReactiveForm.Proofs.Upholding

/-! An edit inside one member of a series stays inside, if all rules that it can set
off have their targets there. A rule that fires near a change takes over the members
that the change lies in, and so it stays in the member as well. -/

namespace ReactiveForm

/-! Inside a node. -/

/-- A reference to the node that another one leads to, or to what is below it. -/
structure Reference.IsInside (place outer : Reference) : Prop where
  absolute : place.origin = .absolute
  below : outer.steps <+: place.steps

namespace Reference

theorem IsInside.trans {place middle outer : Reference} (inside : place.IsInside middle)
    (within : middle.IsInside outer) : place.IsInside outer :=
  ⟨inside.absolute, within.below.trans inside.below⟩

theorem prefix_anchorSteps {shared pattern context : List Step}
    (unbound : ∀ step ∈ pattern, step.multiplicity = .unbound)
    (named : shared.map Step.name <+: pattern.map Step.name) (seen : shared <+: context) :
    shared <+: anchorSteps pattern context := by
  induction shared generalizing pattern context with
  | nil => exact List.nil_prefix
  | cons first shared induction =>
      rcases seen with ⟨rest, rfl⟩
      cases pattern with
      | nil => cases List.prefix_nil.mp named
      | cons step pattern =>
          rcases List.cons_prefix_cons.mp named with ⟨here, later⟩
          rcases List.forall_mem_cons.mp unbound with ⟨stepUnbound, restUnbound⟩
          rw [List.cons_append, anchorSteps_cons_of_eq stepUnbound here.symm]
          exact List.cons_prefix_cons.mpr
            ⟨rfl, induction restUnbound later (List.prefix_append shared rest)⟩

theorem prefix_of_denotes {shared steps path : List Step}
    (bound : ∀ step ∈ shared, step.multiplicity.isBound = true) (begins : shared <+: steps)
    (denotes : List.Forall₂ AnswerTree.Denotes steps path) : shared <+: path := by
  induction shared generalizing steps path with
  | nil => exact List.nil_prefix
  | cons first shared induction =>
      rcases begins with ⟨rest, rfl⟩
      rcases List.forall_mem_cons.mp bound with ⟨firstBound, restBound⟩
      cases denotes with
      | cons here below =>
          rcases here with same | ⟨unbound, -⟩
          · exact List.cons_prefix_cons.mpr
              ⟨same.symm, induction restBound (List.prefix_append shared rest) below⟩
          · rw [unbound] at firstBound
            cases firstBound

theorem names_of_stepsOverlap {above below : List Step} (shorter : above.length ≤ below.length)
    (overlap : stepsOverlap (above.map fun step => .unbound step.name) below = true) :
    above.map Step.name <+: below.map Step.name := by
  induction above generalizing below with
  | nil => exact List.nil_prefix
  | cons first above induction =>
      cases below with
      | nil => cases shorter
      | cons second below =>
          rw [List.map_cons, stepsOverlap, Bool.and_eq_true, Step.overlaps_iff] at overlap
          exact List.cons_prefix_cons.mpr
            ⟨overlap.1.1, induction (Nat.le_of_succ_le_succ shorter) overlap.2⟩

theorem names_of_covers {above below : Reference}
    (covers : above.genericize.covers below = true) :
    above.steps.map Step.name <+: below.steps.map Step.name := by
  simp only [Reference.covers, genericize, Bool.and_eq_true, decide_eq_true_eq,
    List.length_map] at covers
  exact names_of_stepsOverlap covers.1.2 covers.2

end Reference

namespace Engine

/-- Near what is inside, a rule with its target inside acts inside. -/
theorem isInside_of_mem_targets {tree : AnswerTree} {rule : Rule} (bound : rule.IsBound)
    {outer : Reference} (isPlace : outer.IsPlace)
    (covers : outer.genericize.covers rule.target = true) {anchors found : List Reference}
    (nonempty : anchors ≠ []) (inside : ∀ anchor ∈ anchors, anchor.IsInside outer)
    (located : targets tree rule anchors = .ok found) :
    ∀ target ∈ found, target.IsInside outer := by
  intro target member
  rcases (mem_targets nonempty located).2 target member with ⟨anchor, inAnchors, near, isNear, inNear⟩
  rw [targetsNear] at isNear
  split at isNear
  · cases isNear
  next seen anchored =>
    rcases AnswerTree.denotes_of_mem_expand (Reference.anchor_origin anchored) isNear inNear with
      ⟨absolute, denotes⟩
    refine ⟨absolute, Reference.prefix_of_denotes isPlace.bound ?_ denotes⟩
    rw [Reference.anchor_of_absolute bound.target.absolute (inside anchor inAnchors).absolute]
      at anchored
    cases anchored
    exact Reference.prefix_anchorSteps bound.target.unbound (Reference.names_of_covers covers)
      (inside anchor inAnchors).below

end Engine

/-! What a rule does is done at its target and below. -/

def Node.StaysPut (change : Node → Node) : Prop :=
  ∀ node, (change node).facts.name = node.facts.name ∧
    (change node).facts.multiplicity = node.facts.multiplicity

namespace Node.StaysPut

variable {first second : Node → Node}

theorem id : StaysPut id := fun _ => ⟨rfl, rfl⟩

theorem comp (stays : StaysPut second) (staysToo : StaysPut first) :
    StaysPut (second ∘ first) := fun node =>
  ⟨(stays (first node)).1.trans (staysToo node).1, (stays (first node)).2.trans (staysToo node).2⟩

theorem changeDescendant (stays : StaysPut first) (path : List Step) :
    StaysPut (changeDescendant first path) := changeDescendant_keeps stays path

end Node.StaysPut

namespace Deed

variable {settings : Settings} {number : Nat} {target : Reference} {node : Node} {effect : Effect}
  {outcome : Except EvaluationError Value} {before after : Pass} {more : List Touch}

theorem isInside (deed : Deed settings number target node before effect outcome after more)
    (found : before.tree.find? target = some node) :
    (∃ news, after.report.updates = before.report.updates ++ news ∧
      ∀ update ∈ news, update.target.IsInside target) ∧
    ∀ touch ∈ more, touch.reference.IsInside target := by
  have here : target.IsInside target :=
    ⟨(AnswerTree.isPlace_of_find? found).absolute, List.prefix_refl _⟩
  cases deed with
  | idles | repeats =>
      exact ⟨⟨[], (List.append_nil _).symm, List.forall_mem_nil _⟩, List.forall_mem_nil _⟩
  | writes | relates | requires | judges =>
      exact ⟨⟨_, rfl, List.forall_mem_singleton.mpr here⟩, List.forall_mem_singleton.mpr here⟩
  | hides =>
      generalize before.tree.change target (·.setRelevant false) = hidden
      have lower : ∀ place ∈ (hidden.clear target).2, place.IsInside target := by
        intro place member
        rcases AnswerTree.inside_of_mem_clear member with ⟨below, steps, -⟩
        rcases Option.isSome_iff_exists.mp (AnswerTree.held_clear_of_mem member).1 with
          ⟨value, answered⟩
        rcases Option.bind_eq_some_iff.mp answered with ⟨node, foundPlace, -⟩
        exact ⟨(AnswerTree.isPlace_of_find? foundPlace).absolute, below, steps.symm⟩
      constructor
      · rw [Pass.noteUpdate, report_foldl_noteCleared]
        refine ⟨_, List.append_assoc _ _ _, List.forall_mem_append.mpr
          ⟨?_, List.forall_mem_singleton.mpr here⟩⟩
        exact List.forall_mem_map.mpr lower
      · exact List.forall_mem_cons.mpr ⟨here, List.forall_mem_map.mpr lower⟩

end Deed

/-! Passes and edits. -/

/-- A pass that has done nothing outside of a node, to the tree as it was. -/
structure Pass.IsConfined (outer : Reference) (base : AnswerTree) (pass : Pass) : Prop where
  tree : ∃ change, Node.StaysPut change ∧ pass.tree = base.change outer change
  updates : ∀ update ∈ pass.report.updates, update.target.IsInside outer

namespace Pass.IsConfined

variable {outer : Reference} {base : AnswerTree} {above : Node}

theorem start (found : base.find? outer = some above) :
    (Pass.start base).IsConfined outer base := by
  have unchanged : base.change outer id = base := AnswerTree.change_of_unchanged found rfl
  exact ⟨⟨id, .id, unchanged.symm⟩, List.forall_mem_nil _⟩

theorem change {before after : Pass} (confined : before.IsConfined outer base)
    (found : base.find? outer = some above) {target : Reference} {node : Node}
    (foundTarget : before.tree.find? target = some node) (inside : target.IsInside outer)
    {change : Node → Node} (stays : Node.StaysPut change)
    (changed : after.tree = before.tree.change target change) {news : List Update}
    (updates : after.report.updates = before.report.updates ++ news)
    (newsInside : ∀ update ∈ news, update.target.IsInside outer) :
    after.IsConfined outer base := by
  constructor
  · rcases confined.tree with ⟨earlier, staysToo, isChanged⟩
    rcases inside.below with ⟨below, steps⟩
    have foundOuter : before.tree.find? outer = some (earlier above) := by
      rw [isChanged, AnswerTree.find?_change_self staysToo, found]
      rfl
    have whole : target = { outer with steps := outer.steps ++ below } := by
      cases target
      rw [Reference.mk.injEq]
      exact ⟨inside.absolute.trans (AnswerTree.isPlace_of_find? found).absolute.symm, steps.symm⟩
    have bound : ∀ step ∈ below, step.multiplicity.isBound = true := by
      intro step member
      apply (AnswerTree.isPlace_of_find? foundTarget).bound
      rw [← steps]
      exact List.mem_append_right _ member
    refine ⟨_, (stays.changeDescendant below).comp staysToo, ?_⟩
    rw [changed, whole, AnswerTree.change_below foundOuter bound, isChanged,
      AnswerTree.change_change staysToo]
  · rw [updates]
    exact List.forall_mem_append.mpr ⟨confined.updates, newsInside⟩

end Pass.IsConfined

namespace Engine

variable {engine : Engine} {outer : Reference} {base : AnswerTree} {above : Node}

theorem IsWired.sustains_isConfined (wired : engine.IsWired)
    (found : base.find? outer = some above) :
    engine.Sustains
      (fun number => ∀ rule, engine.rulebook.rule? number = some rule →
        outer.genericize.covers rule.target = true)
      (·.IsConfined outer base) (·.IsInside outer) fun _ target => target.IsInside outer := by
  refine ⟨fun _ confined => ⟨confined.tree, confined.updates⟩,
    fun _ _ _ confined => ⟨confined.tree, confined.updates⟩,
    fun _ covers entered nonempty inside located => ?_,
    fun confined _ _ inside applied => ?_⟩
  · exact isInside_of_mem_targets (wired.bound entered) (AnswerTree.isPlace_of_find? found)
      (covers _ entered) nonempty inside located
  · rcases apply_deed applied with ⟨node, foundTarget, deed⟩
    rcases deed.isInside foundTarget with ⟨⟨news, updates, newsInside⟩, touched⟩
    exact ⟨confined.change found foundTarget inside (Effect.making_keeps engine.settings _ _)
        (deed.tree_eq foundTarget) updates
        fun update member => (newsInside update member).trans inside,
      fun touch member => (touched touch member).trans inside⟩

end Engine

theorem AnswerTree.exists_above {tree : AnswerTree} {reference outer : Reference} {node : Node}
    (found : tree.find? reference = some node) (absolute : outer.origin = .absolute)
    (nonempty : outer.steps ≠ []) (above : outer.steps <+: reference.steps) :
    ∃ outerNode, tree.find? outer = some outerNode := by
  rcases above with ⟨below, inside⟩
  rcases find?_above found absolute nonempty inside.symm with ⟨outerNode, outerFound, -⟩
  exact ⟨outerNode, outerFound⟩

/-- In every form that a definition makes, over saved answers or not, and after any
requests: an edit of an answer changes nothing outside of a node above, or of the node
itself, if all rules that read the answer, or are led to by one that does, have their
targets inside the pattern of that node. All that is reported is inside, the tree is
the tree from before with a change of the one node, and what other nodes hold is as it
was. -/
theorem Definition.setAnswer_confined {definition : Definition} {constructors : Constructors}
    {settings : Settings} {material : Material} {evaluator : Evaluator}
    {saved : Option AnswerTree} {form : Form}
    (made : definition.material constructors settings = .ok material)
    (built : Form.build material evaluator saved = .ok form) {current : Form}
    (reached : form.Reached current) {reference : Reference} {value : Option Value}
    {outcome : Outcome} (done : current.setAnswer reference value = .ok outcome)
    {outer : Reference} (absolute : outer.origin = .absolute) (nonempty : outer.steps ≠ [])
    (above : outer.steps <+: reference.steps)
    (covers : ∀ number ∈ current.engine.dependencies.affectedBy
      (current.engine.rulebook.triggeredBy reference), ∀ rule,
        current.engine.rulebook.rule? number = some rule →
          outer.genericize.covers rule.target = true) :
    (∀ update ∈ outcome.report.updates, update.target.IsInside outer) ∧
      (∃ change, Node.StaysPut change ∧
        outcome.form.tree = current.tree.change outer change) ∧
      ∀ place : Reference, ¬ place.IsInside outer →
        (outcome.form.tree.find? place).map (·.facts) =
          (current.tree.find? place).map (·.facts) := by
  have wired := reached.isWired (Form.build_isWired (rules_isMade (material_ok made).2.1) built)
  rcases Form.setAnswer_ok done with ⟨pass, set, rfl⟩
  rcases Engine.exists_of_setAnswer set with ⟨-, edited, -, found, -⟩
  rcases AnswerTree.exists_above found absolute nonempty above with ⟨outerNode, foundOuter⟩
  have inside : reference.IsInside outer := ⟨(AnswerTree.isPlace_of_find? found).absolute, above⟩
  have begun := Pass.IsConfined.start foundOuter
  have confined : pass.IsConfined outer current.tree := by
    apply (wired.sustains_isConfined foundOuter).setAnswer set _ begun _ inside
    · rw [Engine.directlyTriggered_answer]
      exact covers
    · intro node answer foundNode _
      have stays : Node.StaysPut (·.withFacts ({ · with answer })) := fun _ => ⟨rfl, rfl⟩
      exact begun.change foundOuter foundNode inside stays rfl rfl
        (List.forall_mem_singleton.mpr inside)
  refine ⟨confined.updates, confined.tree, fun place outside => ?_⟩
  rcases confined.tree with ⟨change, stays, changed⟩
  rw [show (current.after pass).form.tree = pass.tree from rfl, changed]
  by_cases isAbsolute : place.origin = .absolute
  · exact AnswerTree.facts_change_other stays fun below => outside ⟨isAbsolute, below⟩
  · have nowhere (tree : AnswerTree) : tree.find? place = none :=
      AnswerTree.find?_of_not_isPlace fun isPlace => isAbsolute isPlace.absolute
    rw [nowhere, nowhere]

namespace Order

def basket : Definition where
  id := none
  title := "basket"
  skeleton :=
    let number (name : String) (value : Option String) : Skeleton :=
      { Skeleton.ofName name with type := .int, value }
    let item (isTemplate : Bool) : Skeleton :=
      { Skeleton.ofName "item" with
        isTemplate
        children := [number "price" (some "2"), number "amount" none, number "refund" none] }
    { Skeleton.ofName "data" with children := [item true, item false, item false] }
  binds := [
    { Bind.ofTarget (every ["item", "amount"]) with
      calculate := some (.binary .mul (.answer (every ["item", "price"])) (.literal (.int 3))) },
    { Bind.ofTarget (every ["item", "refund"]) with
      relevant := some (.binary .lt (.answer (every ["item", "amount"])) (.literal (.int 10))) }]

def itemAt (number : Nat) : Reference := .absolute [⟨"data", .index 0⟩, ⟨"item", .index number⟩]

end Order

/-- A price leads to an amount, and the amount to the end of a refund: three updates of
one item, and the other item is as it was. -/
theorem basket_setAnswer_confined : ∃ material form outcome,
    Order.basket.material .standard .standard = .ok material ∧
    Form.build material (Expression.evaluator .startOf2020) none = .ok form ∧
    form.initial.form.setAnswer (Order.ofItem 0 "price") (some (.int 5)) = .ok outcome ∧
    outcome.report.updates.length = 3 ∧
    (∀ update ∈ outcome.report.updates, update.target.IsInside (Order.itemAt 0)) ∧
    (outcome.form.tree.find? (Order.ofItem 1 "amount")).map (·.facts) =
      (form.initial.form.tree.find? (Order.ofItem 1 "amount")).map (·.facts) := by
  have ready : (Order.basket.material .standard .standard).toOption.any (fun material =>
      (Form.build material (Expression.evaluator .startOf2020) none).toOption.any fun form =>
        let current := form.initial.form
        decide (∀ number ∈ current.engine.dependencies.affectedBy
            (current.engine.rulebook.triggeredBy (Order.ofItem 0 "price")),
          (current.engine.rulebook.rule? number).all fun rule =>
            (Order.itemAt 0).genericize.covers rule.target) &&
        (current.setAnswer (Order.ofItem 0 "price") (some (.int 5))).toOption.any fun outcome =>
          decide (outcome.report.updates.length = 3)) = true := by
    decide +kernel
  rcases exists_ok_of_any ready with ⟨material, made, ready⟩
  rcases exists_ok_of_any ready with ⟨form, built, ready⟩
  rcases Bool.and_eq_true_iff.mp ready with ⟨covers, ready⟩
  rcases exists_ok_of_any ready with ⟨outcome, done, ready⟩
  have covers := decide_eq_true_eq.mp covers
  have above : (Order.itemAt 0).steps <+: (Order.ofItem 0 "price").steps := ⟨[_], rfl⟩
  rcases Definition.setAnswer_confined made built (.initial form) done rfl (List.cons_ne_nil _ _)
      above (fun number affected rule entered => by simpa [entered] using covers number affected)
    with ⟨updates, -, outside⟩
  refine ⟨material, form, outcome, made, built, done, decide_eq_true_eq.mp ready, updates, ?_⟩
  exact outside _ fun inside => absurd inside.below (by decide)

end ReactiveForm
