import ReactiveForm.Proofs.ValueEdits

/-! How far the work of a rule can be seen. It leaves the shape of the tree, and
it changes answers only at its target, or from its target on where it hides what
is there. A rule that it has no edge to reads none of these. -/

namespace ReactiveForm

namespace Node

theorem clearAllAnswers_eq_map : ∀ nodes : List Node,
    clearAllAnswers nodes =
      nodes.map fun node => if node.isTemplate then node else node.clearAnswers
  | [] => rfl
  | node :: rest => by rw [clearAllAnswers, clearAllAnswers_eq_map rest, List.map_cons]

@[simp] theorem outline_clearAnswers (node : Node) :
    node.clearAnswers.outline = node.outline := by
  induction node using Node.induct with
  | step facts children induction =>
      rw [clearAnswers, outline_eq_iff, clearAllAnswers_eq_map, List.map_map]
      refine ⟨rfl, rfl, List.map_congr_left fun child member => ?_⟩
      rw [Function.comp_apply]
      split
      · rfl
      · exact induction child member

theorem clearAnswers_keeps (node : Node) :
    node.clearAnswers.facts.name = node.facts.name ∧
      node.clearAnswers.facts.multiplicity = node.facts.multiplicity := by
  cases node
  exact ⟨rfl, rfl⟩

end Node

/-! The reach of one rule's work. -/

def Effect.Changes (effect : Effect) (target place : Reference) : Prop :=
  effect.writesAnswer = true ∧ place = target ∨
    effect = .relevant ∧ target.steps <+: place.steps

/-- The shape of a tree is left, and every answer that the work of a rule cannot
change. -/
structure Contained (effect : Effect) (target : Reference) (before after : AnswerTree) :
    Prop where
  shape : after.SameShape before
  answers : ∀ place, ¬ effect.Changes target place → after.answer? place = before.answer? place

theorem Contained.refl (effect : Effect) (target : Reference) (tree : AnswerTree) :
    Contained effect target tree tree := ⟨.refl tree, fun _ _ => rfl⟩

theorem contained_changeFacts {effect : Effect} (tree : AnswerTree) (target : Reference)
    {change : Facts → Facts} (name : ∀ facts, (change facts).name = facts.name)
    (multiplicity : ∀ facts, (change facts).multiplicity = facts.multiplicity)
    (answer : effect.writesAnswer = true ∨ ∀ facts, (change facts).answer = facts.answer) :
    Contained effect target tree (tree.changeFacts target change) := by
  constructor
  · exact AnswerTree.change_sameShape
      (fun node => Node.outline_withFacts (name node.facts) (multiplicity node.facts)) _ _
  · intro place unchanged
    have isLocal := Node.withFacts_local name multiplicity
    have held : (tree.changeFacts target change).held .answer place = tree.held .answer place := by
      cases answer with
      | inl writes =>
          have elsewhere : place ≠ target := fun here => unchanged (.inl ⟨writes, here⟩)
          exact AnswerTree.held_change_other isLocal .answer elsewhere
      | inr same =>
          refine AnswerTree.held_change_of_field isLocal (fun node => ?_) place
          exact same node.facts
    rw [AnswerTree.answer?_eq_held, AnswerTree.answer?_eq_held, held]

theorem tree_foldl_noteCleared (number : Nat) (cleared : List Reference) (pass : Pass) :
    (cleared.foldl (noteCleared number) pass).tree = pass.tree := by
  induction cleared generalizing pass with
  | nil => rfl
  | cons reference cleared induction =>
      rw [List.foldl_cons, induction]
      rfl

theorem contained_setRelevant (tree : AnswerTree) (target : Reference) (relevant : Bool) :
    Contained .relevant target tree (tree.change target (·.setRelevant relevant)) := by
  constructor
  · exact AnswerTree.change_sameShape (fun node => node.outline_setRelevant relevant) _ _
  · intro place _
    rw [AnswerTree.answer?_eq_held, AnswerTree.answer?_eq_held,
      AnswerTree.held_change_of_field (Node.setRelevant_local relevant)]
    intro node
    cases node
    rfl

theorem contained_clear {before tree : AnswerTree} {target : Reference}
    (contained : Contained .relevant target before tree) :
    Contained .relevant target before (tree.clear target).1 := by
  constructor
  · exact (AnswerTree.change_sameShape Node.outline_clearAnswers _ _).trans contained.shape
  · intro place unchanged
    have outside : ¬ target.steps <+: place.steps := fun inside => unchanged (.inr ⟨rfl, inside⟩)
    have facts : ((tree.clear target).1.find? place).map (·.facts) =
        (tree.find? place).map (·.facts) :=
      AnswerTree.facts_change_other Node.clearAnswers_keeps outside
    have answers := congrArg (·.bind Facts.answer) facts
    simp only [Option.bind_map] at answers
    exact answers.trans (contained.answers place unchanged)

theorem Deed.contained {settings : Settings} {number : Nat} {target : Reference} {node : Node}
    {effect : Effect} {outcome : Except EvaluationError Value} {before after : Pass}
    {more : List Touch} (deed : Deed settings number target node before effect outcome after more) :
    Contained effect target before.tree after.tree := by
  cases deed with
  | idles => exact .refl effect target before.tree
  | writes writes => exact contained_changeFacts _ _ (fun _ => rfl) (fun _ => rfl) (.inl writes)
  | repeats | relates => exact contained_setRelevant before.tree target _
  | hides =>
      rw [Pass.noteUpdate, tree_foldl_noteCleared]
      exact contained_clear (contained_setRelevant before.tree target false)
  | requires | judges =>
      exact contained_changeFacts _ _ (fun _ => rfl) (fun _ => rfl) (.inr fun _ => rfl)

/-! What is not fed does not see. -/

/-- A rule that hides a node feeds whatever is triggered from inside the node. -/
theorem Rule.IsBound.feeds_of_changes {rule other : Rule} (bound : rule.IsBound)
    {target place : Reference} (isTarget : target.genericize = other.target)
    (isAbsolute : other.target.origin = .absolute) (absolute : place.origin = .absolute)
    (changes : other.effect.Changes target place) (triggered : rule.isTriggeredBy place = true) :
    ∃ trigger ∈ rule.triggers, other.feeds trigger = true := by
  rcases changes with ⟨-, rfl⟩ | ⟨hides, below, inside⟩
  · exact bound.feeds_of_isTriggeredBy isTarget triggered
  · refine ⟨place.genericize, bound.isTriggeredBy_iff.mp triggered, ?_⟩
    have targetAbsolute : target.origin = .absolute := by
      rw [← isTarget] at isAbsolute
      exact isAbsolute
    rw [feeds, hides, ← isTarget,
      Reference.covers_of_inside targetAbsolute absolute inside.symm]
    simp

/-- The tree after a rule's work. It stays as it is where nothing could be
done. -/
def Work.tree (work : Work) (before : Pass) : AnswerTree :=
  match work with
  | .ok (after, _) => after.tree
  | .error _ => before.tree

/-- The edges are complete: where one rule has no edge to another, whatever comes
of the first at any of its targets leaves the value of the other's expression at
any of that one's targets, be it a result or an error. -/
theorem Engine.evaluate_apply_of_no_edge (engine : Engine) {number other : Nat}
    {rule another : Rule} (entered : engine.rulebook.rule? number = some rule)
    (enteredToo : engine.rulebook.rule? other = some another) (distinct : number ≠ other)
    (made : rule.IsMade) (madeToo : another.IsMade)
    (unasked : ∀ occasion, another.effect ≠ .setValue occasion)
    (noEdge : other ∉ ((Dependencies.edges engine.rulebook)[number]?).getD [])
    (now : DateTime) (pass : Pass) {target context : Reference}
    (isTarget : target.genericize = rule.target) (isContext : context.genericize = another.target)
    (outcome : Except EvaluationError Value) :
    Expression.evaluate now ((engine.apply pass number rule.effect target outcome).tree pass)
        context another.expression =
      Expression.evaluate now pass.tree context another.expression := by
  cases applied : engine.apply pass number rule.effect target outcome with
  | error _ => rfl
  | ok worked =>
      rcases worked with ⟨after, more⟩
      rcases apply_deed applied with ⟨node, -, deed⟩
      have contained := deed.contained
      apply Expression.evaluate_sameShape contained.shape
      intro place reads
      apply contained.answers
      intro changes
      have absolute : place.origin = .absolute := by
        rcases reads.exists_sees with ⟨look, -, sees⟩
        exact sees.origin
      have triggered := madeToo.isBound.isTriggeredBy_of_reads unasked isContext reads
      have feeds := madeToo.isBound.feeds_of_changes isTarget made.isBound.target.absolute absolute
        changes triggered
      apply noEdge
      rw [Dependencies.mem_edges]
      exact ⟨rule, another, entered, enteredToo, feeds, fun same => absurd same distinct⟩

/-- Hiding a share drops its answer, which the sum of the prices does not
read. -/
theorem order_evaluate_apply : ∃ form rule after,
    Order.definition.form .standard ⟨.clear, true⟩ .startOf2020 none = .ok form ∧
    form.engine.rulebook.rule? 0 = some rule ∧ rule.effect = .calculate ∧
    form.engine.apply (.start form.initial.form.tree) 3 .relevant (Order.ofItem 0 "share")
      (.ok (.boolean false)) = .ok after ∧
    form.initial.form.answer? (Order.ofItem 0 "share") = some (.int 31) ∧
    after.1.tree.answer? (Order.ofItem 0 "share") = none ∧
    Expression.evaluate .startOf2020 after.1.tree (Order.ofOrder "total") rule.expression =
      Expression.evaluate .startOf2020 form.initial.form.tree (Order.ofOrder "total")
        rule.expression := by
  have ready : (Order.definition.form .standard ⟨.clear, true⟩ .startOf2020 none).toOption.any
      (fun form =>
        decide (form.initial.form.answer? (Order.ofItem 0 "share") = some (.int 31) ∧
          0 ∉ ((Dependencies.edges form.engine.rulebook)[3]?).getD []) &&
        (form.engine.rulebook.rule? 3).any (fun rule => decide (rule.effect = .relevant ∧
          (Order.ofItem 0 "share").genericize = rule.target)) &&
        (form.engine.rulebook.rule? 0).any (fun rule => decide (rule.effect = .calculate ∧
          (Order.ofOrder "total").genericize = rule.target)) &&
        (form.engine.apply (.start form.initial.form.tree) 3 .relevant (Order.ofItem 0 "share")
          (.ok (.boolean false))).toOption.any fun after =>
            decide (after.1.tree.answer? (Order.ofItem 0 "share") = none)) = true := by
    decide +kernel
  rcases exists_ok_of_any ready with ⟨form, built, ready⟩
  simp only [Bool.and_eq_true] at ready
  rcases ready with ⟨⟨⟨isFilled, isRule⟩, isAnother⟩, applies⟩
  rcases decide_eq_true_eq.mp isFilled with ⟨held, noEdge⟩
  rcases (Option.any_eq_true _ _).mp isRule with ⟨rule, entered, isRule⟩
  rcases decide_eq_true_eq.mp isRule with ⟨hides, target⟩
  rcases (Option.any_eq_true _ _).mp isAnother with ⟨another, enteredToo, isAnother⟩
  rcases decide_eq_true_eq.mp isAnother with ⟨calculates, context⟩
  rcases exists_ok_of_any applies with ⟨after, applied, isDropped⟩
  have unasked : ∀ occasion, another.effect ≠ .setValue occasion := by
    intro occasion
    rw [calculates]
    exact Effect.noConfusion
  have unseen := Engine.evaluate_apply_of_no_edge form.engine entered enteredToo (by decide)
    (Definition.form_isMade built entered) (Definition.form_isMade built enteredToo) unasked noEdge
    .startOf2020 (.start form.initial.form.tree) target context (.ok (.boolean false))
  rw [hides, applied] at unseen
  exact ⟨form, another, after, built, enteredToo, calculates, applied, held,
    decide_eq_true_eq.mp isDropped, unseen⟩

end ReactiveForm
