import ReactiveForm.Proofs.Agreement

/-! What a rule that comes to other results can disturb. Two engines fill in a tree,
and they evaluate all expressions alike but those of some rules. Whatever these come to,
the two trees agree but at the targets of these rules and of those that they lead to,
and below the targets. -/

namespace ReactiveForm

/-! Two engines. -/

variable {margin : Margin} {place : Reference}

def Margin.Admits (margin : Margin) (effect : Effect) (place : Reference) : Prop :=
  if effect = .relevant then margin.veiled place else margin.loose place

namespace Effect

variable (settings : Settings) (outcome : Except EvaluationError Value) (node : Node)

theorem making_calculate_eq : Effect.making settings .calculate outcome node =
    node.withFacts fun facts => { facts with
      answer := outcome.toOption.elim facts.answer (answerAfter facts.type facts.answer) } := by
  cases node
  cases outcome <;> rfl

theorem making_required_eq : Effect.making settings .required outcome node =
    node.withFacts fun facts => { facts with
      required := outcome.toOption.elim facts.required Value.truth } := by
  cases node
  cases outcome <;> rfl

theorem making_relevant_eq : Effect.making settings .relevant outcome node =
    ((node.withFacts fun facts => { facts with
        relevant := outcome.toOption.elim facts.relevant Value.truth }).hear
      (outcome.toOption.map fun _ => node.facts.underRelevant)).clearAnswersIf
        (outcome.toOption.any fun result =>
          node.facts.relevant && !result.truth && settings.hiddenAnswers = .clear) := by
  cases node
  cases outcome <;> rfl

theorem making_setValue_eq (occasion : Occasion) :
    Effect.making settings (.setValue occasion) outcome node =
      Effect.making settings .calculate outcome node := by
  cases outcome <;> rfl

end Effect

namespace Node.Agrees

variable {node other : Node} {outcome another : Except EvaluationError Value}

theorem setAnswer (agrees : node.Agrees margin place other) (settings : Settings)
    (same : ¬ margin.loose place → outcome = another) :
    (Effect.making settings .calculate outcome node).Agrees margin place
      (Effect.making settings .calculate another other) := by
  have here := agrees.facts
  rw [Effect.making_calculate_eq, Effect.making_calculate_eq]
  refine agrees.withFacts { here with answer := fun tight => ?_ }
  simp only [same tight, here.type, here.answer tight]

theorem setRequired (agrees : node.Agrees margin place other) (settings : Settings)
    (same : ¬ margin.loose place → outcome = another) :
    (Effect.making settings .required outcome node).Agrees margin place
      (Effect.making settings .required another other) := by
  have here := agrees.facts
  rw [Effect.making_required_eq, Effect.making_required_eq]
  refine agrees.withFacts { here with required := fun tight => ?_ }
  simp only [same tight, here.required tight]

theorem setRelevance (agrees : node.Agrees margin place other) (settings : Settings)
    (same : ¬ margin.veiled place → outcome = another) :
    (Effect.making settings .relevant outcome node).Agrees margin place
      (Effect.making settings .relevant another other) := by
  have here := agrees.facts
  rw [Effect.making_relevant_eq, Effect.making_relevant_eq]
  refine ((agrees.withFacts { here with relevant := fun shown => ?_ }).hear
    fun shown => ?_).clearAnswersIf fun shown => ?_
  · simp only [same shown, here.relevant shown]
  · simp only [same shown, here.underRelevant shown]
  · simp only [same shown, here.relevant shown]

theorem setValidity (agrees : node.Agrees margin place other) (settings : Settings)
    (message : Option String) (same : ¬ margin.loose place → outcome = another) :
    (Effect.making settings (.constraint message) outcome node).Agrees margin place
      (Effect.making settings (.constraint message) another other) := by
  have here := agrees.facts
  simp only [Effect.making]
  refine agrees.withFacts { here with validity := fun tight => ?_ }
  rw [same tight, here.answer tight]

theorem making (agrees : node.Agrees margin place other) (settings : Settings) (effect : Effect)
    {outcome another : Except EvaluationError Value}
    (same : ¬ margin.Admits effect place → outcome = another) :
    (effect.making settings outcome node).Agrees margin place
      (effect.making settings another other) := by
  cases effect with
  | calculate => exact agrees.setAnswer settings same
  | setValue occasion =>
      rw [Effect.making_setValue_eq, Effect.making_setValue_eq]
      exact agrees.setAnswer settings same
  | relevant => exact agrees.setRelevance settings same
  | required => exact agrees.setRequired settings same
  | constraint message => exact agrees.setValidity settings message same

end Node.Agrees

/-! Two engines. -/

/-- Two engines with the same rules. At a target of a rule, in trees that agree but for
a margin, they come to the same, if not all that the rule does there lies within the
margin. -/
structure Engine.Concurs (margin : Margin) (engine other : Engine) : Prop where
  rulebook : other.rulebook = engine.rulebook
  dependencies : other.dependencies = engine.dependencies
  settings : other.settings = engine.settings
  bound : ∀ {number : Nat} {rule : Rule}, engine.rulebook.rule? number = some rule → rule.IsBound
  outcomes : ∀ {number : Nat} {rule : Rule} {target : Reference} {left right : AnswerTree},
    engine.rulebook.rule? number = some rule → target.IsLive →
    target.genericize = rule.target → left.Agrees margin right →
    ¬ margin.Admits rule.effect target →
    engine.evaluator left rule.expression target = other.evaluator right rule.expression target

namespace Engine

theorem outside_of_mem_targets {tree : AnswerTree} {rule : Rule} (bound : rule.IsBound)
    {found : List Reference} (located : targets tree rule [] = .ok found) :
    ∀ target ∈ found, target.entersTemplate = false := by
  have expanded : tree.expand rule.target none = .ok found := located
  intro target member
  rcases AnswerTree.denotes_of_mem_expand bound.target.absolute expanded member with ⟨-, denotes⟩
  have live := AnswerTree.Avoids.not_template_of_denotes bound.target.unbound denotes
  simpa [Reference.entersTemplate] using live

namespace Concurs

variable {engine other : Engine} {number : Nat} {rule : Rule}

theorem fireAt (concurs : Concurs margin engine other)
    (entered : engine.rulebook.rule? number = some rule) {target : Reference}
    (isTarget : target.genericize = rule.target) (outside : target.entersTemplate = false)
    {left right : Pass × List Touch} (agrees : left.1.tree.Agrees margin right.1.tree) :
    (engine.fireAt number rule left target).1.tree.Agrees margin
      (other.fireAt number rule right target).1.tree := by
  rw [tree_fireAt, tree_fireAt, concurs.settings]
  refine agrees.change (Effect.making_keeps _ _ _) fun isPlace _ _ here => ?_
  refine here.making engine.settings rule.effect ?_
  exact concurs.outcomes entered (isPlace.isLive outside) isTarget agrees

theorem foldl_fireAt (concurs : Concurs margin engine other)
    (entered : engine.rulebook.rule? number = some rule) {found : List Reference}
    (belongs : ∀ target ∈ found, target.genericize = rule.target)
    (outside : ∀ target ∈ found, target.entersTemplate = false)
    {left right : Pass × List Touch} (agrees : left.1.tree.Agrees margin right.1.tree) :
    (found.foldl (engine.fireAt number rule) left).1.tree.Agrees margin
      (found.foldl (other.fireAt number rule) right).1.tree := by
  induction found generalizing left right with
  | nil => exact agrees
  | cons target found induction =>
      rcases List.forall_mem_cons.mp belongs with ⟨isTarget, belongs⟩
      rcases List.forall_mem_cons.mp outside with ⟨isOutside, outside⟩
      exact induction belongs outside (concurs.fireAt entered isTarget isOutside agrees)

theorem fire (concurs : Concurs margin engine other)
    (entered : engine.rulebook.rule? number = some rule) {left right : Pass}
    (agrees : left.tree.Agrees margin right.tree) :
    (engine.fire number rule [] left).1.tree.Agrees margin
      (other.fire number rule [] right).1.tree := by
  have same : targets left.tree rule [] = targets right.tree rule [] :=
    targets_sameShape agrees.sameShape
  have bound := concurs.bound entered
  rw [Engine.fire, Engine.fire]
  dsimp only [Pass.noteFired]
  rw [← same]
  cases located : targets left.tree rule [] with
  | error _ => exact agrees
  | ok found =>
      exact concurs.foldl_fireAt entered (genericize_of_mem_targets bound located)
        (outside_of_mem_targets bound located) agrees

theorem foldl_fireInitially (concurs : Concurs margin engine other) (numbers : List Nat)
    {left right : Pass} (agrees : left.tree.Agrees margin right.tree) :
    (numbers.foldl engine.fireInitially left).tree.Agrees margin
      (numbers.foldl other.fireInitially right).tree := by
  induction numbers generalizing left right with
  | nil => exact agrees
  | cons number numbers induction =>
      apply induction
      rw [fireInitially, fireInitially, concurs.rulebook]
      cases entered : engine.rulebook.rule? number with
      | none => exact agrees
      | some rule =>
          dsimp only
          split
          · exact agrees
          · exact concurs.fire entered agrees

theorem initial (concurs : Concurs margin engine other) (tree : AnswerTree) :
    (engine.initial tree).tree.Agrees margin (other.initial tree).tree := by
  rw [Engine.initial, Engine.initial, concurs.dependencies]
  exact concurs.foldl_fireInitially _ (tree.agrees_refl margin)

end Concurs

end Engine

/-! What a rule leads to. -/

def Rule.StandsOver (rule : Rule) (place : Reference) : Prop :=
  ∃ target : Reference, target.IsLive ∧ target.genericize = rule.target ∧
    target.steps <+: place.steps

namespace Rulebook

variable {book : Rulebook} {among : Nat → Prop} {number : Nat} {rule : Rule} {target : Reference}

/-- Where it shows that some rules come to something else: at their targets, and all the
way down from where they relate to relevance. -/
def disturbance (book : Rulebook) (among : Nat → Prop) : Margin where
  loose place := ∃ number rule, among number ∧ book.rule? number = some rule ∧
    (rule.effect = .relevant ∧ rule.StandsOver place ∨
      place.IsLive ∧ place.genericize = rule.target)
  veiled place := ∃ number rule, among number ∧ book.rule? number = some rule ∧
    rule.effect = .relevant ∧ rule.StandsOver place
  loose_of_veiled := fun ⟨number, rule, member, entered, hides⟩ =>
    ⟨number, rule, member, entered, .inl hides⟩
  veiled_child := fun _ _ ⟨number, rule, member, entered, hides, target, live, isTarget, below⟩ =>
    ⟨number, rule, member, entered, hides, target, live, isTarget,
      below.trans (List.prefix_append _ _)⟩

theorem disturbance_admits (member : among number) (entered : book.rule? number = some rule)
    (live : target.IsLive) (isTarget : target.genericize = rule.target) :
    (book.disturbance among).Admits rule.effect target := by
  rw [Margin.Admits]
  split
  next hides =>
    exact ⟨number, rule, member, entered, hides, target, live, isTarget, List.prefix_refl _⟩
  next => exact ⟨number, rule, member, entered, .inr ⟨live, isTarget⟩⟩

theorem exists_of_loose (loose : (book.disturbance among).loose place) :
    ∃ number rule, among number ∧ book.rule? number = some rule ∧ rule.StandsOver place := by
  rcases loose with ⟨number, rule, member, entered, ⟨-, stands⟩ | ⟨live, isTarget⟩⟩
  · exact ⟨number, rule, member, entered, stands⟩
  · exact ⟨number, rule, member, entered, place, live, isTarget, List.prefix_refl _⟩

theorem evaluate_eq_of_agrees
    (bound : ∀ {number rule}, book.rule? number = some rule → rule.IsBound)
    (closed : ∀ {number next}, among number → book.Feeds number next → among next)
    (still : ¬ among number) (entered : book.rule? number = some rule)
    (noAction : ∀ occasion, rule.effect ≠ .setValue occasion)
    (isTarget : target.genericize = rule.target) {left right : AnswerTree}
    (agrees : left.Agrees (book.disturbance among) right) (now : DateTime) :
    Expression.evaluate now left target rule.expression =
      Expression.evaluate now right target rule.expression := by
  apply Expression.evaluate_sameShape agrees.sameShape
  intro read reads
  apply agrees.answer?_eq
  rintro ⟨source, moved, member, isSource, cause⟩
  have absolute : read.origin = .absolute := by
    rcases reads.exists_sees with ⟨look, -, sees⟩
    exact sees.origin
  have triggered := (bound entered).isTriggeredBy_of_reads noAction isTarget reads
  have feeds : ∃ trigger ∈ rule.triggers, moved.feeds trigger = true := by
    rcases cause with ⟨hides, above, -, isAbove, below⟩ | ⟨-, isRead⟩
    · exact (bound entered).feeds_of_changes isAbove (bound isSource).target.absolute absolute
        (.inr ⟨hides, below⟩) triggered
    · exact (bound entered).feeds_of_isTriggeredBy isRead triggered
  exact still (closed member
    ⟨moved, rule, isSource, entered, feeds, fun same => absurd (same ▸ member) still⟩)

end Rulebook

/-- The node at a place, or one above it, is a target of a rule or of one that the rule
leads to. -/
def Dependencies.Disturbs (dependencies : Dependencies) (book : Rulebook) (number : Nat)
    (place : Reference) : Prop :=
  ∃ other rule,
    Relation.ReflTransGen (fun first next => next ∈ dependencies.successorsOf first) number other ∧
      book.rule? other = some rule ∧ rule.StandsOver place

/-- A rule that fails, or that comes to anything else, does not disturb what it does not
lead to. Of two evaluators, one evaluates expressions as they should be, and the other
does the same with the expressions of all rules but one; no rule is an action. Filled in
with either of them, any tree comes to the same nodes. All of these that are not at or
below a target of the rule, or of a rule that it leads to, hold the same in the end:
their answers, their relevance and that of what is above them, what is required, and
what has become of their constraints. -/
theorem Rulebook.initial_undisturbed {book : Rulebook} (made : ∀ rule ∈ book.rules, rule.IsMade)
    (noAction : ∀ rule ∈ book.rules, ∀ occasion, rule.effect ≠ .setValue occasion)
    {dependencies : Dependencies} (ordered : Dependencies.ofRulebook book = .ok dependencies)
    (settings : Settings) (now : DateTime) {number : Nat} {evaluator : Evaluator}
    (alike : ∀ other rule, book.rule? other = some rule → other ≠ number → ∀ tree context,
      evaluator tree rule.expression context =
        Expression.evaluator now tree rule.expression context) (tree : AnswerTree) :
    let pass := Engine.initial ⟨book, dependencies, settings, Expression.evaluator now⟩ tree
    let again := Engine.initial ⟨book, dependencies, settings, evaluator⟩ tree
    List.Forall₂ (fun left right => left.1 = right.1 ∧
        (¬ dependencies.Disturbs book number left.1 → left.2 = right.2))
      pass.tree.entries again.tree.entries := by
  have orders := Dependencies.ofRulebook_orders ordered
  have bound : ∀ {number rule}, book.rule? number = some rule → rule.IsBound :=
    fun entered => (made _ (List.mem_of_getElem? entered)).isBound
  let among := Relation.ReflTransGen
    (fun first next => next ∈ dependencies.successorsOf first) number
  have closed : ∀ {first next}, among first → book.Feeds first next → among next :=
    fun member feeds => member.tail (orders.mem_successorsOf.mpr feeds)
  have concurs : Engine.Concurs (book.disturbance among)
      ⟨book, dependencies, settings, Expression.evaluator now⟩
      ⟨book, dependencies, settings, evaluator⟩ := by
    refine ⟨rfl, rfl, rfl, bound, fun {other rule target left right} entered live isTarget agrees
      firm => ?_⟩
    have still : ¬ among other := fun member =>
      firm (Rulebook.disturbance_admits member entered live isTarget)
    have apart : other ≠ number := fun same => still (same ▸ .refl)
    refine Eq.trans ?_ (alike other rule entered apart right target).symm
    exact evaluate_eq_of_agrees bound closed still entered
      (noAction rule (List.mem_of_getElem? entered)) isTarget agrees now
  intro pass again
  refine (concurs.initial tree).entries.imp fun left right ⟨same, held⟩ => ⟨same, fun free => ?_⟩
  refine held.eq_of_tight fun loose => free ?_
  rcases exists_of_loose loose with ⟨other, rule, member, entered, stands⟩
  exact ⟨other, rule, member, entered, stands⟩

namespace Order

def dated : Definition where
  id := none
  title := "dated"
  skeleton :=
    let number (name : String) (value : Option String) : Skeleton :=
      { Skeleton.ofName name with type := .int, value }
    { Skeleton.ofName "data" with
      children := [{ Skeleton.ofName "day" with type := .date }, number "discount" (some "5"),
        number "paid" (some "30"), number "due" none] }
  binds := [
    { Bind.ofTarget (every ["day"]) with calculate := some .today },
    { Bind.ofTarget (every ["discount"]) with relevant := some (.answer (every ["day"])) },
    { Bind.ofTarget (every ["due"]) with
      calculate := some (.binary .sub (.literal (.int 40)) (.answer (every ["paid"]))) }]

def stopped : Evaluator
  | _, .today, _ => .error (.failed "no day")
  | tree, expression, context => Expression.evaluator .startOf2020 tree expression context

theorem stopped_eq {expression : Expression} (timeless : (expression matches .today) = false)
    (tree : AnswerTree) (context : Reference) :
    stopped tree expression context =
      Expression.evaluator .startOf2020 tree expression context := by
  cases expression with
  | today => cases timeless
  | _ => rfl

end Order

/-- Without a clock there is no day, and the discount is hidden and dropped. What is due
is the same. -/
theorem dated_initial_undisturbed : ∃ form dependencies,
    Order.dated.form .standard ⟨.clear, true⟩ .startOf2020 none = .ok form ∧
    let book := form.engine.rulebook
    Dependencies.ofRulebook book = .ok dependencies ∧ dependencies.successorsOf 0 = [1] ∧
    let pass := Engine.initial
      ⟨book, dependencies, ⟨.clear, true⟩, Expression.evaluator .startOf2020⟩ form.tree
    let again := Engine.initial ⟨book, dependencies, ⟨.clear, true⟩, Order.stopped⟩ form.tree
    pass.tree.answer? (Order.ofOrder "discount") = some (.int 5) ∧
    again.tree.answer? (Order.ofOrder "discount") = none ∧
    again.tree.answer? (Order.ofOrder "due") = some (.int 10) ∧
    List.Forall₂ (fun left right => left.1 = right.1 ∧
        (¬ dependencies.Disturbs book 0 left.1 → left.2 = right.2))
      pass.tree.entries again.tree.entries := by
  have ready : (Order.dated.form .standard ⟨.clear, true⟩ .startOf2020 none).toOption.any
      (fun form =>
        let book := form.engine.rulebook
        decide (∀ rule ∈ book.rules, rule.effect.isKept = true) &&
        book.rules.zipIdx.all (fun entry =>
          entry.2 == 0 || !(entry.1.expression matches .today)) &&
        (Dependencies.ofRulebook book).toOption.any fun dependencies =>
          let pass := Engine.initial
            ⟨book, dependencies, ⟨.clear, true⟩, Expression.evaluator .startOf2020⟩ form.tree
          let again := Engine.initial ⟨book, dependencies, ⟨.clear, true⟩, Order.stopped⟩ form.tree
          decide (dependencies.successorsOf 0 = [1] ∧
            pass.tree.answer? (Order.ofOrder "discount") = some (.int 5) ∧
            again.tree.answer? (Order.ofOrder "discount") = none ∧
            again.tree.answer? (Order.ofOrder "due") = some (.int 10))) = true := by
    decide +kernel
  rcases exists_ok_of_any ready with ⟨form, built, ready⟩
  simp only [Bool.and_eq_true] at ready
  rcases ready with ⟨⟨kept, timeless⟩, ordered⟩
  have kept := decide_eq_true_eq.mp kept
  rcases exists_ok_of_any ordered with ⟨dependencies, ordered, filled⟩
  rcases decide_eq_true_eq.mp filled with ⟨next, discount, dropped, due⟩
  refine ⟨form, dependencies, built, ordered, next, discount, dropped, due, ?_⟩
  refine Rulebook.initial_undisturbed (fun rule member => ?_)
    (fun rule member => Effect.ne_setValue_of_isKept (kept rule member)) ordered ⟨.clear, true⟩
    .startOf2020 (fun other rule entered apart tree context => ?_) form.tree
  · rcases List.getElem?_of_mem member with ⟨number, entered⟩
    exact Definition.form_isMade built entered
  · have each := List.all_eq_true.mp timeless (rule, other)
      (List.mem_zipIdx_iff_getElem?.mpr entered)
    exact Order.stopped_eq (by simpa [apart] using each) tree context

end ReactiveForm
