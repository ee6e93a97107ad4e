import ReactiveForm.Proofs.Aggregates

/-! Constraints. A node with an answer shows what its constraint says of it, and
one without is not checked. A constraint is looked at when something that it
reads changes. If it does not read the node itself, it may miss that the node
has got an answer or lost it, but what it does show is never out of date. -/

namespace ReactiveForm

/-! Forms without series. -/

/-- No live node belongs to a series: it is the first of its name. -/
def AnswerTree.IsPlain (tree : AnswerTree) : Prop :=
  ∀ place ∈ tree.references, ∀ step ∈ place.steps, step.multiplicity = .index 0

instance (tree : AnswerTree) : Decidable tree.IsPlain :=
  inferInstanceAs (Decidable (∀ place ∈ tree.references, ∀ step ∈ place.steps,
    step.multiplicity = .index 0))

theorem Reference.nearSteps_of_first {left right : List Step}
    (lefts : ∀ step ∈ left, step.multiplicity = .index 0)
    (rights : ∀ step ∈ right, step.multiplicity = .index 0) : nearSteps left right := by
  induction left generalizing right with
  | nil => exact nearSteps_nil_left right
  | cons first left induction =>
      cases right with
      | nil => exact nearSteps_nil_right (first :: left)
      | cons second right =>
          rcases List.forall_mem_cons.mp lefts with ⟨firstMultiplicity, lefts⟩
          rcases List.forall_mem_cons.mp rights with ⟨secondMultiplicity, rights⟩
          intro sameName
          have same : first = second := by
            cases first
            cases second
            simp_all
          exact ⟨same, induction lefts rights⟩

theorem AnswerTree.IsPlain.isNear {tree : AnswerTree} (plain : tree.IsPlain)
    {left right : Reference} (member : left ∈ tree.references)
    (memberToo : right ∈ tree.references) : left.IsNear right :=
  Reference.nearSteps_of_first (plain left member) (plain right memberToo)

theorem AnswerTree.SameShape.isPlain {tree other : AnswerTree} (shape : other.SameShape tree)
    (plain : tree.IsPlain) : other.IsPlain := by
  rw [AnswerTree.IsPlain, shape.references]
  exact plain

/-! What a constraint says. -/

section Verdict

variable {answer other : Option Value} {message : Option String}
  {outcome : Except EvaluationError Value}

theorem verdict_eq_unchecked_iff :
    verdict answer message outcome = .unchecked ↔ answer = none := by
  cases answer with
  | none => simp [verdict]
  | some value =>
      cases outcome with
      | error error => simp [verdict]
      | ok result => cases truth : result.truth <;> simp [verdict, truth]

theorem verdict_congr (presence : answer = none ↔ other = none) :
    verdict answer message outcome = verdict other message outcome := by
  cases answer <;> cases other <;> simp at presence <;> cases outcome <;> rfl

end Verdict

namespace Engine

variable {engine : Engine} {now : DateTime}

/-- What a node shows is what a constraint says now, if not of the answer there
then of another or of none. A constraint that reads the node speaks of the answer
there. -/
structure Judged (engine : Engine) (tree : AnswerTree) (rule : Rule) (message : Option String)
    (place : Reference) : Prop where
  shown : ∃ node answer, tree.find? place = some node ∧
    node.facts.validity = verdict answer message (engine.evaluator tree rule.expression place)
  current : rule.isTriggeredBy place = true → engine.Current tree rule place

section Judged

variable {tree other : AnswerTree} {number : Nat} {rule : Rule} {message : Option String}
  {place : Reference}

theorem Current.judged (checks : rule.effect = .constraint message)
    (current : engine.Current tree rule place) : engine.Judged tree rule message place := by
  refine ⟨?_, fun _ => current⟩
  cases current with
  | intro node holds =>
      rw [checks] at holds
      exact ⟨node, node.facts.answer, holds⟩

theorem Judged.congr (judged : engine.Judged tree rule message place)
    (checks : rule.effect = .constraint message)
    (type : other.held .type place = tree.held .type place)
    (field : other.held rule.effect.field place = tree.held rule.effect.field place)
    (outcome : engine.evaluator other rule.expression place =
      engine.evaluator tree rule.expression place)
    (answer : rule.isTriggeredBy place = true →
      other.held .answer place = tree.held .answer place) :
    engine.Judged other rule message place := by
  constructor
  · rcases judged.shown with ⟨node, spoken, found, shown⟩
    rw [checks, AnswerTree.held, AnswerTree.held, found] at field
    rcases Option.map_eq_some_iff.mp field with ⟨node', found', validity⟩
    have same : node'.facts.validity = node.facts.validity := validity
    exact ⟨node', spoken, found', by rw [same, shown, outcome]⟩
  · intro triggered
    exact (judged.current triggered).congr type field (.inr (answer triggered)) outcome

theorem Course.judged {before after : Pass} {firings : List Firing}
    (course : engine.Course before firings after) (sound : engine.IsSound now)
    (ordered : engine.Ordered firings) {firing : Firing} (member : firing ∈ firings)
    (checks : firing.rule.effect = .constraint message) (sole : engine.rulebook.Sole .validity)
    (inFound : place ∈ firing.found) : engine.Judged after.tree firing.rule message place := by
  have noAction : ∀ occasion, firing.rule.effect ≠ .setValue occasion := by simp [checks]
  have soleField : engine.rulebook.Sole firing.rule.effect.field := by rwa [checks]
  rcases course.exists_fires ordered member with ⟨earlier, between, late, fires, later, apart⟩
  rcases later.stays_of_apart sound fires.entered noAction soleField apart
    (fires.belongs sound place inFound) with ⟨field, outcome, answer⟩
  have judged := (fires.worked.current noAction place inFound).judged checks
  exact judged.congr checks (later.held_type place) field outcome answer

theorem Course.current_of_unset {before after : Pass} {firings : List Firing}
    (course : engine.Course before firings after) (sound : engine.IsSound now)
    (ordered : engine.Ordered firings) {firing : Firing} (member : firing ∈ firings)
    (checks : firing.rule.effect = .constraint message) (sole : engine.rulebook.Sole .validity)
    (unset : ∀ other ∈ engine.rulebook.rules, other.effect.writesAnswer = true →
      other.target ≠ firing.rule.target)
    (inFound : place ∈ firing.found) : engine.Current after.tree firing.rule place := by
  have noAction : ∀ occasion, firing.rule.effect ≠ .setValue occasion := by simp [checks]
  have soleField : engine.rulebook.Sole firing.rule.effect.field := by rwa [checks]
  rcases course.exists_fires ordered member with ⟨earlier, between, late, fires, later, apart⟩
  have target := fires.belongs sound place inFound
  rcases later.stays_of_apart sound fires.entered noAction soleField apart target with
    ⟨field, outcome, -⟩
  apply (fires.worked.current noAction place inFound).congr (later.held_type place) field _ outcome
  right
  apply (later.held .answer place).resolve_right
  rintro ⟨source, inLate, writes, isFound, -⟩
  apply unset source.rule (List.mem_of_getElem? (later.entered inLate))
  · exact field_eq_answer_iff.mp writes
  · rw [← target, later.belongs sound inLate place isFound]

theorem IsSound.initial_judged (sound : engine.IsSound now) (numbered : tree.root.Numbered)
    (clean : (engine.initial tree).report.failures = [])
    (entered : engine.rulebook.rule? number = some rule)
    (checks : rule.effect = .constraint message) (sole : engine.rulebook.Sole .validity)
    (member : place ∈ tree.references) (target : place.genericize = rule.target) :
    engine.Judged (engine.initial tree).tree rule message place := by
  rcases sound.initial_fires numbered clean entered (by simp [checks]) with
    ⟨firings, course, ordered, firing, inFirings, rfl, everywhere⟩
  exact course.judged sound ordered inFirings checks sole (everywhere place member target)

theorem IsSound.initial_current_of_unset (sound : engine.IsSound now)
    (numbered : tree.root.Numbered) (clean : (engine.initial tree).report.failures = [])
    (entered : engine.rulebook.rule? number = some rule)
    (checks : rule.effect = .constraint message) (sole : engine.rulebook.Sole .validity)
    (unset : ∀ other ∈ engine.rulebook.rules, other.effect.writesAnswer = true →
      other.target ≠ rule.target)
    (member : place ∈ tree.references) (target : place.genericize = rule.target) :
    engine.Current (engine.initial tree).tree rule place := by
  rcases sound.initial_fires numbered clean entered (by simp [checks]) with
    ⟨firings, course, ordered, firing, inFirings, rfl, everywhere⟩
  exact course.current_of_unset sound ordered inFirings checks sole unset
    (everywhere place member target)

theorem Spreads.mem_found_of_plain {changes : List Touch} {fired : List Nat}
    {before after : Pass} {firings : List Firing}
    (spreads : engine.Spreads changes fired before firings after) (sound : engine.IsSound now)
    (numbered : before.tree.root.Numbered) (plain : before.tree.IsPlain)
    (live : ∀ touch ∈ changes, touch.reference ∈ before.tree.references) {firing : Firing}
    (inFirings : firing ∈ firings) (member : place ∈ before.tree.references)
    (target : place.genericize = firing.rule.target) : place ∈ firing.found := by
  rcases List.append_of_mem inFirings with ⟨early, late, split⟩
  have touchedLive := spreads.touched_live sound numbered live early (firing :: late) split
  have anchorsLive := (spreads.live_of_touched sound numbered split touchedLive).1
  rcases spreads.anchored early firing late split with ⟨first, -, anchored⟩
  have nonempty : firing.anchors ≠ [] := by
    rw [anchored]
    exact anchorsOr_ne_nil
  rcases List.exists_mem_of_ne_nil firing.anchors nonempty with ⟨anchor, inAnchors⟩
  have inTree := anchorsLive anchor inAnchors
  exact spreads.course.mem_found sound numbered inFirings inAnchors
    (AnswerTree.isLive_of_mem numbered inTree).1 member target (plain.isNear inTree member)

/-- Without series, a change of an answer that does not make a rule fire at a
node changes no answer that triggers the rule. -/
theorem Spreads.answers_of_silent {reference : Reference} {previous current : Option Value}
    {firings : List Firing} {after : Pass}
    (spreads : engine.Spreads [.answer reference] [] (edited tree reference previous current)
      firings after) (sound : engine.IsSound now) (numbered : tree.root.Numbered)
    (plain : tree.IsPlain) (live : reference ∈ tree.references)
    (member : place ∈ tree.references)
    (silent : ∀ read, read.IsLive → rule.isTriggeredBy read = true → read.IsNear place →
      after.tree.held .answer read =
          (edited tree reference previous current).tree.held .answer read ∧
        ∀ touch ∈ [Touch.answer reference], touch.reference ≠ read)
    {read : Reference} (triggered : rule.isTriggeredBy read = true) :
    after.tree.held .answer read = tree.held .answer read := by
  have shape := edited_sameShape tree reference previous current
  by_cases inTree : read ∈ tree.references
  · rcases silent read (AnswerTree.isLive_of_mem numbered inTree).1 triggered
      (plain.isNear inTree member) with ⟨same, apart⟩
    rw [same]
    apply held_edited
    exact .inr (apart _ List.mem_cons_self).symm
  · -- Only live nodes are written.
    have touched := spreads.touched_live sound (shape.numbered numbered)
      (by simpa [Touch.reference, shape.references] using live) firings [] (by simp)
    rcases spreads.course.held .answer read with same | ⟨firing, inFirings, field, -, isTouched⟩
    · rw [same]
      apply held_edited
      right
      rintro rfl
      exact inTree live
    · have inTouched : firing.rule.effect.touch read ∈
          [Touch.answer reference] ++ firings.flatMap (·.touched) :=
        List.mem_append_right _ (List.mem_flatMap.mpr ⟨firing, inFirings, isTouched⟩)
      have inReferences := touched _ inTouched
      rw [Effect.reference_touch, shape.references] at inReferences
      exact absurd inReferences inTree

theorem IsSound.setAnswer_judged (sound : engine.IsSound now) (numbered : tree.root.Numbered)
    (plain : tree.IsPlain) {reference : Reference} {value : Option Value} {after : Pass}
    (done : engine.setAnswer tree reference value = .ok after)
    (clean : after.report.failures = [])
    (entered : engine.rulebook.rule? number = some rule)
    (checks : rule.effect = .constraint message) (sole : engine.rulebook.Sole .validity)
    (member : place ∈ tree.references) (target : place.genericize = rule.target)
    (judged : engine.Judged tree rule message place) :
    engine.Judged after.tree rule message place := by
  rcases sound.setAnswer_cases done clean with rfl | ⟨previous, current, firings, live, spreads⟩
  · exact judged
  · have shape := edited_sameShape tree reference previous current
    have noAction : ∀ occasion, rule.effect ≠ .setValue occasion := by simp [checks]
    have field : rule.effect.field = .validity := by rw [checks]; rfl
    rcases spreads.fires_or_silent sound (shape.numbered numbered) entered noAction
      (by rwa [field]) (by simp) (by rwa [shape.references]) target with
      ⟨firing, inFirings, rfl, inFound⟩ | ⟨sameField, silent⟩
    · cases spreads.course.rule_eq inFirings entered
      exact spreads.course.judged sound spreads.ordered inFirings checks sole inFound
    · have answers : ∀ read, rule.isTriggeredBy read = true →
          after.tree.held .answer read = tree.held .answer read := fun read =>
        spreads.answers_of_silent sound numbered plain live member silent
      apply judged.congr checks
      · rw [spreads.course.held_type]
        exact held_edited tree reference previous current (.inl Field.noConfusion)
      · rw [sameField]
        apply held_edited
        left
        rw [field]
        exact Field.noConfusion
      · apply sound.outcome_congr (spreads.course.shape.trans shape)
        intro read reads
        exact answers read ((sound.bound entered).isTriggeredBy_of_reads noAction target reads)
      · exact answers place

theorem IsSound.setAnswer_current_of_unset (sound : engine.IsSound now)
    (numbered : tree.root.Numbered) (plain : tree.IsPlain) {reference : Reference}
    {value : Option Value} {after : Pass}
    (done : engine.setAnswer tree reference value = .ok after)
    (clean : after.report.failures = [])
    (entered : engine.rulebook.rule? number = some rule)
    (checks : rule.effect = .constraint message) (sole : engine.rulebook.Sole .validity)
    (unset : ∀ other ∈ engine.rulebook.rules, other.effect.writesAnswer = true →
      other.target ≠ rule.target)
    (isFired : number ∈ after.report.fired)
    (member : place ∈ tree.references) (target : place.genericize = rule.target) :
    engine.Current after.tree rule place := by
  rcases sound.setAnswer_cases done clean with rfl | ⟨previous, current, firings, live, spreads⟩
  · cases isFired
  · have shape := edited_sameShape tree reference previous current
    rw [spreads.course.fired] at isFired
    rcases List.mem_map.mp isFired with ⟨firing, inFirings, rfl⟩
    cases spreads.course.rule_eq inFirings entered
    have inFound := spreads.mem_found_of_plain sound (shape.numbered numbered)
      (shape.isPlain plain) (by simpa [Touch.reference, shape.references] using live) inFirings
      (by rwa [shape.references]) target
    exact spreads.course.current_of_unset sound spreads.ordered inFirings checks sole unset inFound

end Judged

end Engine

namespace Form

theorem Answered.judged {form current : Form} {now : DateTime} (answered : form.Answered current)
    (built : form.IsBuilt now) (plain : form.tree.IsPlain) {number : Nat} {rule : Rule}
    {message : Option String} (entered : form.engine.rulebook.rule? number = some rule)
    (checks : rule.effect = .constraint message) (sole : form.engine.rulebook.Sole .validity)
    {place : Reference} (member : place ∈ current.tree.references)
    (target : place.genericize = rule.target) :
    form.engine.Judged current.tree rule message place := by
  rw [(answered.sameShape built.sound).references] at member
  induction answered with
  | initial clean =>
      exact built.sound.initial_judged built.numbered clean entered checks sole member target
  | setAnswer answered done clean induction =>
      rcases setAnswer_ok done with ⟨pass, set, rfl⟩
      rw [answered.engine_eq] at set
      have shape := answered.sameShape built.sound
      rw [← shape.references] at member
      exact built.sound.setAnswer_judged (shape.numbered built.numbered) (shape.isPlain plain) set
        clean entered checks sole member target induction

end Form

/-- After a form without series has been filled in, and after every change of an
answer, a node that is checked shows what its constraint says now of an answer.
It shows what the constraint says of the answer there exactly if it is unchecked
just when it has none, and always if the constraint reads the node. If no rule
sets the answer of the node, then it does so also whenever the constraint has
fired. -/
theorem Definition.answered_constraint_iff {definition : Definition}
    {constructors : Constructors} {settings : Settings} {now : DateTime}
    {saved : Option AnswerTree} {form : Form}
    (built : definition.form constructors settings now saved = .ok form)
    (retain : settings.hiddenAnswers = .retain) (plain : form.tree.IsPlain)
    (sole : form.engine.rulebook.Sole .validity) {number : Nat} {rule : Rule}
    {message : Option String} (entered : form.engine.rulebook.rule? number = some rule)
    (checks : rule.effect = .constraint message) :
    (∀ current, form.Answered current → rule.Everywhere current.tree fun place =>
      ∃ node, current.tree.find? place = some node ∧
        let outcome := Expression.evaluate now current.tree place rule.expression
        (node.facts.validity = .unchecked ∨
          ∀ value, node.facts.validity = verdict (some value) message outcome) ∧
        (node.facts.validity = verdict node.facts.answer message outcome ↔
          (node.facts.validity = .unchecked ↔ node.facts.answer = none)) ∧
        (rule.isTriggeredBy place = true →
          node.facts.validity = verdict node.facts.answer message outcome)) ∧
    ((∀ other ∈ form.engine.rulebook.rules, other.effect.writesAnswer = true →
        other.target ≠ rule.target) →
      (form.initial.report.failures = [] →
        rule.Everywhere form.initial.form.tree (form.engine.Current form.initial.form.tree rule)) ∧
      ∀ current, form.Answered current → ∀ reference value outcome,
        current.setAnswer reference value = .ok outcome → outcome.report.failures = [] →
        number ∈ outcome.report.fired →
        rule.Everywhere outcome.form.tree (form.engine.Current outcome.form.tree rule)) := by
  have isBuilt := Definition.form_isBuilt retain built
  have sound := isBuilt.sound
  refine ⟨fun current answered place member target => ?_,
    fun unset => ⟨fun clean place member target => ?_, ?_⟩⟩
  · -- What is shown was said of some answer. It is right where both answers are there or missing.
    have judged := answered.judged isBuilt plain entered checks sole member target
    rcases judged.shown with ⟨node, spoken, found, shown⟩
    rw [sound.evaluator] at shown
    have uncheckedIff : node.facts.validity = .unchecked ↔ spoken = none := by
      rw [shown]
      exact verdict_eq_unchecked_iff
    refine ⟨node, found, ?_, ⟨fun isCurrent => ?_, fun presence => ?_⟩, fun triggered => ?_⟩
    · cases spoken with
      | none => exact .inl shown
      | some answer =>
          right
          intro value
          rw [shown]
          apply verdict_congr
          simp
    · rw [isCurrent]
      exact verdict_eq_unchecked_iff
    · rw [shown]
      apply verdict_congr
      rw [← uncheckedIff, presence]
    · cases judged.current triggered with
      | intro same holds =>
          rw [found, checks, sound.evaluator] at holds
          rcases holds with ⟨⟨⟩, holds⟩
          exact holds
  · rw [((Form.Answered.initial clean).sameShape sound).references] at member
    exact sound.initial_current_of_unset isBuilt.numbered clean entered checks sole unset member
      target
  · intro current answered reference value outcome done clean isFired place member target
    rcases Form.setAnswer_ok done with ⟨pass, set, rfl⟩
    rw [answered.engine_eq] at set
    have shape := answered.sameShape sound
    rw [((answered.setAnswer done clean).sameShape sound).references, ← shape.references] at member
    exact sound.setAnswer_current_of_unset (shape.numbered isBuilt.numbered) (shape.isPlain plain)
      set clean entered checks sole unset isFired member target

namespace Order

def purchase : Definition where
  id := none
  title := "purchase"
  skeleton :=
    let number (name : String) (value : Option String) : Skeleton :=
      { Skeleton.ofName name with type := .int, value }
    { Skeleton.ofName "data" with children := [number "stock" (some "5"), number "amount" none] }
  binds := [{ Bind.ofTarget (every ["amount"]) with
    constraint := some (.binary .gt (.answer (every ["stock"])) (.literal (.int 0)))
    message := some "sold out" }]

end Order

theorem purchase_constraint_iff : ∃ form chosen outcome rule node,
    Order.purchase.form .standard .standard .startOf2020 none = .ok form ∧
    form.initial.form.setAnswer (Order.ofOrder "amount") (some (.int 2)) = .ok chosen ∧
    chosen.form.setAnswer (Order.ofOrder "stock") (some (.int 0)) = .ok outcome ∧
    form.engine.rulebook.rule? 0 = some rule ∧
    outcome.form.tree.find? (Order.ofOrder "amount") = some node ∧
    node.facts.validity = verdict node.facts.answer (some "sold out")
      (Expression.evaluate .startOf2020 outcome.form.tree (Order.ofOrder "amount")
        rule.expression) := by
  have ready : (Order.purchase.form .standard .standard .startOf2020 none).toOption.any
      (fun form => decide (form.initial.report.failures = [] ∧ form.tree.IsPlain ∧
          form.engine.rulebook.Sole .validity) &&
        (form.engine.rulebook.rule? 0).any (fun rule => decide (
          rule.effect = .constraint (some "sold out") ∧
          (Order.ofOrder "amount").genericize = rule.target)) &&
        (form.initial.form.setAnswer (Order.ofOrder "amount") (some (.int 2))).toOption.any
          fun chosen => decide (chosen.report.failures = []) &&
            (chosen.form.setAnswer (Order.ofOrder "stock") (some (.int 0))).toOption.any
              fun outcome => decide (outcome.report.failures = [] ∧
                Order.ofOrder "amount" ∈ outcome.form.tree.references) &&
                (outcome.form.tree.find? (Order.ofOrder "amount")).all fun node =>
                  decide (node.facts.validity ≠ .unchecked ∧ node.facts.answer ≠ none)) = true := by
    decide +kernel
  rcases exists_ok_of_any ready with ⟨form, built, ready⟩
  simp only [Bool.and_eq_true, decide_eq_true_eq] at ready
  rcases ready with ⟨⟨⟨clean, plain, sole⟩, isRule⟩, chooses⟩
  rcases (Option.any_eq_true _ _).mp isRule with ⟨rule, entered, isRule⟩
  rcases decide_eq_true_eq.mp isRule with ⟨checks, target⟩
  rcases exists_ok_of_any chooses with ⟨chosen, chose, sells⟩
  rcases Bool.and_eq_true_iff.mp sells with ⟨cleanChoice, sells⟩
  rcases exists_ok_of_any sells with ⟨outcome, sold, isSold⟩
  rcases Bool.and_eq_true_iff.mp isSold with ⟨isClean, isChecked⟩
  rcases decide_eq_true_eq.mp isClean with ⟨cleanSale, member⟩
  have run : form.Answered outcome.form :=
    .setAnswer (.setAnswer (.initial clean) chose (decide_eq_true_eq.mp cleanChoice)) sold cleanSale
  rcases (Definition.answered_constraint_iff built rfl plain sole entered checks).1 outcome.form run
    (Order.ofOrder "amount") member target with ⟨node, found, -, currentIff, -⟩
  rw [found] at isChecked
  rcases decide_eq_true_eq.mp isChecked with ⟨checked, answered⟩
  exact ⟨form, chosen, outcome, rule, node, built, chose, sold, entered, found,
    currentIff.mpr (iff_of_false checked answered)⟩

/-- The amount is not checked when it is given. -/
theorem purchase_unchecked : ∃ form outcome rule node,
    Order.purchase.form .standard .standard .startOf2020 none = .ok form ∧
    form.initial.report.failures = [] ∧ form.tree.IsPlain ∧
    form.engine.rulebook.Sole .validity ∧ form.engine.rulebook.Sole .answer ∧
    form.initial.form.setAnswer (Order.ofOrder "amount") (some (.int 2)) = .ok outcome ∧
    outcome.report.failures = [] ∧
    form.engine.rulebook.rule? 0 = some rule ∧
    rule.effect = .constraint (some "sold out") ∧
    (Order.ofOrder "amount").genericize = rule.target ∧
    outcome.form.tree.find? (Order.ofOrder "amount") = some node ∧
    node.facts.answer = some (.int 2) ∧ node.facts.validity = .unchecked ∧
    verdict node.facts.answer (some "sold out") (Expression.evaluate .startOf2020
      outcome.form.tree (Order.ofOrder "amount") rule.expression) = .valid := by
  have unchecked : (Order.purchase.form .standard .standard .startOf2020 none).toOption.any
      (fun form => decide (form.initial.report.failures = [] ∧ form.tree.IsPlain ∧
          form.engine.rulebook.Sole .validity ∧ form.engine.rulebook.Sole .answer) &&
        (form.initial.form.setAnswer (Order.ofOrder "amount") (some (.int 2))).toOption.any
          fun outcome => decide (outcome.report.failures = []) &&
            (form.engine.rulebook.rule? 0).any fun rule => decide (
              rule.effect = .constraint (some "sold out") ∧
              (Order.ofOrder "amount").genericize = rule.target) &&
              (outcome.form.tree.find? (Order.ofOrder "amount")).any fun node => decide (
                node.facts.answer = some (.int 2) ∧ node.facts.validity = .unchecked ∧
                verdict node.facts.answer (some "sold out") (Expression.evaluate .startOf2020
                  outcome.form.tree (Order.ofOrder "amount") rule.expression) = .valid)) =
      true := by
    decide +kernel
  rcases exists_ok_of_any unchecked with ⟨form, built, unchecked⟩
  rcases Bool.and_eq_true_iff.mp unchecked with ⟨isReady, set⟩
  rcases decide_eq_true_eq.mp isReady with ⟨clean, plain, sole, answers⟩
  rcases exists_ok_of_any set with ⟨outcome, done, set⟩
  rcases Bool.and_eq_true_iff.mp set with ⟨isClean, isRule⟩
  rcases (Option.any_eq_true _ _).mp isRule with ⟨rule, entered, isRule⟩
  rcases Bool.and_eq_true_iff.mp isRule with ⟨isCheck, isNode⟩
  rcases decide_eq_true_eq.mp isCheck with ⟨checks, target⟩
  rcases (Option.any_eq_true _ _).mp isNode with ⟨node, found, isNode⟩
  rcases decide_eq_true_eq.mp isNode with ⟨answer, validity, valid⟩
  exact ⟨form, outcome, rule, node, built, clean, plain, sole, answers, done,
    decide_eq_true_eq.mp isClean, entered, checks, target, found, answer, validity, valid⟩

end ReactiveForm
