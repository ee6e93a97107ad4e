import ReactiveForm.Proofs.ValueEdits

/-! Calculations that read more than the nodes near them, such as a sum over all
members inside each member. A change of an answer has them evaluated anew only
near what changed. Elsewhere they keep the answer they had, whether or not it is
still what the expression says. -/

namespace ReactiveForm

namespace Engine

variable {engine : Engine} {now : DateTime}

section Live

variable {changes : List Touch} {fired : List Nat} {before after : Pass} {firings : List Firing}

theorem Spreads.live_of_touched (spreads : engine.Spreads changes fired before firings after)
    (sound : engine.IsSound now) (numbered : before.tree.root.Numbered)
    {early late : List Firing} {firing : Firing} (split : firings = early ++ firing :: late)
    (live : ∀ touch ∈ changes ++ early.flatMap (·.touched),
      touch.reference ∈ before.tree.references) :
    (∀ anchor ∈ firing.anchors, anchor ∈ before.tree.references) ∧
      firing.found ⊆ before.tree.references := by
  have inFirings : firing ∈ firings := by simp [split]
  rcases spreads.anchored early firing late split with ⟨first, isFirst, anchored⟩
  have anchors : ∀ anchor ∈ firing.anchors, anchor ∈ before.tree.references := by
    intro anchor member
    rw [anchored, anchorsOr] at member
    split at member
    · rw [List.mem_singleton.mp member]
      exact live first (List.mem_append_left _ (List.mem_of_mem_head? isFirst))
    · rcases List.mem_map.mp member with ⟨touch, inTouched, rfl⟩
      exact live touch (List.mem_filter.mp inTouched).1
  refine ⟨anchors, fun place inFound => ?_⟩
  have nonempty : firing.anchors ≠ [] := by
    rw [anchored]
    exact anchorsOr_ne_nil
  rcases (mem_targets nonempty (spreads.course.located inFirings)).2 place inFound with
    ⟨anchor, inAnchors, near, located, inNear⟩
  have anchorLive := (AnswerTree.isLive_of_mem numbered (anchors anchor inAnchors)).1
  exact ((mem_targetsNear numbered (sound.bound (spreads.course.entered inFirings)) anchorLive
    located).mp inNear).1

theorem Spreads.touched_live (spreads : engine.Spreads changes fired before firings after)
    (sound : engine.IsSound now) (numbered : before.tree.root.Numbered)
    (live : ∀ touch ∈ changes, touch.reference ∈ before.tree.references) (early : List Firing) :
    ∀ late, firings = early ++ late → ∀ touch ∈ changes ++ early.flatMap (·.touched),
      touch.reference ∈ before.tree.references := by
  induction early using List.reverseRecOn with
  | nil => simpa using live
  | append_singleton early source induction =>
      intro late split touch member
      have sourceSplit : firings = early ++ source :: late := by rw [split]; simp
      have earlier := induction (source :: late) sourceSplit
      rw [List.flatMap_append, ← List.append_assoc, List.mem_append] at member
      rcases member with inEarly | inSource
      · exact earlier touch inEarly
      · have inFirings : source ∈ firings := by simp [sourceSplit]
        rcases spreads.course.touches inFirings (by simpa using inSource) with ⟨place, inFound, rfl⟩
        rw [Effect.reference_touch]
        exact (spreads.live_of_touched sound numbered sourceSplit earlier).2 inFound

theorem Spreads.anchors_eq (spreads : engine.Spreads changes fired before firings after)
    (sound : engine.IsSound now) {early late : List Firing} {firing : Firing}
    (split : firings = early ++ firing :: late) (writes : firing.rule.effect.writesAnswer = true) :
    ∃ first ∈ changes.head?, firing.anchors =
      anchorsOr first.reference firing.rule (changes ++ firings.flatMap (·.touched)) := by
  rcases spreads.anchored early firing late split with ⟨first, isFirst, anchored⟩
  refine ⟨first, isFirst, ?_⟩
  have inFirings : firing ∈ firings := by simp [split]
  have entered := spreads.course.entered inFirings
  -- Whatever fires from here on does not trigger the rule.
  have silent : ∀ source ∈ firing :: late, ∀ touch ∈ source.touched,
      firing.rule.isTriggeredBy touch.reference = false := by
    intro source inRest touch touched
    rw [← Bool.not_eq_true]
    intro triggered
    have inSource : source ∈ firings := by rw [split]; exact List.mem_append_right _ inRest
    have feeds :=
      spreads.course.feeds_of_touched sound inSource touched entered triggered (.inr writes)
    have ordered := spreads.ordered
    rw [split] at ordered
    rcases List.mem_cons.mp inRest with rfl | inLate
    · exact sound.not_feeds_self feeds
    · exact ((List.pairwise_cons.mp (List.pairwise_append.mp ordered).2.1).1 source inLate).2 feeds
  have none : anchorsFor firing.rule ((firing :: late).flatMap (·.touched)) = [] := by
    rw [anchorsFor, List.map_eq_nil_iff, List.filter_eq_nil_iff]
    intro touch member
    rcases List.mem_flatMap.mp member with ⟨source, inRest, touched⟩
    simp [silent source inRest touch touched]
  have same : anchorsFor firing.rule (changes ++ firings.flatMap (·.touched)) =
      anchorsFor firing.rule (changes ++ early.flatMap (·.touched)) := by
    have parts (first second : List Touch) : anchorsFor firing.rule (first ++ second) =
        anchorsFor firing.rule first ++ anchorsFor firing.rule second := by
      simp [anchorsFor]
    rw [split, List.flatMap_append, ← List.append_assoc, parts, none, List.append_nil]
  rw [anchored, anchorsOr, anchorsOr, same]

end Live

end Engine

/-- Where a change of the answer at `reference` has a rule evaluated anew: near
the changed nodes that trigger the rule, or else near the edited one. -/
def Report.anchors (report : Report) (reference : Reference) (rule : Rule) : List Reference :=
  let changed := (report.updates.map (·.target)).filter rule.isTriggeredBy
  if changed.isEmpty then [reference] else changed

/-- The rule of that number has been evaluated anew at a node. -/
def Report.Reevaluates (report : Report) (reference : Reference) (number : Nat) (rule : Rule)
    (place : Reference) : Prop :=
  number ∈ report.fired ∧ ∃ anchor ∈ report.anchors reference rule, anchor.IsNear place

namespace Engine

variable {engine : Engine} {now : DateTime}

theorem anchors_eq_anchorsOr {report : Report} {reference : Reference} {rule : Rule}
    {touched : List Touch} (always : rule.waitsForAnswer = false)
    (updates : report.updates.map (·.target) = touched.map Touch.reference) :
    report.anchors reference rule = anchorsOr reference rule touched := by
  have same : (report.updates.map (·.target)).filter rule.isTriggeredBy =
      anchorsFor rule touched := by
    rw [updates, anchorsFor, List.filter_map]
    simp [always, Function.comp_def]
  rw [Report.anchors, anchorsOr, same]

theorem Spreads.reevaluates_iff {tree : AnswerTree} {reference : Reference}
    {previous current : Option Value} {firings : List Firing} {after : Pass}
    (spreads : engine.Spreads [.answer reference] [] (edited tree reference previous current)
      firings after) (sound : engine.IsSound now) (numbered : tree.root.Numbered)
    (live : reference ∈ tree.references) {number : Nat} {rule : Rule}
    (entered : engine.rulebook.rule? number = some rule) (kept : rule.effect.isKept = true)
    (writes : rule.effect.writesAnswer = true)
    {place : Reference} (member : place ∈ tree.references)
    (target : place.genericize = rule.target) :
    after.report.Reevaluates reference number rule place ↔
      ∃ firing ∈ firings, firing.number = number ∧ place ∈ firing.found := by
  have shape := edited_sameShape tree reference previous current
  have numberedToo := shape.numbered numbered
  have always := Effect.waitsForAnswer_of_isKept kept
  have fired : after.report.fired = firings.map (·.number) := by
    rw [spreads.course.fired]
    rfl
  have updates : after.report.updates.map (·.target) =
      ([Touch.answer reference] ++ firings.flatMap (·.touched)).map Touch.reference := by
    rw [Report.targets_eq, spreads.course.updates]
    rfl
  -- Firings of the rule, and where they are anchored.
  have firingOf : ∀ firing ∈ firings, firing.number = number → firing.rule = rule ∧
      firing.anchors = after.report.anchors reference rule ∧
      ∀ anchor ∈ firing.anchors, anchor ∈ tree.references := by
    rintro firing inFirings rfl
    cases spreads.course.rule_eq inFirings entered
    rcases List.append_of_mem inFirings with ⟨early, late, split⟩
    rcases spreads.anchors_eq sound split writes with ⟨first, isFirst, anchored⟩
    cases isFirst
    refine ⟨rfl, by rw [anchored, anchors_eq_anchorsOr always updates]; rfl, ?_⟩
    have touchedLive := spreads.touched_live sound numberedToo
      (by simpa [Touch.reference, shape.references] using live) early (firing :: late) split
    rw [← shape.references]
    exact (spreads.live_of_touched sound numberedToo split touchedLive).1
  rw [Report.Reevaluates, fired]
  constructor
  · rintro ⟨inFired, anchor, inAnchors, near⟩
    rcases List.mem_map.mp inFired with ⟨firing, inFirings, same⟩
    rcases firingOf firing inFirings same with ⟨rfl, anchors, anchorsLive⟩
    rw [← anchors] at inAnchors
    refine ⟨firing, inFirings, same, spreads.course.mem_found sound numberedToo inFirings inAnchors
      (AnswerTree.isLive_of_mem numbered (anchorsLive anchor inAnchors)).1
      (by rwa [shape.references]) target near⟩
  · rintro ⟨firing, inFirings, same, inFound⟩
    rcases firingOf firing inFirings same with ⟨rfl, anchors, anchorsLive⟩
    refine ⟨List.mem_map.mpr ⟨firing, inFirings, same⟩, ?_⟩
    have nonempty : firing.anchors ≠ [] := by
      rw [anchors, Report.anchors]
      split
      · simp
      next found => simpa using found
    rcases (mem_targets nonempty (spreads.course.located inFirings)).2 place inFound with
      ⟨anchor, inAnchors, near, located, inNear⟩
    have anchorLive := (AnswerTree.isLive_of_mem numbered (anchorsLive anchor inAnchors)).1
    rw [← anchors]
    exact ⟨anchor, inAnchors,
      ((mem_targetsNear numberedToo (sound.bound entered) anchorLive located).mp inNear).2.2⟩

/-- After a change of an answer, a calculation holds at a node exactly if it was
evaluated anew there, or the answer from before still is what the expression
says. -/
theorem IsSound.setAnswer_current_iff (sound : engine.IsSound now) {tree : AnswerTree}
    (numbered : tree.root.Numbered) {reference : Reference} {value : Option Value} {after : Pass}
    (done : engine.setAnswer tree reference value = .ok after)
    (clean : after.report.failures = []) {number : Nat} {rule : Rule}
    (entered : engine.rulebook.rule? number = some rule) (calculates : rule.effect = .calculate)
    (sole : engine.rulebook.Sole .answer) (free : rule.target ≠ reference.genericize)
    {place : Reference} (member : place ∈ tree.references)
    (target : place.genericize = rule.target) :
    engine.Current after.tree rule place ↔
      after.report.Reevaluates reference number rule place ∨
        ∃ node, tree.find? place = some node ∧ rule.effect.Settled node.facts
          (engine.evaluator after.tree rule.expression place) := by
  have kept : rule.effect.isKept = true := by rw [calculates]; rfl
  have field : rule.effect.field = .answer := by rw [calculates]; rfl
  have writes := field_eq_answer_iff.mp field
  have soleField : engine.rulebook.Sole rule.effect.field := by rwa [field]
  rcases sound.setAnswer_cases done clean with rfl | ⟨previous, answer, firings, live, spreads⟩
  · constructor
    · exact .inr
    · rintro (⟨inFired, -⟩ | current)
      · cases inFired
      · exact current
  · rw [spreads.reevaluates_iff sound numbered live entered kept writes member target]
    by_cases fires : ∃ firing ∈ firings, firing.number = number ∧ place ∈ firing.found
    · refine iff_of_true ?_ (.inl fires)
      rcases fires with ⟨firing, inFirings, rfl, inFound⟩
      cases spreads.course.rule_eq inFirings entered
      exact spreads.course.current sound spreads.ordered inFirings kept soleField inFound
    · rw [or_iff_right fires]
      have elsewhere : place ≠ reference := by
        rintro rfl
        exact free target.symm
      have type : after.tree.held .type place = tree.held .type place :=
        (spreads.course.held_type place).trans
          (held_edited tree reference previous answer (.inr elsewhere))
      have kept' : after.tree.held rule.effect.field place = tree.held rule.effect.field place := by
        refine (spreads.course.held _ place |>.resolve_right ?_).trans
          (held_edited tree reference previous answer (.inr elsewhere))
        rintro ⟨firing, inFirings, sameField, inFound, -⟩
        have same := target.symm.trans (spreads.course.belongs sound inFirings place inFound)
        exact fires ⟨firing, inFirings, (soleField entered
          (spreads.course.entered inFirings) rfl sameField same).symm, inFound⟩
      exact ⟨settled_congr type.symm kept'.symm (.inl kept),
        settled_congr type kept' (.inl kept)⟩

end Engine

/-- When a form has been filled in, every calculation holds wherever it acts.
After a change of an answer it holds at a node exactly if it was evaluated anew
there, or if the answer from before still is what its expression says. -/
theorem Definition.filledIn_calculation_iff {definition : Definition}
    {constructors : Constructors} {settings : Settings} {now : DateTime}
    {saved : Option AnswerTree} {form : Form}
    (built : definition.form constructors settings now saved = .ok form)
    (retain : settings.hiddenAnswers = .retain)
    (soleAnswers : form.engine.rulebook.Sole .answer) {number : Nat} {rule : Rule}
    (entered : form.engine.rulebook.rule? number = some rule)
    (calculates : rule.effect = .calculate) :
    (form.initial.report.failures = [] → rule.Everywhere form.initial.form.tree fun place =>
      form.engine.Current form.initial.form.tree rule place) ∧
    ∀ current, form.FilledIn current → ∀ reference value outcome, form.IsFree reference →
      current.setAnswer reference value = .ok outcome → outcome.report.failures = [] →
      rule.Everywhere outcome.form.tree fun place =>
        (form.engine.Current outcome.form.tree rule place ↔
          outcome.report.Reevaluates reference number rule place ∨
          ∃ node, current.tree.find? place = some node ∧ rule.effect.Settled node.facts
            (Expression.evaluate now outcome.form.tree place rule.expression)) := by
  have isBuilt := Definition.form_isBuilt retain built
  have kept : rule.effect.isKept = true := by rw [calculates]; rfl
  have sole : form.engine.rulebook.Sole rule.effect.field := by rwa [calculates]
  constructor
  · intro clean place member target
    have shape := (Form.FilledIn.initial clean).sameShape isBuilt.sound
    rw [shape.references] at member
    exact isBuilt.sound.initial_current isBuilt.numbered clean entered kept sole member target
  · intro current filledIn reference value outcome free done clean place member target
    rcases Form.setAnswer_ok done with ⟨pass, set, rfl⟩
    rw [filledIn.engine_eq] at set
    have shape := filledIn.sameShape isBuilt.sound
    have inTree : place ∈ current.tree.references := by
      rwa [← (isBuilt.sound.setAnswer_sameShape set clean).references]
    have result := isBuilt.sound.setAnswer_current_iff (shape.numbered isBuilt.numbered) set clean
      entered calculates soleAnswers (free rule (List.mem_of_getElem? entered) calculates) inTree
      target
    rw [isBuilt.sound.evaluator] at result
    exact result

def Order.receipt : Definition where
  id := none
  title := "receipt"
  skeleton := Order.skeleton
  binds := [{ Bind.ofTarget (Order.every ["item", "share"]) with
    calculate := some (.sum (Order.every ["item", "price"])) }]

theorem receipt_calculation_iff : ∃ form outcome rule,
    Order.receipt.form .standard .standard .startOf2020 none = .ok form ∧
    form.engine.rulebook.rule? 0 = some rule ∧ rule.effect = .calculate ∧
    form.initial.form.setAnswer (Order.ofItem 0 "price") (some (.int 11)) = .ok outcome ∧
    ¬ outcome.report.Reevaluates (Order.ofItem 0 "price") 0 rule (Order.ofItem 1 "share") := by
  have ready : (Order.receipt.form .standard .standard .startOf2020 none).toOption.any
      (fun form => decide (form.initial.report.failures = [] ∧
          form.engine.rulebook.Sole .answer ∧ form.IsFree (Order.ofItem 0 "price")) &&
        (form.engine.rulebook.rule? 0).any fun rule => decide (rule.effect = .calculate ∧
          (Order.ofItem 1 "share").genericize = rule.target) &&
        (form.initial.form.setAnswer (Order.ofItem 0 "price") (some (.int 11))).toOption.any
          fun outcome => decide (outcome.report.failures = [] ∧
            Order.ofItem 1 "share" ∈ outcome.form.tree.references ∧
            ¬ form.engine.Current outcome.form.tree rule (Order.ofItem 1 "share"))) = true := by
    decide +kernel
  rcases exists_ok_of_any ready with ⟨form, built, ready⟩
  rcases Bool.and_eq_true_iff.mp ready with ⟨isReady, ready⟩
  rcases decide_eq_true_eq.mp isReady with ⟨clean, answers, free⟩
  rcases (Option.any_eq_true _ _).mp ready with ⟨rule, entered, ready⟩
  rcases Bool.and_eq_true_iff.mp ready with ⟨isRule, set⟩
  rcases decide_eq_true_eq.mp isRule with ⟨calculates, target⟩
  rcases exists_ok_of_any set with ⟨outcome, done, set⟩
  rcases decide_eq_true_eq.mp set with ⟨cleanToo, member, stale⟩
  refine ⟨form, outcome, rule, built, entered, calculates, done, fun reevaluates => stale ?_⟩
  exact ((Definition.filledIn_calculation_iff built rfl answers entered calculates).2 _
    (.initial clean) _ _ _ free done cleanToo _ member target).mpr (.inl reevaluates)

/-- When a price changes, the sum is added up anew only in the item of that
price. -/
theorem receipt_stale : ∃ form outcome rule,
    Order.receipt.form .standard .standard .startOf2020 none = .ok form ∧
    form.initial.report.failures = [] ∧ form.engine.rulebook.Sole .answer ∧
    form.IsFree (Order.ofItem 0 "price") ∧
    form.initial.form.setAnswer (Order.ofItem 0 "price") (some (.int 11)) = .ok outcome ∧
    outcome.report.failures = [] ∧
    form.engine.rulebook.rule? 0 = some rule ∧ rule.effect = .calculate ∧
    Order.ofItem 1 "share" ∈ outcome.form.tree.references ∧
    (Order.ofItem 1 "share").genericize = rule.target ∧
    outcome.form.answer? (Order.ofItem 1 "share") = some (.int 30) ∧
    ∃ result, Expression.evaluate .startOf2020 outcome.form.tree (Order.ofItem 1 "share")
      rule.expression = .ok result ∧ answerFrom result .int = .ok (some (.int 31)) := by
  have stale : (Order.receipt.form .standard .standard .startOf2020 none).toOption.any
      (fun form => decide (form.initial.report.failures = [] ∧
          form.engine.rulebook.Sole .answer ∧ form.IsFree (Order.ofItem 0 "price")) &&
        (form.initial.form.setAnswer (Order.ofItem 0 "price") (some (.int 11))).toOption.any
          fun outcome => decide (outcome.report.failures = []) &&
            (form.engine.rulebook.rule? 0).any fun rule => decide (rule.effect = .calculate ∧
              Order.ofItem 1 "share" ∈ outcome.form.tree.references ∧
              (Order.ofItem 1 "share").genericize = rule.target ∧
              outcome.form.answer? (Order.ofItem 1 "share") = some (.int 30)) &&
              (Expression.evaluate .startOf2020 outcome.form.tree (Order.ofItem 1 "share")
                rule.expression).toOption.any fun result =>
                  decide (answerFrom result .int = .ok (some (.int 31)))) = true := by
    decide +kernel
  rcases exists_ok_of_any stale with ⟨form, built, stale⟩
  rcases Bool.and_eq_true_iff.mp stale with ⟨isReady, set⟩
  rcases decide_eq_true_eq.mp isReady with ⟨clean, answers, free⟩
  rcases exists_ok_of_any set with ⟨outcome, done, set⟩
  rcases Bool.and_eq_true_iff.mp set with ⟨isClean, isRule⟩
  rcases (Option.any_eq_true _ _).mp isRule with ⟨rule, entered, isRule⟩
  rcases Bool.and_eq_true_iff.mp isRule with ⟨isKept, evaluates⟩
  rcases decide_eq_true_eq.mp isKept with ⟨calculates, member, target, kept⟩
  rcases exists_ok_of_any evaluates with ⟨result, evaluated, isNew⟩
  exact ⟨form, outcome, rule, built, clean, answers, free, done, decide_eq_true_eq.mp isClean,
    entered, calculates, member, target, kept, result, evaluated, decide_eq_true_eq.mp isNew⟩

end ReactiveForm
