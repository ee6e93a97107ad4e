import ReactiveForm.Proofs.Awaiting
import ReactiveForm.Proofs.FiringOrder
import ReactiveForm.Proofs.Footprint

/-! Which rules fire after an edit, and what they leave alone. All rules that read the
answer, or are led to by one that does, fire once and in their order, but for those that
wait for an answer that nothing is reported of. What is neither edited nor governed by one
of them is held still. -/

namespace ReactiveForm

namespace Dependencies

variable {dependencies : Dependencies} {book : Rulebook}

theorem Orders.pairwise_rank (orders : dependencies.Orders book) :
    dependencies.order.Pairwise fun earlier later => ∃ rank beyond,
      dependencies.rank? earlier = some rank ∧ dependencies.rank? later = some beyond ∧
        rank < beyond := by
  rw [List.pairwise_iff_getElem]
  intro early late inOrder inOrderToo before
  exact ⟨early, late, orders.rank?_eq_some_iff.mpr (List.getElem?_eq_getElem inOrder),
    orders.rank?_eq_some_iff.mpr (List.getElem?_eq_getElem inOrderToo), before⟩

end Dependencies

namespace Engine

variable {engine : Engine} {number : Nat} {rule : Rule} {origin : Reference} {numbers : List Nat}
  {spread : Spread}

/-- Does a rule wait for an answer of which a report says no change? -/
def waitsInVain (engine : Engine) (report : Report) (number : Nat) : Bool :=
  match (engine.rulebook.rule? number).map Rule.effect with
  | some (.setValue (.valueChanged source)) => !report.changesAnswer source
  | _ => false

/-! Turns. -/

theorem subset_fired_foldl_turn (engine : Engine) (origin : Reference) (numbers : List Nat)
    (spread : Spread) : spread.fired ⊆ (numbers.foldl (engine.turn origin) spread).fired := by
  rcases engine.exists_fired_foldl_turn origin numbers spread with ⟨later, -, fired⟩
  rw [fired]
  exact List.subset_append_left _ _

theorem mem_fired_foldl_turn (member : number ∈ numbers)
    (entered : engine.rulebook.rule? number = some rule) (always : rule.waitsForAnswer = false) :
    number ∈ (numbers.foldl (engine.turn origin) spread).fired := by
  induction numbers generalizing spread with
  | nil => cases member
  | cons first numbers induction =>
      rcases List.mem_cons.mp member with rfl | later
      · apply engine.subset_fired_foldl_turn origin numbers
        rcases engine.turn_cases origin spread number with ⟨same, idle⟩ | ⟨_, -, -, -, turned⟩
        · rw [same]
          refine idle.resolve_right fun silent => ?_
          rw [(silent rule entered).1] at always
          cases always
        · rw [turned]
          exact List.mem_append_right _ List.mem_cons_self
      · exact induction later

theorem foldl_turn_stillBut
    (bound : ∀ {number rule}, engine.rulebook.rule? number = some rule → rule.IsBound)
    (origin : Reference) (numbers : List Nat) (spread : Spread) :
    StillBut (engine.Governs (numbers.foldl (engine.turn origin) spread).fired)
      spread.pass.tree.entries (numbers.foldl (engine.turn origin) spread).pass.tree.entries := by
  induction numbers generalizing spread with
  | nil => exact .refl _ _
  | cons number numbers induction =>
      have turned := turn_stillBut bound origin spread number
      refine StillBut.trans (turned.mono fun place governs => ?_)
        (induction (engine.turn origin spread number))
      rcases governs with ⟨other, isFired, governs⟩
      exact ⟨other, engine.subset_fired_foldl_turn origin numbers _ isFired, governs⟩

/-! Edits. -/

namespace IsWired

theorem affectedBy_sublist (wired : engine.IsWired) (reference : Reference) :
    (engine.dependencies.affectedBy (engine.rulebook.triggeredBy reference)).Sublist
      engine.dependencies.order := by
  have reaches := directlyTriggered_reaches wired.indexed wired.orders [.answer reference]
  rw [directlyTriggered_answer] at reaches
  exact reaches.ordered

end IsWired

end Engine

namespace Form

variable {form : Form} {reference : Reference} {value : Option Value} {outcome : Outcome}

theorem exists_spread_of_setAnswer (done : form.setAnswer reference value = .ok outcome)
    (busy : outcome.report.isEmpty = false) :
    ∃ node current, form.tree.find? reference = some node ∧
      let spread := (form.engine.dependencies.affectedBy
        (form.engine.directlyTriggered [.answer reference])).foldl (form.engine.turn reference)
          ⟨Engine.edited form.tree reference node.facts.answer current, [], [.answer reference]⟩
      outcome = form.after spread.pass ∧ spread.fired = outcome.report.fired := by
  rcases setAnswer_ok done with ⟨pass, set, rfl⟩
  rcases Engine.exists_of_setAnswer set with ⟨-, node, current, found, -, rfl⟩
  split at busy
  · cases busy
  next differs =>
    refine ⟨node, current, found, by rw [if_neg differs]; rfl, ?_⟩
    have begun : Engine.IsReported
        ⟨Engine.edited form.tree reference node.facts.answer current, [], [.answer reference]⟩ :=
      ⟨rfl, List.Subset.refl _⟩
    rw [if_neg differs]
    exact (begun.foldl_turn form.engine reference _).fired

theorem fired_of_setAnswer (wired : form.engine.IsWired)
    (made : ∀ {number rule}, form.engine.rulebook.rule? number = some rule → rule.IsMade)
    (done : form.setAnswer reference value = .ok outcome)
    (busy : outcome.report.isEmpty = false) :
    outcome.report.fired =
      (form.engine.dependencies.affectedBy (form.engine.rulebook.triggeredBy reference)).filter
        fun number => !form.engine.waitsInVain outcome.report number := by
  rcases exists_spread_of_setAnswer done busy with ⟨node, current, -, -, fired⟩
  rw [Engine.directlyTriggered_answer] at fired
  have ordered := wired.affectedBy_sublist reference
  have part : outcome.report.fired.Sublist
      (form.engine.dependencies.affectedBy (form.engine.rulebook.triggeredBy reference)) := by
    rcases form.engine.exists_fired_foldl_turn reference _ _ with ⟨later, part, turns⟩
    rwa [← fired, turns]
  have nodup := ordered.nodup wired.orders.forward.nodup
  -- What has fired stands in the order of the affected rules, so that its members tell it.
  refine (filter_mem_of_sublist part nodup).symm.trans (List.filter_congr fun number member => ?_)
  have below := wired.orders.mem_order.mp (ordered.subset member)
  have entered : form.engine.rulebook.rule? number =
      some form.engine.rulebook.rules[number] := List.getElem?_eq_getElem below
  generalize form.engine.rulebook.rules[number] = rule at entered
  rw [Engine.waitsInVain, entered, Option.map_some, Bool.eq_iff_iff, decide_eq_true_iff]
  split
  next source waits =>
    have waits := Option.some.inj waits
    have waiting : rule.waitsForAnswer = true := by rw [Rule.waitsForAnswer, waits]
    have changes := Report.changesAnswer_iff (made entered) waits outcome.report
    rw [Bool.not_not, changes]
    refine ⟨fun isFired => ?_,
      fun called => mem_fired_of_setAnswer wired done entered waiting called⟩
    have heeds : form.engine.Heeds outcome.pass :=
      @perform_heeds form (.setAnswer reference value) outcome done
    exact heeds number isFired rule entered waiting
  next always =>
    have always : rule.waitsForAnswer = false := by
      rw [Rule.waitsForAnswer]
      split
      next source waits => exact absurd (congrArg some waits) (always source)
      next => rfl
    rw [← fired]
    simpa using Engine.mem_fired_foldl_turn member entered always

/-- What an edit changes is the answer itself, or governed by a rule that has fired. -/
theorem stillBut_of_setAnswer (wired : form.engine.IsWired)
    (done : form.setAnswer reference value = .ok outcome)
    (busy : outcome.report.isEmpty = false) :
    StillBut (fun place => place = reference ∨ form.engine.Governs outcome.report.fired place)
      form.tree.entries outcome.form.tree.entries := by
  rcases exists_spread_of_setAnswer done busy with ⟨node, current, -, rfl, fired⟩
  have edited : StillBut (· = reference) form.tree.entries
      (Engine.edited form.tree reference node.facts.answer current).tree.entries :=
    AnswerTree.change_stillBut form.tree (fun _ => ⟨rfl, rfl⟩) fun _ found =>
      @Node.StaysBut.withFacts (· = reference) reference rfl found _
  have spread := Engine.foldl_turn_stillBut wired.bound reference
    (form.engine.dependencies.affectedBy (form.engine.directlyTriggered [.answer reference]))
    ⟨Engine.edited form.tree reference node.facts.answer current, [], [.answer reference]⟩
  rw [fired] at spread
  exact (edited.mono fun _ same => .inl same).trans (spread.mono fun _ governs => .inr governs)

end Form

/-- In every form that a definition makes, over saved answers or not, and after any
requests: when an edit is reported, all rules that read the answer, or are led to by one
that does, have fired, but for those that wait for an answer that the report knows no
change of. They have fired in ascending order of their ranks, and so each of them once and
none before what it reads. What a node holds by itself has changed only where the edit was,
at a target of a rule that has fired, or below the target of one that hides nodes, if their
answers are dropped. -/
theorem Definition.setAnswer_visits {definition : Definition} {constructors : Constructors}
    {settings : Settings} {material : Material} {evaluator : Evaluator}
    {saved : Option AnswerTree} {form : Form}
    (made : definition.material constructors settings = .ok material)
    (built : Form.build material evaluator saved = .ok form) {current : Form}
    (reached : form.Reached current) {reference : Reference} {value : Option Value}
    {outcome : Outcome} (done : current.setAnswer reference value = .ok outcome)
    (busy : outcome.report.isEmpty = false) :
    outcome.report.fired =
      (current.engine.dependencies.affectedBy
        (current.engine.rulebook.triggeredBy reference)).filter
          (fun number => !current.engine.waitsInVain outcome.report number) ∧
    outcome.report.fired.Pairwise (fun earlier later =>
      earlier ∉ current.engine.dependencies.successorsOf later ∧
      ∃ rank beyond, current.engine.dependencies.rank? earlier = some rank ∧
        current.engine.dependencies.rank? later = some beyond ∧ rank < beyond) ∧
    StillBut
      (fun place => place = reference ∨ current.engine.Governs outcome.report.fired place)
      current.tree.entries outcome.form.tree.entries := by
  have areMade := rules_isMade (material_ok made).2.1
  have isMade {number : Nat} {rule : Rule}
      (entered : current.engine.rulebook.rule? number = some rule) : rule.IsMade := by
    rw [reached.rulebook] at entered
    exact Form.build_isMade areMade built entered
  have wired := reached.isWired (Form.build_isWired areMade built)
  have fired := Form.fired_of_setAnswer wired isMade done busy
  refine ⟨fired, ?_, Form.stillBut_of_setAnswer wired done busy⟩
  have part : outcome.report.fired.Sublist current.engine.dependencies.order := by
    rw [fired]
    exact (List.filter_sublist).trans (wired.affectedBy_sublist reference)
  refine ((wired.orders.pairwise.and wired.orders.pairwise_rank).sublist part).imp ?_
  rintro earlier later ⟨⟨-, apart⟩, ranked⟩
  exact ⟨fun leads => apart (wired.orders.mem_successorsOf.mp leads), ranked⟩

/-- The price is taken back. The amount cannot be computed then and stays, so that nothing
is noted. -/
theorem journal_visits : ∃ material form outcome,
    Order.journal.material .standard .standard = .ok material ∧
    Form.build material (Expression.evaluator .startOf2020) none = .ok form ∧
    form.initial.form.setAnswer (Order.ofOrder "price") none = .ok outcome ∧
    form.initial.form.engine.dependencies.affectedBy
      (form.initial.form.engine.rulebook.triggeredBy (Order.ofOrder "price")) = [0, 1] ∧
    outcome.report.fired = [0] ∧
    StillBut (fun place => place = Order.ofOrder "price" ∨
      form.initial.form.engine.Governs outcome.report.fired place)
      form.initial.form.tree.entries outcome.form.tree.entries := by
  have ready : (Order.journal.material .standard .standard).toOption.any (fun material =>
      (Form.build material (Expression.evaluator .startOf2020) none).toOption.any fun form =>
        (form.initial.form.setAnswer (Order.ofOrder "price") none).toOption.any fun outcome =>
          decide (outcome.report.isEmpty = false ∧
            form.initial.form.engine.dependencies.affectedBy
              (form.initial.form.engine.rulebook.triggeredBy (Order.ofOrder "price")) = [0, 1] ∧
            [0, 1].filter (!form.initial.form.engine.waitsInVain outcome.report ·) = [0])) =
              true := by
    decide +kernel
  rcases exists_ok_of_any ready with ⟨material, made, ready⟩
  rcases exists_ok_of_any ready with ⟨form, built, ready⟩
  rcases exists_ok_of_any ready with ⟨outcome, done, ready⟩
  rcases of_decide_eq_true ready with ⟨busy, affected, inVain⟩
  rcases Definition.setAnswer_visits made built (.initial form) done busy with
    ⟨fired, -, still⟩
  rw [affected, inVain] at fired
  exact ⟨material, form, outcome, made, built, done, affected, fired, still⟩

end ReactiveForm
