import ReactiveForm.Proofs.Upholding

/-! What an edit leaves at the node that it changes. No rule that fires because
of it writes there, so the node keeps the answer that it was given. It may only
lose it to a rule that reads the answer and hides the node because of it. -/

namespace ReactiveForm

/-- A report tells that the answer of a node was dropped. -/
def Report.drops (report : Report) (reference : Reference) : Bool :=
  report.updates.any fun update =>
    match update.change with
    | .cleared => update.target == reference
    | _ => false

theorem Report.drops_iff {report : Report} {reference : Reference} :
    report.drops reference = true ↔ ∃ rule, ⟨rule, reference, .cleared⟩ ∈ report.updates := by
  rw [drops, List.any_eq_true]
  constructor
  · rintro ⟨⟨rule, target, change⟩, member, isDrop⟩
    split at isDrop
    next cleared =>
      cases cleared
      cases eq_of_beq isDrop
      exact ⟨rule, member⟩
    next => cases isDrop
  · rintro ⟨rule, member⟩
    exact ⟨_, member, beq_self_eq_true reference⟩

theorem Report.drops_of_silent {before after : Report} {news : List Update} {reference : Reference}
    (updates : after.updates = before.updates ++ news)
    (silent : ∀ update ∈ news, update.touch ≠ .answer reference) :
    after.drops reference = before.drops reference := by
  rw [Bool.eq_iff_iff, drops_iff, drops_iff, updates]
  refine exists_congr fun rule => ⟨fun member => ?_, List.mem_append_left news⟩
  rcases List.mem_append.mp member with old | new
  · exact old
  · exact absurd rfl (silent _ new)

namespace Engine

variable {engine : Engine} {tree : AnswerTree} {reference : Reference} {value : Option Value}

structure DroppedByReader (engine : Engine) (reference : Reference) (current : Option Value)
    (pass : Pass) : Prop where
  had : current.isSome = true
  gone : pass.tree.held .answer reference = some none
  clears : engine.settings.hiddenAnswers = .clear
  reader : ∃ number rule, engine.rulebook.rule? number = some rule ∧ rule.effect = .relevant ∧
    rule.target.covers reference.genericize = true ∧ rule.isTriggeredBy reference = true ∧
    ⟨some number, reference, .cleared⟩ ∈ pass.report.updates

/-- How a node that an edit has changed fares while the change spreads. -/
structure Persists (engine : Engine) (reference : Reference) (current : Option Value)
    (begun pass : Pass) : Prop where
  shape : pass.tree.SameShape begun.tree
  type : pass.tree.held .type reference = begun.tree.held .type reference
  updates : begun.report.updates <+: pass.report.updates
  answer : pass.tree.held .answer reference = some current ∧ pass.report.drops reference = false ∨
    engine.DroppedByReader reference current pass
  fired : ∀ number ∈ pass.report.fired, ∀ rule, engine.rulebook.rule? number = some rule →
    rule.effect.writesAnswer = true → rule.target ≠ reference.genericize

theorem Persists.act {current : Option Value} {begun before after : Pass}
    (persists : engine.Persists reference current begun before) (wired : engine.IsWired)
    {number : Nat} (affected : number ∈
      engine.dependencies.affectedBy (engine.directlyTriggered [.answer reference]))
    {rule : Rule} (entered : engine.rulebook.rule? number = some rule)
    (absolute : reference.origin = .absolute) {target : Reference}
    (belongs : target.genericize = rule.target) {more : List Touch} {news : List Update}
    (act : Act engine.settings number rule.effect target before after more news) :
    engine.Persists reference current begun after := by
  have later : before.report.updates ⊆ after.report.updates := by
    rw [act.updates]
    exact List.subset_append_left _ _
  refine ⟨act.shape.trans persists.shape, (act.type reference).trans persists.type, ?_, ?_, ?_⟩
  · rw [act.updates]
    exact persists.updates.trans (List.prefix_append _ _)
  · cases act.fate reference with
    | stays same silent =>
        rcases persists.answer with ⟨held, unsaid⟩ | dropped
        · exact .inl ⟨same.trans held, (Report.drops_of_silent act.updates silent).trans unsaid⟩
        · rcases dropped.reader with ⟨other, reader, isReader, hides, covers, reads, told⟩
          exact .inr ⟨dropped.had, same.trans dropped.gone, dropped.clears,
            other, reader, isReader, hides, covers, reads, later told⟩
    | written writes here told =>
        rw [← here] at belongs
        exact absurd belongs.symm (wired.not_writes_edited affected entered writes)
    | dropped hides clears below had gone told only =>
        right
        refine ⟨?_, gone, clears, number, rule, entered, hides, ?_, ?_, ?_⟩
        · rcases persists.answer with ⟨held, -⟩ | dropped
          · rwa [AnswerTree.answer?_eq_held, held] at had
          · exact dropped.had
        · rcases below with ⟨lower, inside⟩
          rw [← belongs]
          refine Reference.covers_of_inside ?_ absolute inside.symm
          have isAbsolute := (wired.bound entered).target.absolute
          rwa [← belongs] at isAbsolute
        · exact wired.reads_of_hides_edited affected entered hides belongs absolute below
        · rw [act.updates]
          exact List.mem_append_right _ told
  · rw [act.fired]
    exact persists.fired

theorem IsWired.upholds_persists (wired : engine.IsWired) (absolute : reference.origin = .absolute)
    (current : Option Value) (begun : Pass) :
    engine.Upholds
      (· ∈ engine.dependencies.affectedBy (engine.directlyTriggered [.answer reference]))
      (engine.Persists reference current begun) fun _ => True := by
  refine ⟨fun {pass number} affected persists => ?_, fun number target reason persists => ?_,
    fun _ _ _ _ _ _ => trivial, fun persists affected entered _ belongs act =>
      ⟨persists.act wired affected entered absolute belongs act, fun _ _ => trivial⟩⟩
  · refine ⟨persists.shape, persists.type, persists.updates, persists.answer.imp_right ?_, ?_⟩
    · exact fun dropped => ⟨dropped.had, dropped.gone, dropped.clears, dropped.reader⟩
    · refine List.forall_mem_append.mpr ⟨persists.fired, List.forall_mem_singleton.mpr ?_⟩
      exact fun rule => wired.not_writes_edited affected
  · refine ⟨persists.shape, persists.type, persists.updates, persists.answer.imp_right ?_,
      persists.fired⟩
    exact fun dropped => ⟨dropped.had, dropped.gone, dropped.clears, dropped.reader⟩

theorem IsWired.setAnswer_persists (wired : engine.IsWired) {node : Node}
    (found : tree.find? reference = some node) (previous current : Option Value) :
    engine.Persists reference current (edited tree reference previous current)
      (engine.propagate [.answer reference] [] (edited tree reference previous current)).1 := by
  have absolute := (AnswerTree.isPlace_of_find? found).absolute
  refine ((wired.upholds_persists absolute current _).sustains wired).confines.propagate
    (fun _ affected => affected) (fun _ _ => trivial) []
    ⟨.refl _, rfl, List.prefix_refl _, .inl ⟨?_, rfl⟩, ?_⟩
  · have isLocal : Node.Local (·.withFacts ({ · with answer := current })) :=
      Node.withFacts_local (fun _ => rfl) fun _ => rfl
    rw [AnswerTree.held, edited, Pass.noteUpdate, Pass.start, AnswerTree.changeFacts,
      AnswerTree.find?_change_self isLocal.keeps, found]
    rfl
  · exact List.forall_mem_nil _

theorem IsWired.updates_ne_nil (wired : engine.IsWired) {node : Node}
    (found : tree.find? reference = some node) (previous current : Option Value) :
    (engine.propagate [.answer reference] []
      (edited tree reference previous current)).1.report.updates ≠ [] := by
  intro nothing
  have begun := (wired.setAnswer_persists found previous current).updates
  rw [nothing] at begun
  exact absurd (List.prefix_nil.mp begun) (List.cons_ne_nil _ _)

theorem Persists.exists_node {previous current : Option Value} {pass : Pass}
    (persists : engine.Persists reference current (edited tree reference previous current) pass)
    {node : Node} (found : tree.find? reference = some node) :
    ∃ later, pass.tree.find? reference = some later ∧ later.facts.type = node.facts.type ∧
      (later.facts.answer = current ∧ pass.report.drops reference = false ∨
        later.facts.answer = none ∧ engine.DroppedByReader reference current pass) := by
  have type : pass.tree.held .type reference = tree.held .type reference := by
    rw [persists.type, held_edited _ _ _ _ (.inl Field.noConfusion)]
  rcases AnswerTree.exists_of_held_type type found with ⟨later, foundLater, sameType⟩
  have holds : pass.tree.held .answer reference = some later.facts.answer := by
    rw [AnswerTree.held, foundLater]
    rfl
  refine ⟨later, foundLater, sameType, persists.answer.imp ?_ ?_⟩
  · rintro ⟨held, unsaid⟩
    exact ⟨Option.some.inj (holds.symm.trans held), unsaid⟩
  · intro dropped
    exact ⟨Option.some.inj (holds.symm.trans dropped.gone), dropped⟩

theorem DroppedByReader.drops {current : Option Value} {pass : Pass}
    (dropped : engine.DroppedByReader reference current pass) :
    pass.report.drops reference = true := by
  rcases dropped.reader with ⟨number, rule, -, -, -, -, told⟩
  exact Report.drops_iff.mpr ⟨_, told⟩

theorem editedAnswer_of_blank {type : ValueType} {current : Option Value}
    (blank : ∀ given ∈ value, given.isBlank = true)
    (cast : editedAnswer value type = .ok current) : current = none := by
  cases value with
  | none => exact (Except.ok.inj cast).symm
  | some given =>
      rw [editedAnswer, answerFrom, blank given rfl] at cast
      exact (Except.ok.inj cast).symm

theorem editedAnswer_of_filled {given : Value} {type : ValueType} {current : Option Value}
    (filled : given.isBlank = false) (cast : editedAnswer (some given) type = .ok current) :
    ∃ result, given.cast type = .ok result ∧ current = some result := by
  rw [editedAnswer, answerFrom, filled] at cast
  rcases map_eq_ok.mp cast with ⟨result, isResult, rfl⟩
  exact ⟨result, isResult, rfl⟩

end Engine

namespace Form

variable {form : Form} {reference : Reference} {value : Option Value}

theorem setAnswer_of_ok {pass : Pass}
    (set : form.engine.setAnswer form.tree reference value = .ok pass) :
    form.setAnswer reference value = .ok (form.after pass) := by
  rw [Form.setAnswer, set]

/-- An edit leaves an answer that is already there, or it changes the answer and
the change spreads. -/
theorem exists_of_setAnswer (wired : form.engine.IsWired) {outcome : Outcome}
    (done : form.setAnswer reference value = .ok outcome) :
    reference.entersTemplate = false ∧ ∃ node current, form.tree.find? reference = some node ∧
      Engine.editedAnswer value node.facts.type = .ok current ∧
      (sameAnswer node.facts.answer current = true ∧ outcome = ⟨form, .empty, []⟩ ∨
        sameAnswer node.facts.answer current = false ∧ ∃ pass, outcome = form.after pass ∧
          form.engine.Persists reference current
            (Engine.edited form.tree reference node.facts.answer current) pass) := by
  rcases setAnswer_ok done with ⟨pass, set, rfl⟩
  rcases Engine.exists_of_setAnswer set with ⟨outside, node, current, found, cast, after⟩
  refine ⟨outside, node, current, found, cast, ?_⟩
  cases same : sameAnswer node.facts.answer current with
  | true =>
      rw [same, if_pos rfl] at after
      rw [after]
      exact .inl ⟨rfl, rfl⟩
  | false =>
      rw [same, if_neg Bool.false_ne_true] at after
      rw [after]
      exact .inr ⟨rfl, _, rfl, wired.setAnswer_persists found _ current⟩

theorem Reached.settings_eq {definition : Definition} {constructors : Constructors}
    {settings : Settings} {material : Material} {evaluator : Evaluator}
    {saved : Option AnswerTree} {current : Form}
    (made : definition.material constructors settings = .ok material)
    (built : Form.build material evaluator saved = .ok form) (reached : form.Reached current) :
    current.engine.settings = settings := by
  rcases Form.build_ok built with ⟨-, dependencies, -, engine⟩
  rw [reached.engine_eq, engine]
  exact (Definition.material_ok made).2.2

end Form

/-! The edit made again. -/

/-- An edit that is made a second time changes nothing, exactly if the first did
not drop the answer in the end. If it did, then hidden answers are dropped, and a
rule that reads the answer has hidden its node. -/
theorem Definition.setAnswer_again_iff {definition : Definition} {constructors : Constructors}
    {settings : Settings} {material : Material} {evaluator : Evaluator}
    {saved : Option AnswerTree} {form : Form}
    (made : definition.material constructors settings = .ok material)
    (built : Form.build material evaluator saved = .ok form) {current : Form}
    (reached : form.Reached current) {reference : Reference} {value : Option Value}
    {outcome : Outcome} (done : current.setAnswer reference value = .ok outcome) :
    ∃ again, outcome.form.setAnswer reference value = .ok again ∧
      (again = ⟨outcome.form, .empty, []⟩ ↔ outcome.report.drops reference = false) ∧
      (outcome.report.drops reference = true → settings.hiddenAnswers = .clear ∧
        ∃ number rule, form.engine.rulebook.rule? number = some rule ∧ rule.effect = .relevant ∧
          rule.target.covers reference.genericize = true ∧
          rule.isTriggeredBy reference = true ∧
          ⟨some number, reference, .cleared⟩ ∈ outcome.report.updates) := by
  have wired := Form.build_isWired (Definition.rules_isMade (Definition.material_ok made).2.1) built
  have wiredToo := reached.isWired wired
  rcases Form.exists_of_setAnswer wiredToo done with ⟨outside, node, answer, found, cast, cases⟩
  rcases cases with ⟨same, rfl⟩ | ⟨differs, pass, rfl, persists⟩
  · have set : current.engine.setAnswer current.tree reference value = .ok _ :=
      Engine.setAnswer_of_found outside found cast
    rw [if_pos same] at set
    exact ⟨_, Form.setAnswer_of_ok set, iff_of_true rfl rfl, fun dropped => nomatch dropped⟩
  · rcases persists.exists_node found with ⟨later, foundLater, sameType, fate⟩
    have castLater : Engine.editedAnswer value later.facts.type = .ok answer := by
      rw [sameType]
      exact cast
    have set : (current.after pass).form.engine.setAnswer pass.tree reference value = .ok _ :=
      Engine.setAnswer_of_found outside foundLater castLater
    refine ⟨_, Form.setAnswer_of_ok set, ?_⟩
    rcases fate with ⟨answered, unsaid⟩ | ⟨unanswered, dropped⟩
    · refine ⟨iff_of_true ?_ unsaid, fun drops => ?_⟩
      · rw [answered, if_pos (sameAnswer_self answer)]
        rfl
      · exact absurd drops (by rw [Form.after, unsaid]; exact Bool.false_ne_true)
    · refine ⟨iff_of_false (fun unchanged => ?_) ?_, fun _ => ?_⟩
      · -- The answer is written anew, and that is told.
        rcases Option.isSome_iff_exists.mp dropped.had with ⟨given, rfl⟩
        rw [unanswered, if_neg (by exact Bool.false_ne_true)] at unchanged
        exact wiredToo.updates_ne_nil foundLater none (some given)
          (congrArg (·.report.updates) unchanged)
      · rw [Bool.not_eq_false]
        exact dropped.drops
      · rcases dropped.reader with ⟨number, rule, entered, reader⟩
        rw [reached.rulebook] at entered
        have clears := dropped.clears
        rw [reached.settings_eq made built] at clears
        exact ⟨clears, number, rule, entered, reader⟩

/-! A parcel that is packed unless it is too large. -/

namespace Order

def packing : Definition where
  id := none
  title := "packing"
  skeleton :=
    { Skeleton.ofName "data" with
      children := [{ Skeleton.ofName "box" with
        children := [{ Skeleton.ofName "size" with type := .int }] }] }
  binds := [{ Bind.ofTarget (every ["box"]) with
    relevant := some (.binary .lt (.answer (every ["box", "size"])) (.literal (.int 10))) }]

def boxSize : Reference :=
  .absolute [⟨"data", .index 0⟩, ⟨"box", .index 0⟩, ⟨"size", .index 0⟩]

end Order

/-- A small size can be given twice. -/
theorem packing_setAnswer_again : ∃ material form outcome,
    Order.packing.material .standard ⟨.clear, true⟩ = .ok material ∧
    Form.build material (Expression.evaluator .startOf2020) none = .ok form ∧
    form.initial.form.setAnswer Order.boxSize (some (.text "5")) = .ok outcome ∧
    outcome.form.answer? Order.boxSize = some (.int 5) ∧
    outcome.form.setAnswer Order.boxSize (some (.text "5")) = .ok ⟨outcome.form, .empty, []⟩ := by
  have ready : (Order.packing.material .standard ⟨.clear, true⟩).toOption.any (fun material =>
      (Form.build material (Expression.evaluator .startOf2020) none).toOption.any fun form =>
        (form.initial.form.setAnswer Order.boxSize (some (.text "5"))).toOption.any fun outcome =>
          decide (outcome.form.answer? Order.boxSize = some (.int 5) ∧
            outcome.report.drops Order.boxSize = false)) = true := by
    decide +kernel
  rcases exists_ok_of_any ready with ⟨material, made, ready⟩
  rcases exists_ok_of_any ready with ⟨form, built, ready⟩
  rcases exists_ok_of_any ready with ⟨outcome, done, ready⟩
  rcases decide_eq_true_eq.mp ready with ⟨answer, unsaid⟩
  rcases Definition.setAnswer_again_iff made built (.initial form) done with
    ⟨again, repeated, same, -⟩
  rw [same.mpr unsaid] at repeated
  exact ⟨material, form, outcome, made, built, done, answer, repeated⟩

/-- A size that is too large is dropped at once, since it hides the box. Given
again it is written once more, and then it stays. -/
theorem packing_setAnswer_again_changes : ∃ material form outcome again,
    Order.packing.material .standard ⟨.clear, true⟩ = .ok material ∧
    Form.build material (Expression.evaluator .startOf2020) none = .ok form ∧
    form.Reached form.initial.form ∧
    form.initial.form.setAnswer Order.boxSize (some (.int 20)) = .ok outcome ∧
    outcome.report.failures = [] ∧ outcome.form.answer? Order.boxSize = none ∧
    outcome.form.setAnswer Order.boxSize (some (.int 20)) = .ok again ∧
    again.report.isEmpty = false ∧ again.report.fired = [0] ∧
    again.form.answer? Order.boxSize = some (.int 20) := by
  have twice : (Order.packing.material .standard ⟨.clear, true⟩).toOption.any (fun material =>
      (Form.build material (Expression.evaluator .startOf2020) none).toOption.any fun form =>
        (form.initial.form.setAnswer Order.boxSize (some (.int 20))).toOption.any fun outcome =>
          decide (outcome.report.failures = [] ∧ outcome.form.answer? Order.boxSize = none) &&
          (outcome.form.setAnswer Order.boxSize (some (.int 20))).toOption.any fun again =>
            decide (again.report.isEmpty = false ∧ again.report.fired = [0] ∧
              again.form.answer? Order.boxSize = some (.int 20))) = true := by
    decide +kernel
  rcases exists_ok_of_any twice with ⟨material, made, twice⟩
  rcases exists_ok_of_any twice with ⟨form, built, twice⟩
  rcases exists_ok_of_any twice with ⟨outcome, done, twice⟩
  rcases Bool.and_eq_true_iff.mp twice with ⟨first, second⟩
  rcases decide_eq_true_eq.mp first with ⟨clean, dropped⟩
  rcases exists_ok_of_any second with ⟨again, repeated, second⟩
  rcases decide_eq_true_eq.mp second with ⟨busy, fired, answer⟩
  exact ⟨material, form, outcome, again, made, built, .initial form, done, clean, dropped, repeated,
    busy, fired, answer⟩

/-! The edit itself. -/

theorem sameAnswer_none {answer : Option Value} (same : sameAnswer answer none = true) :
    answer = none := by
  cases answer with
  | none => rfl
  | some _ => cases same

/-- Where hidden answers are kept, an edit is never lost. Whatever fires because
of it, the node then holds the value that was given, cast to its type, or nothing
if the value is blank or missing; an answer that was the same already stays. No
rule that fires writes the node. -/
theorem Definition.setAnswer_held {definition : Definition} {constructors : Constructors}
    {settings : Settings} {material : Material} {evaluator : Evaluator}
    {saved : Option AnswerTree} {form : Form}
    (made : definition.material constructors settings = .ok material)
    (retain : settings.hiddenAnswers = .retain)
    (built : Form.build material evaluator saved = .ok form) {current : Form}
    (reached : form.Reached current) {reference : Reference} {value : Option Value}
    {outcome : Outcome} (done : current.setAnswer reference value = .ok outcome) :
    ∃ before after, current.tree.find? reference = some before ∧
      outcome.form.tree.find? reference = some after ∧
      after.facts.type = before.facts.type ∧
      ((∀ given ∈ value, given.isBlank = true) → after.facts.answer = none) ∧
      (∀ given ∈ value, given.isBlank = false →
        ∃ cast, given.cast before.facts.type = .ok cast ∧
          after.facts.answer =
            if sameAnswer before.facts.answer (some cast) then before.facts.answer
            else some cast) ∧
      ∀ number ∈ outcome.report.fired, ∀ rule, form.engine.rulebook.rule? number = some rule →
        rule.effect.writesAnswer = true → rule.target ≠ reference.genericize := by
  have wired := reached.isWired
    (Form.build_isWired (Definition.rules_isMade (Definition.material_ok made).2.1) built)
  rcases Form.exists_of_setAnswer wired done with ⟨outside, before, answer, found, cast, cases⟩
  -- The node afterwards, before anything is said of what was asked for.
  have held : ∃ after, outcome.form.tree.find? reference = some after ∧
      after.facts.type = before.facts.type ∧
      after.facts.answer =
        (if sameAnswer before.facts.answer answer then before.facts.answer else answer) ∧
      ∀ number ∈ outcome.report.fired, ∀ rule, form.engine.rulebook.rule? number = some rule →
        rule.effect.writesAnswer = true → rule.target ≠ reference.genericize := by
    rcases cases with ⟨same, rfl⟩ | ⟨differs, pass, rfl, persists⟩
    · exact ⟨before, found, rfl, (if_pos same).symm, fun _ nothing => nomatch nothing⟩
    · rcases persists.exists_node found with ⟨after, foundAfter, sameType, fate⟩
      have fired := persists.fired
      rw [reached.rulebook] at fired
      refine ⟨after, foundAfter, sameType, ?_, fired⟩
      rcases fate with ⟨answered, -⟩ | ⟨-, dropped⟩
      · rw [differs]
        exact answered
      · have clears := dropped.clears
        rw [reached.settings_eq made built, retain] at clears
        cases clears
  rcases held with ⟨after, foundAfter, sameType, holds, fired⟩
  refine ⟨before, after, found, foundAfter, sameType, fun blank => ?_,
    fun given isGiven filled => ?_, fired⟩
  · rw [holds, Engine.editedAnswer_of_blank blank cast]
    split
    next same => exact sameAnswer_none same
    next => rfl
  · cases isGiven
    rcases Engine.editedAnswer_of_filled filled cast with ⟨result, isResult, rfl⟩
    exact ⟨result, isResult, holds⟩

/-- A size that is too large hides the box, and is kept. -/
theorem packing_setAnswer_held : ∃ material form outcome after,
    Order.packing.material .standard .standard = .ok material ∧
    Form.build material (Expression.evaluator .startOf2020) none = .ok form ∧
    form.initial.form.setAnswer Order.boxSize (some (.text "20")) = .ok outcome ∧
    outcome.form.tree.find? Order.boxSize = some after ∧
    after.facts.underRelevant = false ∧ after.facts.answer = some (.int 20) := by
  have ready : (Order.packing.material .standard .standard).toOption.any (fun material =>
      (Form.build material (Expression.evaluator .startOf2020) none).toOption.any fun form =>
        (form.initial.form.tree.find? Order.boxSize).any (fun node =>
          decide (node.facts.answer = none ∧ node.facts.type = .int)) &&
        (form.initial.form.setAnswer Order.boxSize (some (.text "20"))).toOption.any fun outcome =>
          (outcome.form.tree.find? Order.boxSize).any fun node =>
            decide (node.facts.underRelevant = false)) = true := by
    decide +kernel
  have cast : (Value.text "20").cast .int = .ok (.int 20) := by decide +kernel
  rcases exists_ok_of_any ready with ⟨material, made, ready⟩
  rcases exists_ok_of_any ready with ⟨form, built, ready⟩
  rcases Bool.and_eq_true_iff.mp ready with ⟨isBefore, ready⟩
  rcases (Option.any_eq_true _ _).mp isBefore with ⟨node, foundNode, isBefore⟩
  rcases decide_eq_true_eq.mp isBefore with ⟨unanswered, type⟩
  rcases exists_ok_of_any ready with ⟨outcome, done, ready⟩
  rcases (Option.any_eq_true _ _).mp ready with ⟨later, foundLater, hidden⟩
  rcases Definition.setAnswer_held made rfl built (.initial form) done with
    ⟨before, after, found, foundAfter, -, -, given, -⟩
  rw [found] at foundNode
  cases foundNode
  rw [foundAfter] at foundLater
  cases foundLater
  rcases given _ rfl rfl with ⟨result, isResult, holds⟩
  rw [type, cast] at isResult
  cases isResult
  rw [unanswered] at holds
  exact ⟨material, form, outcome, later, made, built, done, foundAfter,
    decide_eq_true_eq.mp hidden, holds⟩

end ReactiveForm
