import ReactiveForm.Proofs.Isolation

/-! Rules that wait for an answer. Whatever touches an answer is reported, and a rule that
waits is moved by nothing else. So a report tells whether such a rule could fire, and
after an edit, whether it did. -/

namespace ReactiveForm

/-! Answers in reports. -/

def Update.isOfAnswer (update : Update) : Bool :=
  match update.change with
  | .answer _ _ | .cleared => true
  | _ => false

def Report.changesAnswer (report : Report) (source : Reference) : Bool :=
  report.updates.any fun update => update.isOfAnswer && source.intersects update.target

theorem Update.isAnswer_touch (update : Update) : update.touch.isAnswer = update.isOfAnswer := by
  rw [touch, isOfAnswer]
  cases update.change <;> rfl

def Rule.IsCalled (rule : Rule) (touched : List Touch) : Prop :=
  ∃ touch ∈ touched, touch.isAnswer = true ∧ rule.isTriggeredBy touch.reference = true

namespace Rule.IsCalled

variable {rule : Rule} {touched more : List Touch}

theorem mono (called : rule.IsCalled touched) (subset : touched ⊆ more) : rule.IsCalled more := by
  rcases called with ⟨touch, member, calls⟩
  exact ⟨touch, subset member, calls⟩

theorem append : rule.IsCalled (touched ++ more) ↔ rule.IsCalled touched ∨ rule.IsCalled more := by
  simp only [IsCalled, List.mem_append, or_and_right, exists_or]

end Rule.IsCalled

theorem Rule.writesAnswer_of_waits {rule : Rule} (waits : rule.waitsForAnswer = true) :
    rule.effect.writesAnswer = true := by
  rw [waitsForAnswer] at waits
  split at waits
  next source effect => rw [effect]; rfl
  next => cases waits

theorem anchorsFor_eq_nil_iff {rule : Rule} (waits : rule.waitsForAnswer = true)
    {touched : List Touch} : anchorsFor rule touched = [] ↔ ¬ rule.IsCalled touched := by
  simp [anchorsFor, waits, Rule.IsCalled, List.filter_eq_nil_iff]

/-! What is touched is reported. -/

def Pass.Reports (before after : Pass) (touched : List Touch) : Prop :=
  (after.report.updates.map Update.touch).Perm (before.report.updates.map Update.touch ++ touched)

namespace Pass.Reports

variable {before between after : Pass} {touched more : List Touch}

theorem nil (pass : Pass) : pass.Reports pass [] := by simp [Reports]

theorem trans (first : before.Reports between touched) (next : between.Reports after more) :
    before.Reports after (touched ++ more) := by
  have both := List.Perm.trans next (List.Perm.append_right more first)
  rwa [List.append_assoc] at both

end Pass.Reports

section Target

variable {settings : Settings} {number : Nat} {target : Reference} {node : Node} {effect : Effect}
  {outcome : Except EvaluationError Value} {before after : Pass} {more : List Touch}

theorem Deed.reports (deed : Deed settings number target node before effect outcome after more) :
    before.Reports after more := by
  cases deed with
  | idles | repeats => exact .nil before
  | writes | relates | requires | judges =>
      simp [Pass.Reports, Pass.noteUpdate, Pass.tell, Update.touch]
  | hides =>
      rw [Pass.Reports, Pass.noteUpdate, report_foldl_noteCleared]
      simp only [List.map_append, List.map_map, List.append_assoc]
      exact (List.perm_append_singleton _ _).append_left _

theorem Deed.changes (deed : Deed settings number target node before effect outcome after more)
    (found : before.tree.find? target = some node) :
    ∀ touch ∈ more, touch.isAnswer = true →
      touch.reference.origin = .absolute ∧ effect.Changes target touch.reference := by
  have inside := (deed.isInside found).2
  intro touch member answers
  refine ⟨(inside touch member).absolute, ?_⟩
  cases deed with
  | writes writes =>
      rw [List.mem_singleton.mp member]
      exact .inl ⟨writes, rfl⟩
  | hides => exact .inr ⟨rfl, (inside touch member).below⟩
  | idles | repeats => cases member
  | relates | requires | judges =>
      rw [List.mem_singleton.mp member] at answers
      cases answers

end Target

/-- What the work of a rule at some targets leaves: what it touched is reported, and only
its work there has touched an answer. -/
structure Effect.Worked (effect : Effect) (found : List Reference) (before after : Pass)
    (touched : List Touch) : Prop where
  reports : before.Reports after touched
  fired : after.report.fired = before.report.fired
  changes : ∀ touch ∈ touched, touch.isAnswer = true →
    touch.reference.origin = .absolute ∧ ∃ target ∈ found, effect.Changes target touch.reference

namespace Engine

variable {engine : Engine} {number : Nat} {rule : Rule} {anchors : List Reference} {pass : Pass}

theorem fireAt_worked (engine : Engine) (number : Nat) (rule : Rule)
    (progress : Pass × List Touch) (target : Reference) :
    ∃ more, (engine.fireAt number rule progress target).2 = progress.2 ++ more ∧
      rule.effect.Worked [target] progress.1 (engine.fireAt number rule progress target).1
        more := by
  rw [fireAt]
  split
  next after more applied =>
    rcases apply_deed applied with ⟨node, found, deed⟩
    rcases deed.act with ⟨news, act⟩
    refine ⟨more, rfl, deed.reports, act.fired, fun touch member answers => ?_⟩
    rcases deed.changes found touch member answers with ⟨absolute, changes⟩
    exact ⟨absolute, target, List.mem_singleton_self target, changes⟩
  next => exact ⟨[], (List.append_nil _).symm, .nil _, rfl, List.forall_mem_nil _⟩

theorem foldl_fireAt_worked (engine : Engine) (number : Nat) (rule : Rule)
    (found : List Reference) (progress : Pass × List Touch) :
    ∃ more, (found.foldl (engine.fireAt number rule) progress).2 = progress.2 ++ more ∧
      rule.effect.Worked found progress.1 (found.foldl (engine.fireAt number rule) progress).1
        more := by
  induction found generalizing progress with
  | nil => exact ⟨[], (List.append_nil _).symm, .nil _, rfl, List.forall_mem_nil _⟩
  | cons target found induction =>
      rcases engine.fireAt_worked number rule progress target with ⟨first, touched, here⟩
      rcases induction (engine.fireAt number rule progress target) with ⟨rest, touchedToo, later⟩
      refine ⟨first ++ rest, ?_, here.reports.trans later.reports, later.fired.trans here.fired, ?_⟩
      · rw [List.foldl_cons, touchedToo, touched, List.append_assoc]
      · refine List.forall_mem_append.mpr ⟨fun touch member answers => ?_,
          fun touch member answers => ?_⟩
        · rcases here.changes touch member answers with ⟨absolute, place, isTarget, changes⟩
          rw [List.mem_singleton.mp isTarget] at changes
          exact ⟨absolute, target, List.mem_cons_self, changes⟩
        · rcases later.changes touch member answers with ⟨absolute, place, inFound, changes⟩
          exact ⟨absolute, place, List.mem_cons_of_mem _ inFound, changes⟩

theorem fire_worked (engine : Engine) (number : Nat) (rule : Rule) (anchors : List Reference)
    (pass : Pass) : ∃ found,
      (found = [] ∨ targets pass.tree rule anchors = .ok found) ∧
      rule.effect.Worked found (pass.noteFired number) (engine.fire number rule anchors pass).1
        (engine.fire number rule anchors pass).2 := by
  rw [fire]
  split
  next => exact ⟨[], .inl rfl, .nil _, rfl, List.forall_mem_nil _⟩
  next found located =>
    rcases engine.foldl_fireAt_worked number rule found (pass.noteFired number, []) with
      ⟨more, touched, worked⟩
    rw [touched]
    exact ⟨found, .inr located, worked⟩

theorem fire_reports (engine : Engine) (number : Nat) (rule : Rule) (anchors : List Reference)
    (pass : Pass) :
    pass.Reports (engine.fire number rule anchors pass).1
      (engine.fire number rule anchors pass).2 := by
  rcases engine.fire_worked number rule anchors pass with ⟨found, -, worked⟩
  exact worked.reports

theorem fired_fire (engine : Engine) (number : Nat) (rule : Rule) (anchors : List Reference)
    (pass : Pass) :
    (engine.fire number rule anchors pass).1.report.fired = pass.report.fired ++ [number] := by
  rcases engine.fire_worked number rule anchors pass with ⟨found, -, worked⟩
  exact worked.fired

theorem IsWired.feeds_of_called (wired : engine.IsWired)
    (entered : engine.rulebook.rule? number = some rule) {next : Nat} {other : Rule}
    (enteredToo : engine.rulebook.rule? next = some other)
    (writes : other.effect.writesAnswer = true)
    (called : other.IsCalled (engine.fire number rule anchors pass).2) :
    engine.rulebook.Feeds number next := by
  rcases called with ⟨touch, member, answers, triggered⟩
  rcases engine.fire_worked number rule anchors pass with ⟨found, located, worked⟩
  rcases worked.changes touch member answers with ⟨absolute, target, inFound, changes⟩
  have belongs : target.genericize = rule.target := by
    rcases located with rfl | located
    · cases inFound
    · exact genericize_of_mem_targets (wired.bound entered) located target inFound
  have feeds := (wired.bound enteredToo).feeds_of_changes belongs
    (wired.bound entered).target.absolute absolute changes triggered
  refine ⟨rule, other, entered, enteredToo, feeds, fun same => ?_⟩
  rw [same, enteredToo] at entered
  cases entered
  exact writes

/-! Only rules that are called. -/

/-- Rules that wait have fired only where an answer that calls them has been touched. -/
def Heeds (engine : Engine) (pass : Pass) : Prop :=
  ∀ number ∈ pass.report.fired, ∀ rule, engine.rulebook.rule? number = some rule →
    rule.waitsForAnswer = true → rule.IsCalled (pass.report.updates.map Update.touch)

theorem Heeds.fire (heeds : engine.Heeds pass)
    (entered : engine.rulebook.rule? number = some rule)
    (called : rule.waitsForAnswer = true → rule.IsCalled (pass.report.updates.map Update.touch))
    (anchors : List Reference) : engine.Heeds (engine.fire number rule anchors pass).1 := by
  have later : pass.report.updates.map Update.touch ⊆
      (engine.fire number rule anchors pass).1.report.updates.map Update.touch :=
    fun touch member => (engine.fire_reports number rule anchors pass).symm.subset
      (List.mem_append_left _ member)
  rw [Heeds, fired_fire]
  refine List.forall_mem_append.mpr ⟨fun earlier member other isOther waits => ?_,
    List.forall_mem_singleton.mpr fun other isOther waits => ?_⟩
  · exact (heeds earlier member other isOther waits).mono later
  · rw [entered] at isOther
    cases isOther
    exact (called waits).mono later

structure HeedsWhile (engine : Engine) (spread : Spread) : Prop where
  heeds : engine.Heeds spread.pass
  reported : ∀ touch ∈ spread.touched, touch.isAnswer = true →
    touch ∈ spread.pass.report.updates.map Update.touch

theorem HeedsWhile.turn {spread : Spread} (heeding : engine.HeedsWhile spread)
    (origin : Reference) (number : Nat) : engine.HeedsWhile (engine.turn origin spread number) := by
  rcases engine.turn_cases origin spread number with
    ⟨same, -⟩ | ⟨rule, fresh, entered, anchored, turned⟩
  · rw [same]
    exact heeding
  · rw [turned]
    have reports := engine.fire_reports number rule (anchorsOr origin rule spread.touched)
      spread.pass
    refine ⟨heeding.heeds.fire entered (fun waits => ?_) _, ?_⟩
    · rcases not_not.mp (mt (anchorsFor_eq_nil_iff waits).mpr (anchored waits)) with
        ⟨touch, member, answers, calls⟩
      exact ⟨touch, heeding.reported touch member answers, answers, calls⟩
    · refine List.forall_mem_append.mpr ⟨fun touch member answers => ?_, fun touch member _ => ?_⟩
      · exact reports.symm.subset (List.mem_append_left _ (heeding.reported touch member answers))
      · exact reports.symm.subset (List.mem_append_right _ member)

theorem HeedsWhile.foldl_turn {spread : Spread} (heeding : engine.HeedsWhile spread)
    (origin : Reference) (numbers : List Nat) :
    engine.HeedsWhile (numbers.foldl (engine.turn origin) spread) := by
  induction numbers generalizing spread with
  | nil => exact heeding
  | cons number numbers induction => exact induction (heeding.turn origin number)

theorem Heeds.propagate (heeds : engine.Heeds pass) {changes : List Touch}
    (reported : ∀ touch ∈ changes, touch.isAnswer = true →
      touch ∈ pass.report.updates.map Update.touch) (fired : List Nat) :
    engine.Heeds (engine.propagate changes fired pass).1 := by
  cases changes with
  | nil => exact heeds
  | cons first changes => exact (HeedsWhile.foldl_turn ⟨heeds, reported⟩ first.reference _).heeds

theorem carries_heeds (engine : Engine) : engine.Carries engine.Heeds fun _ => True := by
  refine ⟨fun _ _ _ _ => trivial, fun entered always _ heeds => ?_, fun fired _ heeds => ?_,
    fun _ _ _ heeds => heeds⟩
  · exact heeds.fire entered (fun waits => absurd (always.symm.trans waits) Bool.false_ne_true) _
  · refine heeds.propagate (fun touch member answers => ?_) fired
    rcases List.mem_map.mp member with ⟨place, -, rfl⟩
    cases answers

theorem Heeds.of_silent (silent : pass.report.fired = []) : engine.Heeds pass := by
  rw [Heeds, silent]
  exact List.forall_mem_nil _

/-! All rules that are called. -/

section Called

variable {next : Nat} {other : Rule} {spread : Spread} {origin : Reference}

theorem subset_fired_turn (engine : Engine) (origin : Reference) (spread : Spread) (number : Nat) :
    spread.fired ⊆ (engine.turn origin spread number).fired := by
  rcases engine.turn_cases origin spread number with ⟨same, -⟩ | ⟨rule, -, -, -, turned⟩
  · rw [same]
    exact List.Subset.refl _
  · rw [turned]
    exact List.subset_append_left _ _

theorem mem_fired_turn (entered : engine.rulebook.rule? number = some rule)
    (waits : rule.waitsForAnswer = true) (called : rule.IsCalled spread.touched) :
    number ∈ (engine.turn origin spread number).fired := by
  rcases engine.turn_cases origin spread number with ⟨same, idle⟩ | ⟨_, -, -, -, turned⟩
  · rw [same]
    refine idle.resolve_right fun silent => ?_
    exact (anchorsFor_eq_nil_iff waits).mp (silent rule entered).2 called
  · rw [turned]
    exact List.mem_append_right _ List.mem_cons_self

theorem IsWired.called_of_turn (wired : engine.IsWired)
    (entered : engine.rulebook.rule? number = some rule) (writes : rule.effect.writesAnswer = true)
    (called : rule.IsCalled (engine.turn origin spread next).touched) :
    rule.IsCalled spread.touched ∨ engine.rulebook.Feeds next number := by
  rcases engine.turn_cases origin spread next with ⟨same, -⟩ | ⟨other, -, isOther, -, turned⟩
  · rw [same] at called
    exact .inl called
  · rw [turned] at called
    exact (Rule.IsCalled.append.mp called).imp_right (wired.feeds_of_called isOther entered writes)

/-- Rules take their turns after those that feed them. So one that has been called in
the end has fired by then. -/
theorem IsWired.mem_fired_of_called (wired : engine.IsWired)
    (entered : engine.rulebook.rule? number = some rule) (waits : rule.waitsForAnswer = true)
    {numbers : List Nat}
    (apart : numbers.Pairwise fun earlier later => ¬ engine.rulebook.Feeds later earlier)
    (closed : ∀ next ∈ numbers, engine.rulebook.Feeds next number → number ∈ numbers)
    (awaited : rule.IsCalled spread.touched → number ∈ spread.fired ∨ number ∈ numbers)
    (called : rule.IsCalled (numbers.foldl (engine.turn origin) spread).touched) :
    number ∈ (numbers.foldl (engine.turn origin) spread).fired := by
  induction numbers generalizing spread with
  | nil => exact (awaited called).resolve_right List.not_mem_nil
  | cons first numbers induction =>
      rcases List.pairwise_cons.mp apart with ⟨before, apart⟩
      have writes := Rule.writesAnswer_of_waits waits
      refine induction apart (fun next member feeds => ?_) (fun calledNext => ?_) called
      · rcases List.mem_cons.mp (closed next (List.mem_cons_of_mem _ member) feeds) with
          rfl | later
        · exact absurd feeds (before next member)
        · exact later
      · by_cases here : number = first
        · subst here
          have notSelf := wired.orders.not_transGen_self number
          rcases wired.called_of_turn entered writes calledNext with calledBefore | feeds
          · exact .inl (mem_fired_turn entered waits calledBefore)
          · exact absurd (.single feeds) notSelf
        · have awaitedNext : number ∈ spread.fired ∨ number ∈ first :: numbers :=
            (wired.called_of_turn entered writes calledNext).elim awaited
              fun feeds => .inr (closed first List.mem_cons_self feeds)
          have kept := engine.subset_fired_turn origin spread first
          exact awaitedNext.imp (fun isFired => kept isFired)
            fun later => (List.mem_cons.mp later).resolve_left here

structure IsReported (spread : Spread) : Prop where
  fired : spread.fired = spread.pass.report.fired
  touched : spread.pass.report.updates.map Update.touch ⊆ spread.touched

theorem IsReported.turn (isReported : IsReported spread) (engine : Engine) (origin : Reference)
    (number : Nat) : IsReported (engine.turn origin spread number) := by
  rcases engine.turn_cases origin spread number with ⟨same, -⟩ | ⟨rule, -, -, -, turned⟩
  · rw [same]
    exact isReported
  · rw [turned]
    constructor
    · rw [fired_fire, isReported.fired]
    · intro touch member
      have either := (engine.fire_reports number rule _ spread.pass).subset member
      have earlier := isReported.touched
      exact List.mem_append.mpr ((List.mem_append.mp either).imp_left fun old => earlier old)

theorem IsReported.foldl_turn (isReported : IsReported spread) (engine : Engine)
    (origin : Reference) (numbers : List Nat) :
    IsReported (numbers.foldl (engine.turn origin) spread) := by
  induction numbers generalizing spread with
  | nil => exact isReported
  | cons number numbers induction => exact induction (isReported.turn engine origin number)

end Called

theorem IsWired.mem_fired_propagate (wired : engine.IsWired)
    (entered : engine.rulebook.rule? number = some rule) (waits : rule.waitsForAnswer = true)
    {touch : Touch} (fired : pass.report.fired = [])
    (touched : pass.report.updates.map Update.touch = [touch])
    (called : rule.IsCalled
      ((engine.propagate [touch] [] pass).1.report.updates.map Update.touch)) :
    number ∈ (engine.propagate [touch] [] pass).1.report.fired := by
  have reaches := directlyTriggered_reaches wired.indexed wired.orders [touch]
  have begun : IsReported ⟨pass, [], [touch]⟩ :=
    ⟨fired.symm, by rw [touched]; exact List.Subset.refl _⟩
  have ended := begun.foldl_turn engine touch.reference
    (engine.dependencies.affectedBy (engine.directlyTriggered [touch]))
  rw [propagate] at called ⊢
  rw [← ended.fired]
  apply wired.mem_fired_of_called entered waits
  · exact (wired.orders.pairwise.sublist reaches.ordered).imp And.right
  · exact fun next member feeds =>
      reaches.closed next member number (wired.orders.mem_successorsOf.mpr feeds)
  · rintro ⟨found, isTouch, -, triggered⟩
    exact .inr (reaches.seed number ((mem_directlyTriggered wired.indexed).mpr
      ⟨found, isTouch, rule, entered, triggered⟩))
  · exact called.mono ended.touched

theorem not_mem_fired_initial (engine : Engine) (tree : AnswerTree)
    (entered : engine.rulebook.rule? number = some rule) (waits : rule.waitsForAnswer = true) :
    number ∉ (engine.initial tree).report.fired := by
  have silent : ∀ (numbers : List Nat) (pass : Pass), number ∉ pass.report.fired →
      number ∉ (numbers.foldl engine.fireInitially pass).report.fired := by
    intro numbers
    induction numbers with
    | nil => exact fun _ silent => silent
    | cons first numbers induction =>
        intro pass silent
        apply induction
        rw [fireInitially]
        split
        · exact silent
        next other isOther =>
          split
          · exact silent
          next always =>
            rw [fired_fire]
            refine fun member => (List.mem_append.mp member).elim silent fun here => ?_
            rw [List.mem_singleton.mp here, isOther] at entered
            cases entered
            exact always waits
  exact silent engine.dependencies.order (.start tree) List.not_mem_nil

end Engine

/-! Forms. -/

namespace Form

variable {form : Form} {request : Request} {outcome : Outcome}

theorem perform_heeds (done : form.perform request = .ok outcome) :
    form.engine.Heeds outcome.pass := by
  have carries := form.engine.carries_heeds
  have begun (tree : AnswerTree) : form.engine.Heeds (.start tree) := .of_silent rfl
  cases request with
  | initial =>
      cases done
      intro number member rule entered waits
      exact absurd member (form.engine.not_mem_fired_initial form.tree entered waits)
  | setAnswer reference value =>
      rcases setAnswer_ok done with ⟨pass, set, rfl⟩
      rcases Engine.exists_of_setAnswer set with ⟨-, node, current, -, -, rfl⟩
      rw [after, Outcome.pass]
      dsimp only
      split
      · exact begun form.tree
      · refine Engine.Heeds.propagate (.of_silent rfl) ?_ []
        exact fun touch member _ => member
  | insertMember parent name position =>
      rcases map_eq_ok.mp done with ⟨⟨made, result⟩, insert, rfl⟩
      rcases insertMember_ok insert with ⟨pass, inserting, rfl⟩
      rcases Engine.insertMember_ok inserting with ⟨grown, -, -, grows, -⟩
      exact carries.insertMember grows (begun grown) trivial trivial inserting
  | removeMember reference =>
      rcases removeMember_ok done with ⟨parent, shrunk, removed, pass, -, -, removing, rfl⟩
      exact carries.afterRemoval (begun shrunk) trivial (fun _ _ => trivial) removing

theorem mem_fired_of_setAnswer (wired : form.engine.IsWired) {reference : Reference}
    {value : Option Value} (done : form.setAnswer reference value = .ok outcome) {number : Nat}
    {rule : Rule} (entered : form.engine.rulebook.rule? number = some rule)
    (waits : rule.waitsForAnswer = true)
    (called : rule.IsCalled (outcome.report.updates.map Update.touch)) :
    number ∈ outcome.report.fired := by
  rcases setAnswer_ok done with ⟨pass, set, rfl⟩
  rcases Engine.exists_of_setAnswer set with ⟨-, node, current, -, -, rfl⟩
  rw [after] at called ⊢
  dsimp only at called ⊢
  split at called
  · rcases called with ⟨_, nothing, -⟩
    cases nothing
  next differs =>
    rw [if_neg differs]
    exact wired.mem_fired_propagate entered waits rfl rfl called

end Form

theorem Rule.IsMade.isTriggeredBy_eq {rule : Rule} (made : rule.IsMade) {source : Reference}
    (waits : rule.effect = .setValue (.valueChanged source)) (reference : Reference) :
    rule.isTriggeredBy reference = source.intersects reference := by
  rcases made with ⟨effect, expression, target, bound⟩
  rw [Rule.bind] at bound
  split at bound
  · cases bound
  next =>
    split at bound
    next =>
      cases bound
      cases waits
    next =>
      rcases bind_eq_ok.mp bound with ⟨anchored, -, bound⟩
      cases bound
      cases waits
      simp [isTriggeredBy]
    next noWait =>
      rcases bind_eq_ok.mp bound with ⟨triggers, -, bound⟩
      cases bound
      exact absurd waits (noWait source)

theorem Report.changesAnswer_iff {rule : Rule} (made : rule.IsMade) {source : Reference}
    (waits : rule.effect = .setValue (.valueChanged source)) (report : Report) :
    report.changesAnswer source = true ↔ rule.IsCalled (report.updates.map Update.touch) := by
  simp [changesAnswer, Rule.IsCalled, Update.isAnswer_touch, Update.reference_touch,
    made.isTriggeredBy_eq waits]

/-- In every form that a definition makes, over saved answers or not, and after any
requests: a rule that waits for an answer never fires while the form is filled in. When an
answer is set, it fires exactly if the report says that an answer it waits for was written
or dropped, be it by the edit itself. When a series changes, it fires only if the report
says so. -/
theorem Definition.fired_iff_changesAnswer {definition : Definition}
    {constructors : Constructors} {settings : Settings} {material : Material}
    {evaluator : Evaluator} {saved : Option AnswerTree} {form : Form}
    (made : definition.material constructors settings = .ok material)
    (built : Form.build material evaluator saved = .ok form) {current : Form}
    (reached : form.Reached current) {number : Nat} {rule : Rule} {source : Reference}
    (entered : current.engine.rulebook.rule? number = some rule)
    (waits : rule.effect = .setValue (.valueChanged source)) {request : Request}
    {outcome : Outcome} (done : current.perform request = .ok outcome) :
    match request with
    | .initial => number ∉ outcome.report.fired
    | .setAnswer _ _ =>
        number ∈ outcome.report.fired ↔ outcome.report.changesAnswer source = true
    | .insertMember _ _ _ | .removeMember _ =>
        number ∈ outcome.report.fired → outcome.report.changesAnswer source = true := by
  have areMade := rules_isMade (material_ok made).2.1
  have isMade : rule.IsMade := by
    have enteredFirst := entered
    rw [reached.rulebook] at enteredFirst
    exact Form.build_isMade areMade built enteredFirst
  have waiting : rule.waitsForAnswer = true := by rw [Rule.waitsForAnswer, waits]
  have heeds : number ∈ outcome.report.fired → outcome.report.changesAnswer source = true :=
    fun fired => (Report.changesAnswer_iff isMade waits _).mpr
      (Form.perform_heeds done number fired rule entered waiting)
  cases request with
  | initial =>
      cases done
      exact current.engine.not_mem_fired_initial current.tree entered waiting
  | setAnswer reference value =>
      refine ⟨heeds, fun changed => ?_⟩
      exact Form.mem_fired_of_setAnswer (reached.isWired (Form.build_isWired areMade built)) done
        entered waiting ((Report.changesAnswer_iff isMade waits _).mp changed)
  | insertMember parent name position => exact heeds
  | removeMember reference => exact heeds

namespace Order

def journal : Definition where
  id := none
  title := "journal"
  skeleton :=
    let number (name : String) (value : Option String) : Skeleton :=
      { Skeleton.ofName name with type := .int, value }
    { Skeleton.ofName "data" with
      children := [number "price" (some "2"), number "amount" none, number "noted" none] }
  binds := [
    { Bind.ofTarget (every ["amount"]) with
      calculate := some (.binary .mul (.answer (every ["price"])) (.literal (.int 3))) },
    { Bind.ofTarget (every ["noted"]) with
      actions := [⟨.valueChanged (every ["amount"]), .answer (every ["amount"])⟩] }]

end Order

/-- A new price leads to a new amount, and this is noted. -/
theorem journal_fired_iff_changesAnswer : ∃ material form rule outcome,
    Order.journal.material .standard .standard = .ok material ∧
    Form.build material (Expression.evaluator .startOf2020) none = .ok form ∧
    form.engine.rulebook.rule? 1 = some rule ∧
    rule.effect = .setValue (.valueChanged (Order.every ["amount"])) ∧
    form.initial.form.perform (.setAnswer (Order.ofOrder "price") (some (.int 5))) =
      .ok outcome ∧
    1 ∈ outcome.report.fired ∧ outcome.report.changesAnswer (Order.every ["amount"]) = true := by
  have ready : (Order.journal.material .standard .standard).toOption.any (fun material =>
      (Form.build material (Expression.evaluator .startOf2020) none).toOption.any fun form =>
        (form.engine.rulebook.rule? 1).any (fun rule =>
          decide (rule.effect = .setValue (.valueChanged (Order.every ["amount"])))) &&
        (form.initial.form.perform
          (.setAnswer (Order.ofOrder "price") (some (.int 5)))).toOption.any fun outcome =>
            outcome.report.changesAnswer (Order.every ["amount"])) = true := by
    decide +kernel
  rcases exists_ok_of_any ready with ⟨material, made, ready⟩
  rcases exists_ok_of_any ready with ⟨form, built, ready⟩
  rcases Bool.and_eq_true_iff.mp ready with ⟨isRule, ready⟩
  rcases (Option.any_eq_true _ _).mp isRule with ⟨rule, entered, waits⟩
  rcases exists_ok_of_any ready with ⟨outcome, done, changed⟩
  have waits := decide_eq_true_eq.mp waits
  refine ⟨material, form, rule, outcome, made, built, entered, waits, done, ?_, changed⟩
  exact (Definition.fired_iff_changesAnswer made built (.initial form) entered waits done).mpr
    changed

end ReactiveForm
