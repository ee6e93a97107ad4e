import ReactiveForm.Proofs.Upholding
import ReactiveForm.Proofs.Verdicts

/-! Nodes that are hidden and shown again. Where hidden answers are dropped, the
calculated ones go as well, and come back when their calculation fires. Nothing
makes it fire if the rule that hides the node does not feed it. So a calculated
node is up to date, unless the last that became of its answer is that it was
dropped. -/

namespace ReactiveForm

/-! The last news of an answer. -/

def Update.leavesDropped (place : Reference) (dropped : Bool) (update : Update) : Bool :=
  match update.change with
  | .cleared => dropped || update.target == place
  | .answer _ _ => dropped && update.target != place
  | _ => dropped

/-- Was the answer of a place dropped, and not written since? -/
def leftDropped (log : List Update) (place : Reference) : Bool :=
  log.foldl (Update.leavesDropped place) false

section LeftDropped

variable {place : Reference} {log news : List Update} {dropped : Bool}

theorem leavesDropped_of_silent {update : Update} (silent : update.touch ≠ .answer place) :
    update.leavesDropped place dropped = dropped := by
  rcases update with ⟨rule, target, change⟩
  cases change <;> simp [Update.touch] at silent <;> simp [Update.leavesDropped, silent]

theorem leftDropped_of_silent (silent : ∀ update ∈ news, update.touch ≠ .answer place) :
    leftDropped (log ++ news) place = leftDropped log place := by
  rw [leftDropped, List.foldl_append, ← leftDropped]
  generalize leftDropped log place = dropped
  induction news with
  | nil => rfl
  | cons update news induction =>
      rcases List.forall_mem_cons.mp silent with ⟨first, rest⟩
      rw [List.foldl_cons, leavesDropped_of_silent first, induction rest]

theorem leftDropped_of_written (rule : Option Nat) (previous current : Option Value) :
    leftDropped (log ++ [⟨rule, place, .answer previous current⟩]) place = false := by
  simp [leftDropped, Update.leavesDropped]

theorem leftDropped_of_dropped {rule : Option Nat} (told : ⟨rule, place, .cleared⟩ ∈ news)
    (only : ∀ update ∈ news, update.touch = .answer place → update.change = .cleared) :
    leftDropped (log ++ news) place = true := by
  rw [leftDropped, List.foldl_append, ← leftDropped]
  generalize leftDropped log place = dropped
  -- What is left dropped stays so, as nothing is written.
  have stays : ∀ news : List Update,
      (∀ update ∈ news, update.touch = .answer place → update.change = .cleared) →
      news.foldl (Update.leavesDropped place) true = true := by
    intro news only
    induction news with
    | nil => rfl
    | cons update news induction =>
        rcases List.forall_mem_cons.mp only with ⟨first, rest⟩
        have step : update.leavesDropped place true = true := by
          by_cases silent : update.touch = .answer place
          · simp [Update.leavesDropped, first silent]
          · exact leavesDropped_of_silent silent
        rw [List.foldl_cons, step, induction rest]
  induction news generalizing dropped with
  | nil => cases told
  | cons update news induction =>
      rcases List.forall_mem_cons.mp only with ⟨first, rest⟩
      rw [List.foldl_cons]
      rcases List.mem_cons.mp told with rfl | later
      · rw [show Update.leavesDropped place dropped ⟨rule, place, .cleared⟩ = true by
          simp [Update.leavesDropped]]
        exact stays news rest
      · exact induction later rest _

end LeftDropped

/-- A form after it has been filled in and any number of answers have been
changed, none of which a calculation sets, and without any failure, with all
updates since then. -/
inductive Form.Logged (form : Form) : Form → List Update → Prop where
  | initial (clean : form.initial.report.failures = []) :
      Logged form form.initial.form form.initial.report.updates
  | setAnswer {current : Form} {log : List Update} {reference : Reference}
      {value : Option Value} {outcome : Outcome} (logged : Logged form current log)
      (free : form.IsFree reference) (done : current.setAnswer reference value = .ok outcome)
      (clean : outcome.report.failures = []) :
      Logged form outcome.form (log ++ outcome.report.updates)

namespace Engine

variable {engine : Engine} {now : DateTime} {number : Nat} {rule : Rule} {place : Reference}
  {tree : AnswerTree} {log : List Update}

/-! What is left dropped is gone. -/

structure Logs (tree : AnswerTree) (log : List Update) (place : Reference) (pass : Pass) :
    Prop where
  shape : pass.tree.SameShape tree
  gone : leftDropped (log ++ pass.report.updates) place = true → pass.tree.answer? place = none

theorem Logs.act {before after : Pass} {settings : Settings} {effect : Effect}
    {target : Reference} {more : List Touch} {news : List Update}
    (logs : Logs tree log place before)
    (act : Act settings number effect target before after more news) :
    Logs tree log place after := by
  refine ⟨act.shape.trans logs.shape, fun dropped => ?_⟩
  rw [act.updates, ← List.append_assoc] at dropped
  rw [AnswerTree.answer?_eq_held]
  cases act.fate place with
  | stays same silent =>
      rw [leftDropped_of_silent silent] at dropped
      rw [same, ← AnswerTree.answer?_eq_held]
      exact logs.gone dropped
  | written _ _ told =>
      rw [told, leftDropped_of_written] at dropped
      cases dropped
  | dropped _ _ _ _ gone _ _ => rw [gone]; rfl

theorem IsWired.upholds_logs (wired : engine.IsWired) (numbered : tree.root.Numbered)
    (log : List Update) (place : Reference) :
    engine.Upholds (fun _ => True) (Logs tree log place) (· ∈ tree.references) := by
  refine ⟨fun _ logs => ⟨logs.shape, logs.gone⟩, fun _ _ _ logs => ⟨logs.shape, logs.gone⟩, ?_, ?_⟩
  · intro pass number rule anchors found logs entered live located
    rw [← logs.shape.references] at live ⊢
    exact mem_references_of_mem_targets (logs.shape.numbered numbered) (wired.bound entered) live
      located
  · intro before after number rule target more news logs _ _ live _ act
    refine ⟨logs.act act, ?_⟩
    rw [← logs.shape.references] at live ⊢
    exact act.live live

/-! What becomes of a calculation. -/

def Shades (engine : Engine) (number : Nat) (rule : Rule) : Prop :=
  engine.settings.hiddenAnswers = .clear ∧ ∃ hider other, engine.rulebook.rule? hider = some other ∧
    other.effect = .relevant ∧ other.target.covers rule.target = true ∧
    ¬ engine.rulebook.Feeds hider number

/-- A calculation comes to an answer, and the node holds it, or else the answer
was dropped by a rule that does not feed the calculation. -/
def Stands (engine : Engine) (number : Nat) (rule : Rule) (place : Reference)
    (tree : AnswerTree) (log : List Update) : Prop :=
  ∃ node result answer, tree.find? place = some node ∧
    engine.evaluator tree rule.expression place = .ok result ∧
    answerFrom result node.facts.type = .ok answer ∧
    (sameAnswer node.facts.answer answer = true ∨
      node.facts.answer = none ∧ leftDropped log place = true ∧ engine.Shades number rule)

theorem Stands.congr {other : AnswerTree} {later : List Update}
    (stands : engine.Stands number rule place tree log)
    (type : other.held .type place = tree.held .type place)
    (answer : other.held .answer place = tree.held .answer place)
    (outcome : engine.evaluator other rule.expression place =
      engine.evaluator tree rule.expression place)
    (dropped : leftDropped later place = leftDropped log place) :
    engine.Stands number rule place other later := by
  rcases stands with ⟨node, result, current, found, evaluated, cast, shown⟩
  rcases AnswerTree.exists_of_held_type type found with ⟨node', found', sameType⟩
  rw [AnswerTree.held, AnswerTree.held, found, found'] at answer
  have sameAnswers : node'.facts.answer = node.facts.answer := Option.some.inj answer
  refine ⟨node', result, current, found', outcome.trans evaluated, ?_, ?_⟩
  · rw [sameType]
    exact cast
  · rw [sameAnswers, dropped]
    exact shown

theorem Stands.drop {other : AnswerTree} {later : List Update}
    (stands : engine.Stands number rule place tree log)
    (type : other.held .type place = tree.held .type place)
    (gone : other.held .answer place = some none)
    (outcome : engine.evaluator other rule.expression place =
      engine.evaluator tree rule.expression place)
    (dropped : leftDropped later place = true) (shades : engine.Shades number rule) :
    engine.Stands number rule place other later := by
  rcases stands with ⟨node, result, current, found, evaluated, cast, -⟩
  rcases AnswerTree.exists_of_held_type type found with ⟨node', found', sameType⟩
  rw [AnswerTree.held, found'] at gone
  refine ⟨node', result, current, found', outcome.trans evaluated, ?_,
    .inr ⟨Option.some.inj gone, dropped, shades⟩⟩
  rw [sameType]
  exact cast

theorem IsWired.upholds_stands (wired : engine.IsWired)
    (evaluator : engine.evaluator = Expression.evaluator now) (numbered : tree.root.Numbered)
    (sole : engine.rulebook.Sole .answer) (entered : engine.rulebook.rule? number = some rule)
    (calculates : rule.effect = .calculate) (isTarget : place.genericize = rule.target)
    (log : List Update) :
    engine.Upholds (fun other => other ≠ number ∧ ¬ engine.rulebook.Feeds other number)
      (fun pass => Logs tree log place pass ∧
        engine.Stands number rule place pass.tree (log ++ pass.report.updates))
      (· ∈ tree.references) := by
  have upheld := wired.upholds_logs numbered log place
  refine ⟨fun _ held => ⟨⟨held.1.shape, held.1.gone⟩, held.2⟩,
    fun _ _ _ held => ⟨⟨held.1.shape, held.1.gone⟩, held.2⟩,
    fun held => upheld.targets held.1, ?_⟩
  intro before after other another target more news held apart enteredToo live belongs act
  rcases held with ⟨logs, stands⟩
  rcases upheld.acted logs trivial enteredToo live belongs act with ⟨logsAfter, touched⟩
  refine ⟨⟨logsAfter, ?_⟩, touched⟩
  have noAction : ∀ occasion, rule.effect ≠ .setValue occasion := by simp [calculates]
  have outcome := wired.outcome_of_contained evaluator entered noAction enteredToo apart.1 apart.2
    belongs isTarget act.contained
  rw [act.updates, ← List.append_assoc]
  cases act.fate place with
  | stays same silent =>
      exact stands.congr (act.type place) same outcome (leftDropped_of_silent silent)
  | written writes here _ =>
      rw [← here, isTarget] at belongs
      exact absurd (sole enteredToo entered (field_eq_answer_iff.mpr writes)
        (by rw [calculates]; rfl) belongs.symm) apart.1
  | dropped hides clears below _ gone told only =>
      refine stands.drop (act.type place) gone outcome (leftDropped_of_dropped told only)
        ⟨clears, other, another, enteredToo, hides, ?_, apart.2⟩
      rcases below with ⟨lower, inside⟩
      rw [← belongs, ← isTarget]
      have absolute := (wired.bound enteredToo).target.absolute
      have absoluteToo := (wired.bound entered).target.absolute
      rw [← belongs] at absolute
      rw [← isTarget] at absoluteToo
      exact Reference.covers_of_inside absolute absoluteToo inside.symm

/-! A calculation fires. -/

def retaining (engine : Engine) : Engine :=
  { engine with settings := { engine.settings with hiddenAnswers := .retain } }

theorem fire_retaining (notHides : rule.effect ≠ .relevant) (anchors : List Reference)
    (pass : Pass) :
    engine.retaining.fire number rule anchors pass = engine.fire number rule anchors pass := by
  have apply (pass : Pass) (target : Reference) (outcome : Except EvaluationError Value) :
      engine.retaining.apply pass number rule.effect target outcome =
        engine.apply pass number rule.effect target outcome := by
    rw [Engine.apply, Engine.apply]
    cases effect : rule.effect with
    | relevant => exact absurd effect notHides
    | calculate | setValue | required | constraint => rfl
  have step : engine.retaining.fireAt number rule = engine.fireAt number rule := by
    funext progress target
    rw [fireAt, fireAt, apply]
    rfl
  rw [fire, fire, step]

theorem IsSound.fire_current (sound : engine.retaining.IsSound now)
    (entered : engine.rulebook.rule? number = some rule) (calculates : rule.effect = .calculate)
    {anchors : List Reference} {pass : Pass}
    (clean : (engine.fire number rule anchors pass).1.report.failures = [])
    (located : ∀ found, targets pass.tree rule anchors = .ok found → place ∈ found) :
    engine.Current (engine.fire number rule anchors pass).1.tree rule place := by
  have notHides : rule.effect ≠ .relevant := by simp [calculates]
  rw [← fire_retaining notHides] at clean ⊢
  rcases sound.fire_fires entered clean with ⟨-, found, after, touched, result, fires⟩
  rw [result]
  exact fires.worked.current (by simp [calculates]) place (located found fires.located)

theorem Current.stands (current : engine.Current tree rule place)
    (calculates : rule.effect = .calculate) : engine.Stands number rule place tree log := by
  rcases current with ⟨node, found, settled⟩
  rw [calculates] at settled
  rcases settled with ⟨result, answer, evaluated, cast, same⟩
  exact ⟨node, result, answer, found, evaluated, cast, .inl same⟩

theorem IsSound.isWired (sound : engine.retaining.IsSound now) : engine.IsWired :=
  ⟨sound.bound, sound.indexed, sound.orders⟩

theorem IsWired.clean_of_foldl_fireInitially (wired : engine.IsWired) {numbers : List Nat}
    {pass : Pass} (clean : (numbers.foldl engine.fireInitially pass).report.failures = []) :
    pass.report.failures = [] :=
  by_contra fun failed => ((Upholds.failures engine).sustains wired).foldl_fireInitially
    ((Upholds.failures engine).everywhere wired) (fun _ _ => trivial) failed clean

theorem IsWired.clean_of_foldl_turn (wired : engine.IsWired) {numbers : List Nat}
    {origin : Reference} {spread : Spread}
    (clean : (numbers.foldl (engine.turn origin) spread).pass.report.failures = []) :
    spread.pass.report.failures = [] :=
  by_contra fun failed => (((Upholds.failures engine).sustains wired).confines.foldl_turn
    (fun _ _ => trivial) trivial failed fun _ _ => trivial).1 clean

theorem turn_of_fresh {origin : Reference} {spread : Spread} (fresh : number ∉ spread.fired)
    (entered : engine.rulebook.rule? number = some rule)
    (always : rule.waitsForAnswer = false) :
    (engine.turn origin spread number).pass =
      (engine.fire number rule (anchorsOr origin rule spread.touched) spread.pass).1 := by
  simp [turn, fresh, entered, always, anchorsOr]

theorem mem_of_plain (numbered : tree.root.Numbered) (plain : tree.IsPlain) (bound : rule.IsBound)
    {anchors found : List Reference} (nonempty : anchors ≠ [])
    (live : ∀ anchor ∈ anchors, anchor ∈ tree.references)
    (located : targets tree rule anchors = .ok found) (member : place ∈ tree.references)
    (isTarget : place.genericize = rule.target) : place ∈ found := by
  rcases List.exists_mem_of_ne_nil anchors nonempty with ⟨anchor, inAnchors⟩
  rcases (mem_targets nonempty located).1 anchor inAnchors with ⟨near, isNear, subset⟩
  have anchorLive := live anchor inAnchors
  refine subset ((mem_targetsNear numbered bound
    (AnswerTree.isLive_of_mem numbered anchorLive).1 isNear).mpr ⟨member, isTarget, ?_⟩)
  exact plain.isNear anchorLive member

/-! The life of a calculation. -/

section Calculation

variable (sound : engine.retaining.IsSound now) (numbered : tree.root.Numbered)
  (plain : tree.IsPlain) (sole : engine.rulebook.Sole .answer)
  (entered : engine.rulebook.rule? number = some rule) (calculates : rule.effect = .calculate)
  (member : place ∈ tree.references) (isTarget : place.genericize = rule.target)

include sound numbered sole entered calculates member isTarget

theorem IsSound.initial_stands (clean : (engine.initial tree).report.failures = []) :
    Logs tree [] place (engine.initial tree) ∧
      engine.Stands number rule place (engine.initial tree).tree
        (engine.initial tree).report.updates := by
  have wired := sound.isWired
  have inOrder := wired.orders.mem_order.mpr (Rulebook.rule?_eq_some_lt entered)
  rcases List.append_of_mem inOrder with ⟨early, late, split⟩
  have ordered := wired.orders.pairwise
  rw [split] at ordered
  have apart := (List.pairwise_cons.mp (List.pairwise_append.mp ordered).2.1).1
  rw [initial, split, List.foldl_append, List.foldl_cons] at clean ⊢
  -- Before its turn, nothing is known of the calculation itself.
  have logged := wired.upholds_logs numbered [] place
  have logs : Logs tree [] place (early.foldl engine.fireInitially (.start tree)) :=
    (logged.sustains wired).foldl_fireInitially (logged.everywhere wired)
      (fun _ _ => trivial) ⟨.refl _, fun dropped => absurd dropped Bool.false_ne_true⟩
  generalize early.foldl engine.fireInitially (.start tree) = before at clean logs ⊢
  have fires : engine.fireInitially before number = (engine.fire number rule [] before).1 := by
    have always : rule.waitsForAnswer = false :=
      Rule.waitsForAnswer_eq_false (by simp [calculates])
    simp [fireInitially, entered, always]
  rw [fires] at clean ⊢
  have logsToo := ((logged.sustains wired).fire trivial entered logs
    fun _ => logged.everywhere wired logs trivial entered).1
  have current := sound.fire_current entered calculates (wired.clean_of_foldl_fireInitially clean)
    fun found located => (mem_targets_nil (logs.shape.numbered numbered) (wired.bound entered)
      located).mpr ⟨by rwa [logs.shape.references], isTarget⟩
  -- After it, nothing fires that feeds it.
  have upheld := wired.upholds_stands sound.evaluator numbered sole entered calculates isTarget []
  exact (upheld.sustains wired).foldl_fireInitially (upheld.everywhere wired)
    (fun later inLate => ⟨(apart later inLate).1.symm, (apart later inLate).2⟩)
    ⟨logsToo, current.stands calculates⟩

include plain

theorem IsSound.foldl_turn_stands {numbers : List Nat}
    (ordered : numbers.Pairwise fun earlier later =>
      earlier ≠ later ∧ ¬ engine.rulebook.Feeds later earlier)
    (inNumbers : number ∈ numbers) {origin : Reference} (begun : origin ∈ tree.references)
    {spread : Spread} (fresh : number ∉ spread.fired) (logs : Logs tree log place spread.pass)
    (touched : ∀ touch ∈ spread.touched, touch.reference ∈ tree.references)
    (clean : (numbers.foldl (engine.turn origin) spread).pass.report.failures = []) :
    let after := (numbers.foldl (engine.turn origin) spread).pass
    Logs tree log place after ∧
      engine.Stands number rule place after.tree (log ++ after.report.updates) := by
  have wired := sound.isWired
  have upheld := wired.upholds_logs numbered log place
  -- The calculation has not fired by its turn, and nothing after it feeds it.
  rcases List.append_of_mem inNumbers with ⟨early, late, rfl⟩
  rcases List.pairwise_append.mp ordered with ⟨-, later, across⟩
  have apart := (List.pairwise_cons.mp later).1
  rw [List.foldl_append, List.foldl_cons] at clean ⊢
  have notEarly : number ∉ (early.foldl (engine.turn origin) spread).fired := by
    intro isFired
    rcases engine.exists_fired_foldl_turn origin early spread with ⟨turns, part, fired⟩
    rw [fired] at isFired
    rcases List.mem_append.mp isFired with before | inTurns
    · exact fresh before
    · exact (across number (part.subset inTurns) number List.mem_cons_self).1 rfl
  have included : ∀ number ∈ early, True := fun _ _ => trivial
  rcases (upheld.sustains wired).confines.foldl_turn included begun logs touched with ⟨logs, touched⟩
  generalize early.foldl (engine.turn origin) spread = before at clean logs touched notEarly ⊢
  have fires : (engine.turn origin before number).pass =
      (engine.fire number rule (anchorsOr origin rule before.touched) before.pass).1 :=
    turn_of_fresh notEarly entered (Rule.waitsForAnswer_eq_false (by simp [calculates]))
  have turned : Logs tree log place (engine.turn origin before number).pass ∧ _ :=
    (upheld.sustains wired).confines.turn trivial begun logs touched
  have current : engine.Current (engine.turn origin before number).pass.tree rule place := by
    have cleanTurn := wired.clean_of_foldl_turn clean
    rw [fires] at cleanTurn ⊢
    refine sound.fire_current entered calculates cleanTurn fun found located => ?_
    rw [← logs.shape.references] at begun member touched
    exact mem_of_plain (logs.shape.numbered numbered) (logs.shape.isPlain plain)
      (wired.bound entered) anchorsOr_ne_nil (forall_anchorsOr begun touched rule) located member
      isTarget
  have standing :=
    wired.upholds_stands sound.evaluator numbered sole entered calculates isTarget log
  exact ((standing.sustains wired).confines.foldl_turn
    (fun next inLate => ⟨(apart next inLate).1.symm, (apart next inLate).2⟩) begun
    ⟨turned.1, current.stands calculates⟩ turned.2).1

theorem IsSound.propagate_stands {reference : Reference} (live : reference ∈ tree.references)
    (apart : place ≠ reference)
    {previous current : Option Value} (clean : (engine.propagate [.answer reference] []
      (edited tree reference previous current)).1.report.failures = [])
    (gone : leftDropped log place = true → tree.answer? place = none)
    (stands : engine.Stands number rule place tree log) :
    let after := (engine.propagate [.answer reference] []
      (edited tree reference previous current)).1
    Logs tree log place after ∧
      engine.Stands number rule place after.tree (log ++ after.report.updates) := by
  have wired := sound.isWired
  have reaches : engine.dependencies.Reaches (engine.directlyTriggered [.answer reference])
      (engine.dependencies.affectedBy (engine.directlyTriggered [.answer reference])) :=
    directlyTriggered_reaches sound.indexed sound.orders [.answer reference]
  have silent : leftDropped (log ++ (edited tree reference previous current).report.updates)
      place = leftDropped log place := by
    apply leftDropped_of_silent
    exact List.forall_mem_singleton.mpr fun touched => apart (Touch.answer.inj touched).symm
  have logs : Logs tree log place (edited tree reference previous current) := by
    refine ⟨edited_sameShape tree reference previous current, fun dropped => ?_⟩
    rw [silent] at dropped
    rw [AnswerTree.answer?_eq_held, held_edited _ _ _ _ (.inr apart),
      ← AnswerTree.answer?_eq_held]
    exact gone dropped
  have touched : ∀ touch ∈ [Touch.answer reference], touch.reference ∈ tree.references :=
    List.forall_mem_singleton.mpr live
  by_cases affected : number ∈
      engine.dependencies.affectedBy (engine.directlyTriggered [.answer reference])
  · exact sound.foldl_turn_stands numbered plain sole entered calculates member isTarget
      (wired.orders.pairwise.sublist reaches.ordered) affected live List.not_mem_nil logs touched
      clean
  · -- Nothing fires that feeds the calculation, and it does not read the answer.
    have standing :=
      wired.upholds_stands sound.evaluator numbered sole entered calculates isTarget log
    refine (standing.sustains wired).confines.propagate
      (fun other isAffected => ⟨?_, fun feeds => ?_⟩) touched [] ⟨logs, ?_⟩
    · rintro rfl
      exact affected isAffected
    · exact affected (reaches.closed other isAffected number
        (wired.orders.mem_successorsOf.mpr feeds))
    · refine stands.congr (held_edited _ _ _ _ (.inl Field.noConfusion))
        (held_edited _ _ _ _ (.inr apart)) ?_ silent
      refine sound.outcome_congr (edited_sameShape tree reference previous current)
        fun read reads => held_edited _ _ _ _ (.inr ?_)
      rintro rfl
      refine affected (reaches.seed number ((mem_directlyTriggered wired.indexed).mpr
        ⟨_, List.mem_singleton.mpr rfl, rule, entered, ?_⟩))
      exact (wired.bound entered).isTriggeredBy_of_reads (by simp [calculates]) isTarget reads

theorem IsSound.setAnswer_stands {reference : Reference}
    (free : rule.target ≠ reference.genericize) {value : Option Value}
    {after : Pass} (done : engine.setAnswer tree reference value = .ok after)
    (clean : after.report.failures = [])
    (gone : leftDropped log place = true → tree.answer? place = none)
    (stands : engine.Stands number rule place tree log) :
    Logs tree log place after ∧
      engine.Stands number rule place after.tree (log ++ after.report.updates) := by
  rcases exists_of_setAnswer done with ⟨outside, node, current, found, -, rfl⟩
  split at clean
  next same =>
    rw [if_pos same]
    have silent : leftDropped (log ++ []) place = leftDropped log place := by rw [List.append_nil]
    exact ⟨⟨.refl _, fun dropped => gone (silent ▸ dropped)⟩, stands.congr rfl rfl rfl silent⟩
  next differs =>
    rw [if_neg differs]
    have live : reference ∈ tree.references := by
      refine AnswerTree.mem_references_iff.mpr ⟨node.facts,
        AnswerTree.mem_census_of_find? found fun step member template => ?_⟩
      have enters : reference.entersTemplate = true :=
        List.any_eq_true.mpr ⟨step, member, by simp [template]⟩
      rw [outside] at enters
      cases enters
    refine sound.propagate_stands numbered plain sole entered calculates member isTarget live ?_
      clean gone stands
    rintro rfl
    exact free isTarget.symm

end Calculation

end Engine

theorem none_sameAnswer {answer : Option Value} (same : sameAnswer none answer = true) :
    answer = none := by
  cases answer with
  | none => rfl
  | some _ => cases same

/-! Runs of a form. -/

theorem Definition.form_retaining {definition : Definition} {constructors : Constructors}
    {settings : Settings} {now : DateTime} {saved : Option AnswerTree} {form : Form}
    (built : definition.form constructors settings now saved = .ok form) :
    form.engine.retaining.IsSound now ∧ form.tree.root.Numbered ∧
      form.engine.settings = settings := by
  rw [Definition.form] at built
  rcases bind_eq_ok.mp built with ⟨material, made, assembled⟩
  rcases Definition.material_ok made with ⟨described, found, settled⟩
  have wired := Form.build_isWired (Definition.rules_isMade found) assembled
  rcases Form.build_ok assembled with ⟨tree, dependencies, -, engine⟩
  refine ⟨⟨by rw [engine]; rfl, rfl, wired.bound, wired.indexed, wired.orders⟩, ?_, ?_⟩
  · have numbered := Definition.tree_numbered described
    rcases tree with same | ⟨earlier, restored⟩
    · rwa [same]
    · exact AnswerTree.restore_numbered numbered restored
  · rw [engine, settled]

namespace Form.Logged

variable {form current : Form} {log : List Update} {now : DateTime}

theorem engine_eq (logged : form.Logged current log) : current.engine = form.engine := by
  induction logged with
  | initial => rfl
  | setAnswer _ _ done _ induction =>
      rcases setAnswer_ok done with ⟨pass, -, rfl⟩
      exact induction

theorem sameShape (logged : form.Logged current log) : current.tree.SameShape form.tree := by
  induction logged with
  | initial => exact (form.engine.keeps_sameShape form.tree).initial (.refl _)
  | @setAnswer current log reference value outcome _ _ done _ induction =>
      rcases setAnswer_ok done with ⟨pass, set, rfl⟩
      exact ((current.engine.keeps_sameShape current.tree).setAnswer (.refl _) trivial set).trans
        induction

theorem stands (logged : form.Logged current log) (sound : form.engine.retaining.IsSound now)
    (numbered : form.tree.root.Numbered) (plain : form.tree.IsPlain)
    (sole : form.engine.rulebook.Sole .answer) {number : Nat} {rule : Rule}
    (entered : form.engine.rulebook.rule? number = some rule)
    (calculates : rule.effect = .calculate) {place : Reference}
    (member : place ∈ form.tree.references) (isTarget : place.genericize = rule.target) :
    (leftDropped log place = true → current.tree.answer? place = none) ∧
      form.engine.Stands number rule place current.tree log := by
  induction logged with
  | initial clean =>
      rcases sound.initial_stands numbered sole entered calculates member isTarget clean with
        ⟨logs, stands⟩
      exact ⟨logs.gone, stands⟩
  | @setAnswer current log reference value outcome logged free done clean induction =>
      rcases induction with ⟨gone, stands⟩
      rcases setAnswer_ok done with ⟨pass, set, rfl⟩
      have shape := logged.sameShape
      rw [logged.engine_eq] at set
      rw [← shape.references] at member
      rcases sound.setAnswer_stands (shape.numbered numbered) (shape.isPlain plain) sole entered
        calculates member isTarget (free rule (List.mem_of_getElem? entered) calculates) set clean
        gone stands with ⟨logs, standsToo⟩
      exact ⟨logs.gone, standsToo⟩

end Form.Logged

/-- After a form without series has been filled in, and after every change of an
answer that no calculation sets, every calculation comes to an answer at each of
its nodes. The node holds it exactly if there is none where the last that became
of the answer there is that it was dropped; for then the node has none. So it
does hold it unless hidden answers are dropped and a rule hides the node that
does not feed the calculation. -/
theorem Definition.logged_calculation_iff {definition : Definition}
    {constructors : Constructors} {settings : Settings} {now : DateTime}
    {saved : Option AnswerTree} {form : Form}
    (built : definition.form constructors settings now saved = .ok form)
    (plain : form.tree.IsPlain) (sole : form.engine.rulebook.Sole .answer) {current : Form}
    {log : List Update} (logged : form.Logged current log) {number : Nat} {rule : Rule}
    (entered : form.engine.rulebook.rule? number = some rule)
    (calculates : rule.effect = .calculate) {place : Reference}
    (member : place ∈ current.tree.references) (isTarget : place.genericize = rule.target) :
    ∃ node result answer, current.tree.find? place = some node ∧
      Expression.evaluate now current.tree place rule.expression = .ok result ∧
      answerFrom result node.facts.type = .ok answer ∧
      (leftDropped log place = true → node.facts.answer = none) ∧
      (sameAnswer node.facts.answer answer = true ↔
        (leftDropped log place = true → answer = none)) ∧
      (sameAnswer node.facts.answer answer = true ∨ settings.hiddenAnswers = .clear ∧
        ∃ hider other, form.engine.rulebook.rule? hider = some other ∧
          other.effect = .relevant ∧ other.target.covers rule.target = true ∧
          ¬ form.engine.rulebook.Feeds hider number) := by
  rcases Definition.form_retaining built with ⟨sound, numbered, settled⟩
  rw [logged.sameShape.references] at member
  rcases logged.stands sound numbered plain sole entered calculates member isTarget with
    ⟨gone, node, result, answer, found, evaluated, cast, shown⟩
  have evaluator : form.engine.evaluator = Expression.evaluator now := sound.evaluator
  rw [evaluator] at evaluated
  have empty : leftDropped log place = true → node.facts.answer = none := by
    intro dropped
    have unanswered := gone dropped
    rw [AnswerTree.answer?, found] at unanswered
    exact unanswered
  refine ⟨node, result, answer, found, evaluated, cast, empty, ⟨fun same dropped => ?_, ?_⟩, ?_⟩
  · rw [empty dropped] at same
    exact none_sameAnswer same
  · intro blank
    rcases shown with same | ⟨unanswered, dropped, -⟩
    · exact same
    · rw [unanswered, blank dropped]
      rfl
  · rw [← settled]
    exact shown.imp_right fun other => other.2.2

/-! An order with a delivery. -/

namespace Order

def delivery : Definition where
  id := none
  title := "delivery"
  skeleton :=
    let number (name : String) (value : Option String) : Skeleton :=
      { Skeleton.ofName name with type := .int, value }
    { Skeleton.ofName "data" with
      children := [number "express" (some "1"), number "weight" (some "2"),
        { Skeleton.ofName "express-delivery" with children := [number "price" none] }] }
  binds := [
    { Bind.ofTarget (every ["express-delivery"]) with
      relevant := some (.answer (every ["express"])) },
    { Bind.ofTarget (every ["express-delivery", "price"]) with
      calculate := some (.binary .add (.answer (every ["weight"])) (.literal (.int 1))) }]

def deliveryPrice : Reference :=
  .absolute [⟨"data", .index 0⟩, ⟨"express-delivery", .index 0⟩, ⟨"price", .index 0⟩]

end Order

/-- When the weight changes after the delivery has been taken back and asked for
again, its price is there. -/
theorem delivery_calculation_iff : ∃ form hidden shown outcome log rule node,
    Order.delivery.form .standard ⟨.clear, true⟩ .startOf2020 none = .ok form ∧
    form.initial.form.setAnswer (Order.ofOrder "express") (some (.int 0)) = .ok hidden ∧
    hidden.form.setAnswer (Order.ofOrder "express") (some (.int 1)) = .ok shown ∧
    shown.form.setAnswer (Order.ofOrder "weight") (some (.int 4)) = .ok outcome ∧
    form.Logged outcome.form log ∧ leftDropped log Order.deliveryPrice = false ∧
    form.engine.rulebook.rule? 1 = some rule ∧
    outcome.form.tree.find? Order.deliveryPrice = some node ∧
    ∃ result answer,
      Expression.evaluate .startOf2020 outcome.form.tree Order.deliveryPrice rule.expression =
        .ok result ∧
      answerFrom result node.facts.type = .ok answer ∧
      sameAnswer node.facts.answer answer = true := by
  have ready : (Order.delivery.form .standard ⟨.clear, true⟩ .startOf2020 none).toOption.any
      (fun form => decide (form.initial.report.failures = [] ∧ form.tree.IsPlain ∧
          form.engine.rulebook.Sole .answer ∧ form.IsFree (Order.ofOrder "express") ∧
          form.IsFree (Order.ofOrder "weight")) &&
        (form.engine.rulebook.rule? 1).any (fun rule => decide (rule.effect = .calculate ∧
          Order.deliveryPrice.genericize = rule.target)) &&
        (form.initial.form.setAnswer (Order.ofOrder "express") (some (.int 0))).toOption.any
          fun hidden => decide (hidden.report.failures = []) &&
            (hidden.form.setAnswer (Order.ofOrder "express") (some (.int 1))).toOption.any
              fun shown => decide (shown.report.failures = []) &&
                (shown.form.setAnswer (Order.ofOrder "weight") (some (.int 4))).toOption.any
                  fun outcome => decide (outcome.report.failures = [] ∧
                    Order.deliveryPrice ∈ outcome.form.tree.references ∧
                    leftDropped (form.initial.report.updates ++ hidden.report.updates ++
                      shown.report.updates ++ outcome.report.updates) Order.deliveryPrice =
                        false)) = true := by
    decide +kernel
  rcases exists_ok_of_any ready with ⟨form, built, ready⟩
  simp only [Bool.and_eq_true, decide_eq_true_eq] at ready
  rcases ready with ⟨⟨⟨clean, plain, sole, free, freeToo⟩, isRule⟩, hides⟩
  rcases (Option.any_eq_true _ _).mp isRule with ⟨rule, entered, isRule⟩
  rcases decide_eq_true_eq.mp isRule with ⟨calculates, target⟩
  rcases exists_ok_of_any hides with ⟨hidden, hid, hides⟩
  rcases Bool.and_eq_true_iff.mp hides with ⟨cleanHidden, shows⟩
  rcases exists_ok_of_any shows with ⟨shown, showed, shows⟩
  rcases Bool.and_eq_true_iff.mp shows with ⟨cleanShown, weighs⟩
  rcases exists_ok_of_any weighs with ⟨outcome, weighed, weighs⟩
  rcases decide_eq_true_eq.mp weighs with ⟨cleanOutcome, member, written⟩
  have logged := (((Form.Logged.initial clean).setAnswer free hid
    (decide_eq_true_eq.mp cleanHidden)).setAnswer free showed
    (decide_eq_true_eq.mp cleanShown)).setAnswer freeToo weighed cleanOutcome
  rcases Definition.logged_calculation_iff built plain sole logged entered calculates member target
    with ⟨node, result, answer, found, evaluated, cast, -, agrees, -⟩
  refine ⟨form, hidden, shown, outcome, _, rule, node, built, hid, showed, weighed, logged, written,
    entered, found, result, answer, evaluated, cast, agrees.mpr fun dropped => ?_⟩
  rw [written] at dropped
  cases dropped

/-- When the delivery has only been taken back and asked for again, it has no
price. -/
theorem delivery_unpriced : ∃ form hidden shown rule node result,
    Order.delivery.form .standard ⟨.clear, true⟩ .startOf2020 none = .ok form ∧
    form.initial.report.failures = [] ∧ form.tree.IsPlain ∧
    form.engine.rulebook.Sole .answer ∧ form.IsFree (Order.ofOrder "express") ∧
    form.initial.form.setAnswer (Order.ofOrder "express") (some (.int 0)) = .ok hidden ∧
    hidden.report.failures = [] ∧
    hidden.form.setAnswer (Order.ofOrder "express") (some (.int 1)) = .ok shown ∧
    shown.report.failures = [] ∧
    form.engine.rulebook.rule? 1 = some rule ∧ rule.effect = .calculate ∧
    Order.deliveryPrice.genericize = rule.target ∧
    shown.form.tree.find? Order.deliveryPrice = some node ∧ node.isRelevant = true ∧
    Expression.evaluate .startOf2020 shown.form.tree Order.deliveryPrice rule.expression =
      .ok result ∧
    (answerFrom result node.facts.type).toOption = some (some (.int 3)) ∧
    node.facts.answer = none := by
  have unpriced : (Order.delivery.form .standard ⟨.clear, true⟩ .startOf2020 none).toOption.any
      (fun form => decide (form.initial.report.failures = [] ∧ form.tree.IsPlain ∧
          form.engine.rulebook.Sole .answer ∧ form.IsFree (Order.ofOrder "express")) &&
        (form.initial.form.setAnswer (Order.ofOrder "express") (some (.int 0))).toOption.any
          fun hidden => decide (hidden.report.failures = []) &&
            (hidden.form.setAnswer (Order.ofOrder "express") (some (.int 1))).toOption.any
              fun shown => decide (shown.report.failures = []) &&
                (form.engine.rulebook.rule? 1).any fun rule => decide (rule.effect = .calculate ∧
                  Order.deliveryPrice.genericize = rule.target) &&
                  (shown.form.tree.find? Order.deliveryPrice).any fun node =>
                    (Expression.evaluate .startOf2020 shown.form.tree Order.deliveryPrice
                      rule.expression).toOption.any fun result => decide (
                        node.isRelevant = true ∧
                        (answerFrom result node.facts.type).toOption = some (some (.int 3)) ∧
                        node.facts.answer = none)) = true := by
    decide +kernel
  rcases exists_ok_of_any unpriced with ⟨form, built, unpriced⟩
  rcases Bool.and_eq_true_iff.mp unpriced with ⟨isReady, hides⟩
  rcases decide_eq_true_eq.mp isReady with ⟨clean, plain, sole, free⟩
  rcases exists_ok_of_any hides with ⟨hidden, hid, hides⟩
  rcases Bool.and_eq_true_iff.mp hides with ⟨cleanHidden, shows⟩
  rcases exists_ok_of_any shows with ⟨shown, showed, shows⟩
  rcases Bool.and_eq_true_iff.mp shows with ⟨cleanShown, isRule⟩
  rcases (Option.any_eq_true _ _).mp isRule with ⟨rule, entered, isRule⟩
  rcases Bool.and_eq_true_iff.mp isRule with ⟨isCalculation, isNode⟩
  rcases decide_eq_true_eq.mp isCalculation with ⟨calculates, target⟩
  rcases (Option.any_eq_true _ _).mp isNode with ⟨node, found, isNode⟩
  rcases exists_ok_of_any isNode with ⟨result, evaluated, isNode⟩
  rcases decide_eq_true_eq.mp isNode with ⟨relevant, cast, unanswered⟩
  exact ⟨form, hidden, shown, rule, node, result, built, clean, plain, sole, free, hid,
    decide_eq_true_eq.mp cleanHidden, showed, decide_eq_true_eq.mp cleanShown, entered, calculates,
    target, found, relevant, evaluated, cast, unanswered⟩

end ReactiveForm
