import ReactiveForm.Proofs.Deeds
import ReactiveForm.Proofs.Holding
import ReactiveForm.Proofs.Rules
import ReactiveForm.Recalculation.Editing

/-! One rule fires. Where nothing fails, its targets hold what its expression
says, and nothing else has changed. Hidden answers are kept throughout. -/

namespace ReactiveForm

/-! Values that are the same. -/

namespace Value

open Float.Model

def unsigned : UnpackedFloat → UnpackedFloat
  | .zero _ => .zero .positive
  | other => other

theorem compare_eq_iff (left right : UnpackedFloat) :
    left.compare right = some .eq ↔ left ≠ .notANumber ∧ unsigned left = unsigned right := by
  have digits {exponent other : Int} {mantissa another : Nat} :
      (compare exponent other).then (compare mantissa another) = .eq ↔
        mantissa = another ∧ exponent = other := by
    rw [Ordering.then_eq_eq, compare_eq_iff_eq, compare_eq_iff_eq, and_comm]
  cases left with
  | notANumber => exact iff_of_false nofun fun both => both.1 rfl
  | infinity sign =>
      cases right with
      | infinity other =>
          cases sign <;> cases other
          case positive.positive | negative.negative => exact iff_of_true rfl ⟨nofun, rfl⟩
          case positive.negative | negative.positive => exact iff_of_false nofun nofun
      | zero | finite | notANumber => cases sign <;> exact iff_of_false nofun nofun
  | zero sign =>
      cases right with
      | infinity other | finite other => cases other <;> exact iff_of_false nofun nofun
      | zero => exact iff_of_true rfl ⟨nofun, rfl⟩
      | notANumber => exact iff_of_false nofun nofun
  | finite sign mantissa exponent =>
      cases right with
      | infinity other => cases sign <;> cases other <;> exact iff_of_false nofun nofun
      | zero | notANumber => cases sign <;> exact iff_of_false nofun nofun
      | finite other another power =>
          cases sign <;> cases other
          case positive.negative | negative.positive => exact iff_of_false nofun nofun
          case positive.positive =>
            change some ((compare exponent power).then (compare mantissa another)) = some .eq ↔
              _ ∧ UnpackedFloat.finite .positive mantissa exponent _ = .finite _ another power _
            rw [Option.some.injEq, digits, UnpackedFloat.finite.injEq]
            exact ⟨fun same => ⟨nofun, rfl, same⟩, fun both => both.2.2⟩
          case negative.negative =>
            change some ((compare exponent power).then (compare mantissa another)).swap = some .eq ↔
              _ ∧ UnpackedFloat.finite .negative mantissa exponent _ = .finite _ another power _
            rw [Option.some.injEq, Ordering.swap_eq_eq, digits, UnpackedFloat.finite.injEq]
            exact ⟨fun same => ⟨nofun, rfl, same⟩, fun both => both.2.2⟩

theorem isNaN_iff {number : UnpackedFloat} : number.isNaN = true ↔ number = .notANumber := by
  cases number with
  | notANumber => exact iff_of_true rfl rfl
  | infinity | zero | finite => exact iff_of_false Bool.false_ne_true UnpackedFloat.noConfusion

theorem unsigned_eq_notANumber {number : UnpackedFloat} (same : unsigned number = .notANumber) :
    number = .notANumber := by
  cases number with
  | notANumber => rfl
  | infinity | zero | finite => cases same

theorem beq_or_isNaN_iff (left right : UnpackedFloat) :
    (left.beq right || (left.isNaN && right.isNaN)) = true ↔ unsigned left = unsigned right := by
  have equal : left.beq right = true ↔ left.compare right = some .eq := beq_iff_eq
  rw [Bool.or_eq_true, Bool.and_eq_true, isNaN_iff, isNaN_iff, equal, compare_eq_iff]
  constructor
  · rintro (⟨-, same⟩ | ⟨rfl, rfl⟩)
    · exact same
    · rfl
  · intro same
    by_cases none : left = .notANumber
    · subst none
      exact .inr ⟨rfl, unsigned_eq_notANumber same.symm⟩
    · exact .inl ⟨none, same⟩

def bare : Value → UnpackedFloat ⊕ Value
  | .decimal number => .inl (unsigned number.toModel.unpack)
  | other => .inr other

theorem same_iff {left right : Value} : left.same right = true ↔ left.bare = right.bare := by
  cases left with
  | decimal left =>
      cases right with
      | decimal right => exact (beq_or_isNaN_iff _ _).trans Sum.inl_injective.eq_iff.symm
      | _ => simp [same, bare]
  | _ => cases right <;> simp [same, bare]

theorem same_congr {left right : Value} (isSame : left.same right = true) (other : Value) :
    left.same other = right.same other := by
  rw [Bool.eq_iff_iff, same_iff, same_iff, same_iff.mp isSame]

theorem same_self (value : Value) : value.same value = true := same_iff.mpr rfl

end Value

/-! Settled targets. -/

theorem sameAnswer_self (answer : Option Value) : sameAnswer answer answer = true := by
  cases answer with
  | none => rfl
  | some value => exact value.same_self

namespace Effect

def field : Effect → Field
  | .calculate | .setValue _ => .answer
  | .relevant => .relevant
  | .required => .required
  | .constraint _ => .validity

def isKept : Effect → Bool
  | .calculate | .relevant | .required => true
  | .constraint _ | .setValue _ => false

theorem ne_setValue_of_isKept {effect : Effect} (kept : effect.isKept = true)
    (occasion : Occasion) : effect ≠ .setValue occasion := by
  rintro rfl
  cases kept

def touch (effect : Effect) (target : Reference) : Touch :=
  if effect.writesAnswer then .answer target else .state target

theorem reference_touch (effect : Effect) (place : Reference) :
    (effect.touch place).reference = place := by
  rw [Effect.touch]
  split <;> rfl

/-- Whether a node holds what a rule with this outcome puts there, as a test. -/
def settles (effect : Effect) (facts : Facts) (outcome : Except EvaluationError Value) : Bool :=
  match effect, outcome with
  | .calculate, .ok result | .setValue _, .ok result =>
      (answerFrom result facts.type).toOption.any (sameAnswer facts.answer)
  | .relevant, .ok result => facts.relevant == result.truth
  | .required, .ok result => facts.required == result.truth
  | .constraint message, outcome => facts.validity == verdict facts.answer message outcome
  | _, .error _ => false

theorem settles_iff {effect : Effect} {facts : Facts} {outcome : Except EvaluationError Value} :
    effect.settles facts outcome = true ↔ effect.Settled facts outcome := by
  have writes (result : Value) :
      (answerFrom result facts.type).toOption.any (sameAnswer facts.answer) = true ↔
        ∃ value current, Except.ok (ε := EvaluationError) result = .ok value ∧
          answerFrom value facts.type = .ok current ∧ sameAnswer facts.answer current = true := by
    constructor
    · intro agrees
      rcases exists_ok_of_any agrees with ⟨current, cast, same⟩
      exact ⟨result, current, rfl, cast, same⟩
    · rintro ⟨_, current, equal, cast, same⟩
      cases equal
      rw [cast]
      exact same
  cases effect with
  | calculate | setValue _ =>
      cases outcome with
      | error _ => simp [settles, Settled]
      | ok result => exact writes result
  | relevant | required =>
      cases outcome <;> simp [settles, Settled]
  | constraint message => cases outcome <;> simp [settles, Settled]

instance (effect : Effect) (facts : Facts) (outcome : Except EvaluationError Value) :
    Decidable (effect.Settled facts outcome) :=
  decidable_of_iff _ settles_iff

theorem Settled.congr {effect : Effect} {facts other : Facts}
    {outcome : Except EvaluationError Value} (settled : effect.Settled facts outcome)
    (type : other.type = facts.type) (field : effect.field.of other = effect.field.of facts)
    (answer : effect.isKept = true ∨ other.answer = facts.answer) :
    effect.Settled other outcome := by
  cases effect with
  | calculate | setValue _ =>
      have answer : other.answer = facts.answer := field
      simpa only [Settled, type, answer] using settled
  | relevant =>
      have relevant : other.relevant = facts.relevant := field
      simpa only [Settled, relevant] using settled
  | required =>
      have required : other.required = facts.required := field
      simpa only [Settled, required] using settled
  | constraint message =>
      have validity : other.validity = facts.validity := field
      have answer : other.answer = facts.answer := answer.resolve_left Bool.false_ne_true
      simpa only [Settled, validity, answer] using settled

end Effect

def Update.touch (update : Update) : Touch :=
  match update.change with
  | .answer _ _ | .cleared => .answer update.target
  | _ => .state update.target

theorem Update.reference_touch (update : Update) : update.touch.reference = update.target := by
  rw [Update.touch]
  split <;> rfl

theorem Report.targets_eq (report : Report) : report.updates.map (·.target) =
    (report.updates.map Update.touch).map Touch.reference := by
  simp [Update.reference_touch]

/-! The work at one target. -/

structure Done (effect : Effect) (target : Reference) (outcome : Except EvaluationError Value)
    (before after : Pass) (more : List Touch) : Prop where
  shape : after.tree.SameShape before.tree
  frame : ∀ field place, place ≠ target ∨ field ≠ effect.field →
    after.tree.held field place = before.tree.held field place
  settled : ∃ node, after.tree.find? target = some node ∧ effect.Settled node.facts outcome
  touches : more = [effect.touch target] ∨
    more = [] ∧ after.tree.held effect.field target = before.tree.held effect.field target
  failures : after.report.failures = before.report.failures
  fired : after.report.fired = before.report.fired
  updates : after.report.updates.map Update.touch = before.report.updates.map Update.touch ++ more

section Work

variable {number : Nat} {target : Reference} {node : Node} {before after : Pass}
  {outcome : Except EvaluationError Value} {more : List Touch}

theorem done_of_change {effect : Effect} (change : Node → Node)
    (found : before.tree.find? target = some node) (isLocal : Node.Local change)
    (outline : ∀ node, (change node).outline = node.outline)
    (tree : after.tree = before.tree.change target change)
    (others : ∀ field, field ≠ effect.field → field.of (change node).facts = field.of node.facts)
    (settled : effect.Settled (change node).facts outcome)
    (touches : more = [effect.touch target] ∨
      more = [] ∧ effect.field.of (change node).facts = effect.field.of node.facts)
    (failures : after.report.failures = before.report.failures)
    (fired : after.report.fired = before.report.fired)
    (updates : after.report.updates.map Update.touch =
      before.report.updates.map Update.touch ++ more) :
    Done effect target outcome before after more := by
  have there : after.tree.find? target = some (change node) := by
    rw [tree, AnswerTree.find?_change_self isLocal.keeps, found]
    rfl
  refine ⟨?_, fun field place apart => ?_, ⟨change node, there, settled⟩, ?_, failures, fired,
    updates⟩
  · rw [tree]
    exact AnswerTree.change_sameShape outline _ _
  · by_cases here : place = target
    · subst here
      rw [AnswerTree.held, AnswerTree.held, there, found]
      exact congrArg some (others field (apart.resolve_left fun differs => differs rfl))
    · rw [tree, AnswerTree.held_change_other isLocal field here]
  · cases touches with
    | inl single => exact .inl single
    | inr untouched =>
        refine .inr ⟨untouched.1, ?_⟩
        rw [AnswerTree.held, AnswerTree.held, there, found]
        exact congrArg some untouched.2

theorem done_of_settled {effect : Effect} (found : before.tree.find? target = some node)
    (settled : effect.Settled node.facts outcome) :
    Done effect target outcome before before [] :=
  ⟨.refl _, fun _ _ _ => rfl, ⟨node, found, settled⟩, .inr ⟨rfl, rfl⟩, rfl, rfl, by simp⟩

theorem Effect.field_of_writes {effect : Effect} (writes : effect.writesAnswer = true) :
    effect.field = .answer := by
  cases effect with
  | calculate | setValue _ => rfl
  | relevant | required | constraint _ => cases writes

theorem Deed.done {settings : Settings} (retain : settings.hiddenAnswers = .retain)
    {effect : Effect} (found : before.tree.find? target = some node)
    (deed : Deed settings number target node before effect outcome after more) :
    Done effect target outcome before after more := by
  cases deed with
  | idles _ settled => exact done_of_settled found settled
  | @writes _ writes result current cast differs =>
      refine done_of_change (·.withFacts ({ · with answer := current })) found
        (Node.withFacts_local (fun _ => rfl) fun _ => rfl)
        (fun _ => Node.outline_withFacts rfl rfl) rfl ?_ ?_ (.inl ?_) rfl rfl ?_
      · rw [Effect.field_of_writes writes]
        intro other apart
        cases other <;> first | rfl | exact absurd rfl apart
      · exact Effect.settled_of_writes writes cast (sameAnswer_self current)
      · rw [Effect.touch, if_pos writes]
      · simp [Pass.noteUpdate, Pass.tell, Update.touch]
  | @repeats result same =>
      refine done_of_change _ found (Node.setRelevant_local result.truth)
        (fun _ => Node.outline_setRelevant _ _) rfl (fun other apart => ?_)
        ⟨result, rfl, ?_⟩ (.inr ⟨rfl, ?_⟩) rfl rfl (by simp)
      all_goals cases node
      · cases other <;> first | rfl | exact absurd rfl apart
      · rfl
      · exact same.symm
  | @relates result differs _ =>
      refine done_of_change _ found (Node.setRelevant_local result.truth)
        (fun _ => Node.outline_setRelevant _ _) rfl (fun other apart => ?_)
        ⟨result, rfl, ?_⟩ (.inl rfl) rfl rfl (by simp [Pass.noteUpdate, Update.touch])
      all_goals cases node
      · cases other <;> first | rfl | exact absurd rfl apart
      · rfl
  | hides clears =>
      -- Hidden answers are kept.
      rw [retain] at clears
      cases clears
  | @requires result differs =>
      refine done_of_change (·.withFacts ({ · with required := result.truth })) found
        (Node.withFacts_local (fun _ => rfl) fun _ => rfl)
        (fun _ => Node.outline_withFacts rfl rfl) rfl ?_ ⟨result, rfl, rfl⟩ (.inl rfl) rfl rfl
        (by simp [Pass.noteUpdate, Update.touch])
      intro other apart
      cases other <;> first | rfl | exact absurd rfl apart
  | @judges message _ differs =>
      refine done_of_change
        (·.withFacts ({ · with validity := verdict node.facts.answer message outcome })) found
        (Node.withFacts_local (fun _ => rfl) fun _ => rfl)
        (fun _ => Node.outline_withFacts rfl rfl) rfl ?_ rfl (.inl rfl) rfl rfl
        (by simp [Pass.noteUpdate, Update.touch])
      intro other apart
      cases other <;> first | rfl | exact absurd rfl apart

end Work

theorem Engine.apply_done {engine : Engine} (retain : engine.settings.hiddenAnswers = .retain)
    {before after : Pass} {number : Nat} {effect : Effect} {target : Reference}
    {outcome : Except EvaluationError Value} {more : List Touch}
    (applied : engine.apply before number effect target outcome = .ok (after, more)) :
    Done effect target outcome before after more := by
  rcases apply_deed applied with ⟨node, found, deed⟩
  exact deed.done retain found

/-! Rules that are to hold. -/

namespace Engine

/-- A node holds what a rule says, evaluated there in the tree as it is. -/
def Current (engine : Engine) (tree : AnswerTree) (rule : Rule) (place : Reference) : Prop :=
  ∃ node, tree.find? place = some node ∧
    rule.effect.Settled node.facts (engine.evaluator tree rule.expression place)

instance (engine : Engine) (tree : AnswerTree) (rule : Rule) (place : Reference) :
    Decidable (engine.Current tree rule place) :=
  decidable_of_iff ((tree.find? place).any fun node =>
      decide (rule.effect.Settled node.facts (engine.evaluator tree rule.expression place)))
    (by simp [Current, Option.any_eq_true])

/-- What a built form makes sure of: expressions are evaluated by a clock that
stands still, hidden answers are kept, rules are bound, and they are found by
what they read and ordered by what they feed. -/
structure IsSound (engine : Engine) (now : DateTime) : Prop where
  evaluator : engine.evaluator = Expression.evaluator now
  retain : engine.settings.hiddenAnswers = .retain
  bound : ∀ {number : Nat} {rule : Rule}, engine.rulebook.rule? number = some rule → rule.IsBound
  indexed : engine.rulebook.IsIndexed
  orders : engine.dependencies.Orders engine.rulebook

variable {engine : Engine} {now : DateTime}

theorem settled_congr {tree other : AnswerTree} {effect : Effect} {place there : Reference}
    {outcome : Except EvaluationError Value}
    (type : other.held .type there = tree.held .type place)
    (field : other.held effect.field there = tree.held effect.field place)
    (answer : effect.isKept = true ∨ other.held .answer there = tree.held .answer place)
    (settled : ∃ node, tree.find? place = some node ∧ effect.Settled node.facts outcome) :
    ∃ node, other.find? there = some node ∧ effect.Settled node.facts outcome := by
  rcases settled with ⟨node, found, settled⟩
  rw [AnswerTree.held, AnswerTree.held, found] at type field answer
  rcases Option.map_eq_some_iff.mp type with ⟨node', found', sameType⟩
  rw [found'] at field answer
  exact ⟨node', found', settled.congr sameType (Option.some.inj field)
    (answer.imp_right Option.some.inj)⟩

theorem Current.congr {tree other : AnswerTree} {rule : Rule} {place there : Reference}
    (current : engine.Current tree rule place)
    (type : other.held .type there = tree.held .type place)
    (field : other.held rule.effect.field there = tree.held rule.effect.field place)
    (answer : rule.effect.isKept = true ∨ other.held .answer there = tree.held .answer place)
    (outcome : engine.evaluator other rule.expression there =
      engine.evaluator tree rule.expression place) : engine.Current other rule there := by
  rw [Current, outcome]
  exact settled_congr type field answer current

theorem IsSound.not_feeds_self (sound : engine.IsSound now) {number : Nat} :
    ¬ engine.rulebook.Feeds number number := fun feeds =>
  sound.orders.not_transGen_self number (.single feeds)

theorem IsSound.not_reads_target (sound : engine.IsSound now) {number : Nat} {rule : Rule}
    (entered : engine.rulebook.rule? number = some rule)
    (noAction : ∀ occasion, rule.effect ≠ .setValue occasion)
    (writes : rule.effect.writesAnswer = true) {tree : AnswerTree} {context place : Reference}
    (target : context.genericize = rule.target)
    (reads : rule.expression.Reads tree context place) : place.genericize ≠ rule.target := by
  intro own
  have bound := sound.bound entered
  rcases bound.feeds_of_isTriggeredBy own
    (bound.isTriggeredBy_of_reads noAction target reads) with
    ⟨trigger, member, feeds⟩
  exact sound.not_feeds_self ⟨rule, rule, entered, entered, ⟨trigger, member, feeds⟩, fun _ => writes⟩

end Engine

/-! A rule fires. -/

structure Firing where
  number : Nat
  rule : Rule
  anchors : List Reference
  found : List Reference
  touched : List Touch

namespace Engine

structure Worked (engine : Engine) (rule : Rule) (found : List Reference) (before after : Pass)
    (touched : List Touch) : Prop where
  shape : after.tree.SameShape before.tree
  frame : ∀ field place, field ≠ rule.effect.field ∨ place ∉ found →
    after.tree.held field place = before.tree.held field place
  current : (∀ occasion, rule.effect ≠ .setValue occasion) →
    ∀ place ∈ found, engine.Current after.tree rule place
  touches : ∀ touch ∈ touched, ∃ place ∈ found, touch = rule.effect.touch place
  recorded : ∀ place, rule.effect.touch place ∈ touched ∨
    after.tree.held rule.effect.field place = before.tree.held rule.effect.field place
  fired : after.report.fired = before.report.fired
  updates : after.report.updates.map Update.touch =
    before.report.updates.map Update.touch ++ touched

variable {engine : Engine} {now : DateTime}

theorem Worked.nil (rule : Rule) (pass : Pass) : engine.Worked rule [] pass pass [] :=
  ⟨.refl _, fun _ _ _ => rfl, by simp, by simp, by simp, rfl, by simp⟩

theorem IsSound.outcome_congr (sound : engine.IsSound now) {tree other : AnswerTree} {rule : Rule}
    {place : Reference} (shape : other.SameShape tree)
    (same : ∀ read, rule.expression.Reads tree place read →
      other.held .answer read = tree.held .answer read) :
    engine.evaluator other rule.expression place = engine.evaluator tree rule.expression place := by
  rw [sound.evaluator]
  apply Expression.evaluate_sameShape shape
  intro read reads
  rw [AnswerTree.answer?_eq_held, AnswerTree.answer?_eq_held, same read reads]

theorem field_eq_answer_iff {effect : Effect} :
    effect.field = .answer ↔ effect.writesAnswer = true := by
  cases effect <;> simp [Effect.field, Effect.writesAnswer]

theorem IsSound.outcome_stays (sound : engine.IsSound now) {number : Nat} {rule : Rule}
    (entered : engine.rulebook.rule? number = some rule)
    (noAction : ∀ occasion, rule.effect ≠ .setValue occasion)
    {tree other : AnswerTree} {found : List Reference}
    (targets : ∀ place ∈ found, place.genericize = rule.target) (shape : other.SameShape tree)
    (frame : ∀ field place, field ≠ rule.effect.field ∨ place ∉ found →
      other.held field place = tree.held field place)
    {place : Reference} (target : place.genericize = rule.target) :
    engine.evaluator other rule.expression place = engine.evaluator tree rule.expression place := by
  refine sound.outcome_congr shape fun read reads => frame .answer read ?_
  cases writes : rule.effect.writesAnswer with
  | true =>
      refine .inr fun member => ?_
      exact sound.not_reads_target entered noAction writes target reads (targets read member)
  | false =>
      refine .inl fun field => ?_
      rw [field_eq_answer_iff.mp field.symm] at writes
      cases writes

theorem Worked.cons (sound : engine.IsSound now) {number : Nat} {rule : Rule}
    (entered : engine.rulebook.rule? number = some rule) {target : Reference}
    {rest : List Reference} (targets : ∀ place ∈ target :: rest, place.genericize = rule.target)
    {before between after : Pass} {more touched : List Touch}
    (done : Done rule.effect target (engine.evaluator before.tree rule.expression target)
      before between more)
    (worked : engine.Worked rule rest between after touched) :
    engine.Worked rule (target :: rest) before after (more ++ touched) := by
  rcases List.forall_mem_cons.mp targets with ⟨here, below⟩
  have frame : ∀ field place, field ≠ rule.effect.field ∨ place ∉ target :: rest →
      after.tree.held field place = before.tree.held field place := by
    intro field place apart
    rw [worked.frame field place (apart.imp_right fun outside => fun inside =>
      outside (List.mem_cons_of_mem _ inside))]
    exact done.frame field place (apart.symm.imp_left fun outside => fun equal =>
      outside (equal ▸ List.mem_cons_self))
  refine ⟨worked.shape.trans done.shape, frame, ?_, ?_, ?_, worked.fired.trans done.fired, ?_⟩
  · intro noAction place member
    by_cases inRest : place ∈ rest
    · exact worked.current noAction place inRest
    · -- The rule does not read what it sets at the other targets.
      have equal : place = target := (List.mem_cons.mp member).resolve_right inRest
      subst equal
      have elsewhere : ∀ field other, field ≠ rule.effect.field ∨ other ∉ [place] →
          between.tree.held field other = before.tree.held field other := fun field other apart =>
        done.frame field other (apart.symm.imp_left fun outside => by simpa using outside)
      have outcome := sound.outcome_stays entered noAction
        (List.forall_mem_singleton.mpr here) done.shape elsewhere here
      have current : engine.Current between.tree rule place := by
        rcases done.settled with ⟨node, found, settled⟩
        exact ⟨node, found, by rwa [outcome]⟩
      exact current.congr (worked.frame _ _ (.inr inRest)) (worked.frame _ _ (.inr inRest))
        (.inr (worked.frame _ _ (.inr inRest)))
        (sound.outcome_stays entered noAction below worked.shape worked.frame here)
  · intro touch member
    rcases List.mem_append.mp member with member | member
    · refine ⟨target, List.mem_cons_self, ?_⟩
      rcases done.touches with single | ⟨none, -⟩
      · rw [single] at member
        exact List.mem_singleton.mp member
      · rw [none] at member
        cases member
    · rcases worked.touches touch member with ⟨place, inRest, equal⟩
      exact ⟨place, List.mem_cons_of_mem _ inRest, equal⟩
  · intro place
    have first : rule.effect.touch place ∈ more ∨
        between.tree.held rule.effect.field place = before.tree.held rule.effect.field place := by
      by_cases equal : place = target
      · subst equal
        exact done.touches.imp (fun single => by simp [single]) fun ⟨_, same⟩ => same
      · exact .inr (done.frame _ _ (.inl equal))
    rcases first with touched | same
    · exact .inl (List.mem_append_left _ touched)
    · exact (worked.recorded place).imp (List.mem_append_right _) fun later => later.trans same
  · rw [worked.updates, done.updates, List.append_assoc]

theorem fireAt_failures {number : Nat} {rule : Rule} {progress : Pass × List Touch}
    {target : Reference}
    (clean : (engine.fireAt number rule progress target).1.report.failures = [])
    (retain : engine.settings.hiddenAnswers = .retain) :
    progress.1.report.failures = [] ∧ ∃ between more,
      engine.apply progress.1 number rule.effect target
        (engine.evaluator progress.1.tree rule.expression target) = .ok (between, more) ∧
      engine.fireAt number rule progress target = (between, progress.2 ++ more) := by
  rw [fireAt] at clean ⊢
  split at clean
  next between more applied =>
    refine ⟨?_, between, more, applied, rfl⟩
    rw [← (apply_done retain applied).failures]
    exact clean
  next reason _ => simp [Pass.noteFailure] at clean

theorem IsSound.foldl_worked (sound : engine.IsSound now) {number : Nat} {rule : Rule}
    (entered : engine.rulebook.rule? number = some rule) {found : List Reference}
    (targets : ∀ place ∈ found, place.genericize = rule.target) {progress : Pass × List Touch}
    (clean : (found.foldl (engine.fireAt number rule) progress).1.report.failures = []) :
    progress.1.report.failures = [] ∧ ∃ after touched,
      found.foldl (engine.fireAt number rule) progress = (after, progress.2 ++ touched) ∧
      engine.Worked rule found progress.1 after touched := by
  induction found generalizing progress with
  | nil => exact ⟨clean, progress.1, [], by simp, .nil rule progress.1⟩
  | cons target rest induction =>
      rcases induction (List.forall_mem_cons.mp targets).2 clean with
        ⟨cleanBetween, after, touched, folded, worked⟩
      rcases fireAt_failures cleanBetween sound.retain with
        ⟨cleanBefore, between, more, applied, step⟩
      rw [step] at worked folded
      refine ⟨cleanBefore, after, more ++ touched, ?_, ?_⟩
      · rw [List.foldl_cons, step, folded, List.append_assoc]
      · exact Worked.cons sound entered targets (apply_done sound.retain applied) worked

theorem genericize_of_mem_targets {tree : AnswerTree} {rule : Rule} (bound : rule.IsBound)
    {anchors found : List Reference} (located : targets tree rule anchors = .ok found) :
    ∀ place ∈ found, place.genericize = rule.target := by
  rw [targets] at located
  split at located
  · intro place member
    have overlap := AnswerTree.intersects_of_mem_expand bound.target.absolute located member
    exact bound.target.intersects_iff.mp overlap
  · rcases bind_eq_ok.mp located with ⟨lists, each, located⟩
    cases located
    intro place member
    rcases List.mem_flatten.mp (List.mem_eraseDups.mp member) with ⟨list, inLists, inList⟩
    rcases exists_of_forall₂ (forall₂_of_mapM_ok each).flip inLists with ⟨anchor, -, near⟩
    rcases Reference.exists_anchor_of_absolute bound.target.absolute anchor with
      ⟨reference, anchored, same⟩
    simp only [targetsNear, anchored] at near
    have overlap := AnswerTree.intersects_of_mem_expand
      (Reference.anchor_origin anchored) near inList
    rw [← Reference.genericize_eq_of_intersects overlap, same, bound.target.genericize_eq]

theorem targets_sameShape {tree other : AnswerTree} (shape : other.SameShape tree) {rule : Rule}
    {anchors : List Reference} : targets other rule anchors = targets tree rule anchors := by
  have near : targetsNear other rule = targetsNear tree rule := by
    funext anchor
    simp only [targetsNear, shape.expand]
  simp only [targets, near, shape.expand]

structure Fires (engine : Engine) (before : Pass) (firing : Firing) (after : Pass) : Prop where
  entered : engine.rulebook.rule? firing.number = some firing.rule
  located : targets before.tree firing.rule firing.anchors = .ok firing.found
  worked : engine.Worked firing.rule firing.found (before.noteFired firing.number) after
    firing.touched

theorem Fires.shape {before after : Pass} {firing : Firing}
    (fires : engine.Fires before firing after) : after.tree.SameShape before.tree :=
  fires.worked.shape

theorem Fires.belongs {before after : Pass} {firing : Firing}
    (fires : engine.Fires before firing after) (sound : engine.IsSound now) :
    ∀ place ∈ firing.found, place.genericize = firing.rule.target :=
  genericize_of_mem_targets (sound.bound fires.entered) fires.located

theorem IsSound.fire_fires (sound : engine.IsSound now) {number : Nat} {rule : Rule}
    (entered : engine.rulebook.rule? number = some rule) {anchors : List Reference} {before : Pass}
    (clean : (engine.fire number rule anchors before).1.report.failures = []) :
    before.report.failures = [] ∧ ∃ found after touched,
      engine.fire number rule anchors before = (after, touched) ∧
      engine.Fires before ⟨number, rule, anchors, found, touched⟩ after := by
  rw [fire] at clean ⊢
  split at clean
  next => simp [Pass.noteFailure] at clean
  next found located =>
    have belongs := genericize_of_mem_targets (sound.bound entered) located
    rcases sound.foldl_worked entered belongs clean with
      ⟨cleanBefore, after, touched, folded, worked⟩
    refine ⟨cleanBefore, found, after, touched, ?_, entered, located, worked⟩
    exact folded

end Engine

end ReactiveForm
