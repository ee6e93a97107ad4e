import ReactiveForm.Proofs.Making
import ReactiveForm.Proofs.Upholding

/-! What a rule makes of a whole tree, as a function of the tree that it sees.
A rule that is not in its own way sees the same all the while it works. Two rules
that neither see each other's work nor set the same thing can work in either
order. -/

namespace ReactiveForm

theorem foldl_comm {α β : Type} {step : β → α → β} {list : List α} (change : β → β)
    (commute : ∀ element ∈ list, ∀ state, change (step state element) = step (change state) element)
    (state : β) : change (list.foldl step state) = list.foldl step (change state) := by
  induction list generalizing state with
  | nil => rfl
  | cons head tail induction =>
      rcases List.forall_mem_cons.mp commute with ⟨first, rest⟩
      rw [List.foldl_cons, List.foldl_cons, ← first]
      exact induction rest (step state head)

/-! One target. -/

namespace Effect

def setting : Effect → Except EvaluationError Value → Node → Node
  | .calculate, .ok result =>
      (·.withFacts fun facts => { facts with answer := answerAfter facts.type facts.answer result })
  | .relevant, .ok result => (·.setRelevant result.truth)
  | .required, .ok result => (·.withFacts ({ · with required := result.truth }))
  | _, _ => id

def objection? (effect : Effect) (tree : AnswerTree) (target : Reference)
    (outcome : Except EvaluationError Value) : Option String :=
  match tree.held .type target, outcome with
  | none, _ => some (vanished target)
  | some _, .error error => some error.message
  | some type, .ok result =>
      match effect, answerFrom result type with
      | .calculate, .error error => some error.message
      | _, _ => none

theorem setting_isSetting (effect : Effect) (outcome : Except EvaluationError Value) :
    Node.IsSetting (effect.setting outcome) := by
  cases outcome with
  | error _ => cases effect <;> exact .same
  | ok result =>
      cases effect with
      | relevant => exact .relevance result.truth
      | calculate | required =>
          rw [setting]
          exact .facts (fun _ => rfl) (fun _ => rfl) (fun _ => rfl) fun _ _ => rfl
      | constraint _ | setValue _ => exact .same

theorem of_setting (effect : Effect) (outcome : Except EvaluationError Value) {field : Field}
    (apart : field ≠ effect.field) (node : Node) :
    field.of (effect.setting outcome node).facts = field.of node.facts := by
  cases node
  cases effect <;> cases outcome <;> cases field <;> first | rfl | exact absurd rfl apart

theorem setting_comm {effect other : Effect} (apart : effect ≠ other)
    (outcome another : Except EvaluationError Value) :
    Function.Commute (effect.setting outcome) (other.setting another) := by
  intro node
  cases node
  cases outcome <;> cases another <;> cases effect <;> cases other <;>
    first | rfl | exact absurd rfl apart

end Effect

/-! All targets. -/

namespace Rule

def fillAt (rule : Rule) (now : DateTime) (seen tree : AnswerTree) (target : Reference) :
    AnswerTree :=
  tree.change target (rule.effect.setting (Expression.evaluate now seen target rule.expression))

def fill (rule : Rule) (now : DateTime) (seen tree : AnswerTree) : AnswerTree :=
  match Engine.targets seen rule [] with
  | .error _ => tree
  | .ok found => found.foldl (rule.fillAt now seen) tree

def objectionAt? (rule : Rule) (now : DateTime) (seen : AnswerTree) (target : Reference) :
    Option (Reference × String) :=
  (rule.effect.objection? seen target
    (Expression.evaluate now seen target rule.expression)).map (target, ·)

def objections (rule : Rule) (now : DateTime) (seen : AnswerTree) : List (Reference × String) :=
  match Engine.targets seen rule [] with
  | .error error => [(rule.target, error.message)]
  | .ok found => found.filterMap (rule.objectionAt? now seen)

def IsReadBy (rule other : Rule) : Prop :=
  ∃ trigger ∈ other.triggers, rule.feeds trigger = true

/-- Two trees look alike to a rule. -/
structure Alike (rule : Rule) (tree other : AnswerTree) : Prop where
  shape : tree.SameShape other
  types : ∀ place, tree.held .type place = other.held .type place
  answers : ∀ place, rule.isTriggeredBy place = true →
    tree.held .answer place = other.held .answer place

variable {rule another : Rule} {now : DateTime} {seen seenToo tree other : AnswerTree}
  {target : Reference}

theorem Alike.refl (rule : Rule) (tree : AnswerTree) : rule.Alike tree tree :=
  ⟨.refl _, fun _ => rfl, fun _ _ => rfl⟩

theorem Alike.trans {last : AnswerTree} (alike : rule.Alike tree other)
    (next : rule.Alike other last) : rule.Alike tree last :=
  ⟨alike.shape.trans next.shape, fun place => (alike.types place).trans (next.types place),
    fun place triggered => (alike.answers place triggered).trans (next.answers place triggered)⟩

theorem Alike.evaluate_eq (alike : rule.Alike tree other) (bound : rule.IsBound)
    (kept : rule.effect.isKept = true) (isTarget : target.genericize = rule.target) :
    Expression.evaluate now tree target rule.expression =
      Expression.evaluate now other target rule.expression := by
  apply Expression.evaluate_sameShape alike.shape
  intro read reads
  rw [AnswerTree.answer?_eq_held, AnswerTree.answer?_eq_held, alike.answers]
  exact bound.isTriggeredBy_of_reads (Effect.ne_setValue_of_isKept kept) isTarget reads

theorem Alike.objectionAt?_eq (alike : rule.Alike tree other) (bound : rule.IsBound)
    (kept : rule.effect.isKept = true) (isTarget : target.genericize = rule.target) :
    rule.objectionAt? now tree target = rule.objectionAt? now other target := by
  simp only [objectionAt?, Effect.objection?, alike.evaluate_eq bound kept isTarget, alike.types]

theorem Alike.fill_eq (alike : rule.Alike seen seenToo) (bound : rule.IsBound)
    (kept : rule.effect.isKept = true) (tree : AnswerTree) :
    rule.fill now seen tree = rule.fill now seenToo tree := by
  rw [fill, fill, Engine.targets_sameShape alike.shape]
  cases located : Engine.targets seenToo rule [] with
  | error _ => rfl
  | ok found =>
      have belongs := Engine.genericize_of_mem_targets bound located
      refine List.foldl_ext _ _ tree fun filled target member => ?_
      rw [fillAt, fillAt, alike.evaluate_eq bound kept (belongs target member)]

theorem Alike.objections_eq (alike : rule.Alike seen seenToo) (bound : rule.IsBound)
    (kept : rule.effect.isKept = true) :
    rule.objections now seen = rule.objections now seenToo := by
  rw [objections, objections, Engine.targets_sameShape alike.shape]
  cases located : Engine.targets seenToo rule [] with
  | error _ => rfl
  | ok found =>
      have belongs := Engine.genericize_of_mem_targets bound located
      exact List.filterMap_congr fun target member =>
        alike.objectionAt?_eq bound kept (belongs target member)

theorem alike_fillAt (bound : rule.IsBound)
    (unread : another.effect.writesAnswer = true → ¬ another.IsReadBy rule)
    (isTarget : target.genericize = another.target) (now : DateTime) (seen tree : AnswerTree) :
    rule.Alike (another.fillAt now seen tree target) tree := by
  have sets := another.effect.setting_isSetting
    (Expression.evaluate now seen target another.expression)
  have frame : ∀ field place, place ≠ target ∨ field ≠ another.effect.field →
      (another.fillAt now seen tree target).held field place = tree.held field place := by
    intro field place apart
    rcases apart with elsewhere | apart
    · exact AnswerTree.held_change_other sets.isLocal field elsewhere
    · exact AnswerTree.held_change_of_field sets.isLocal (another.effect.of_setting _ apart) place
  refine ⟨AnswerTree.change_sameShape sets.outline_eq _ _, fun place => frame .type place (.inr ?_),
    fun place triggered => frame .answer place ?_⟩
  · cases another.effect <;> exact Field.noConfusion
  · by_cases here : place = target
    · right
      intro field
      refine unread (by rw [Engine.field_eq_answer_iff.mp field.symm]) ?_
      exact bound.feeds_of_isTriggeredBy isTarget (here ▸ triggered)
    · exact .inl here

theorem alike_foldl_fillAt (bound : rule.IsBound)
    (unread : another.effect.writesAnswer = true → ¬ another.IsReadBy rule) {found : List Reference}
    (belongs : ∀ target ∈ found, target.genericize = another.target) (now : DateTime)
    (seen tree : AnswerTree) : rule.Alike (found.foldl (another.fillAt now seen) tree) tree := by
  induction found generalizing tree with
  | nil => exact .refl rule tree
  | cons target found induction =>
      rcases List.forall_mem_cons.mp belongs with ⟨first, rest⟩
      exact (induction rest _).trans (alike_fillAt bound unread first now seen tree)

theorem alike_fill (bound : rule.IsBound) (boundToo : another.IsBound)
    (unread : another.effect.writesAnswer = true → ¬ another.IsReadBy rule) (now : DateTime)
    (seen tree : AnswerTree) : rule.Alike (another.fill now seen tree) tree := by
  rw [fill]
  split
  · exact .refl rule tree
  next located =>
    have belongs := Engine.genericize_of_mem_targets boundToo located
    exact alike_foldl_fillAt bound unread belongs now seen tree

/-- No two rules do the same thing at the same targets. -/
def Apart (rule another : Rule) : Prop :=
  rule.effect = another.effect → rule.target ≠ another.target

theorem fillAt_comm (apart : rule.Apart another) {place : Reference}
    (isTarget : target.genericize = rule.target) (isPlace : place.genericize = another.target)
    (now : DateTime) (seen seenToo tree : AnswerTree) :
    another.fillAt now seenToo (rule.fillAt now seen tree target) place =
      rule.fillAt now seen (another.fillAt now seenToo tree place) target := by
  refine AnswerTree.change_comm (Effect.setting_isSetting _ _) (Effect.setting_isSetting _ _)
    (fun here => Effect.setting_comm (fun same => ?_) _ _) tree
  exact apart same (by rw [← isTarget, ← isPlace, here])

/-- Rules that are apart work in either order, whatever they see. -/
theorem fill_comm (bound : rule.IsBound) (boundToo : another.IsBound) (apart : rule.Apart another)
    (now : DateTime) (seen seenToo tree : AnswerTree) :
    another.fill now seenToo (rule.fill now seen tree) =
      rule.fill now seen (another.fill now seenToo tree) := by
  cases located : Engine.targets seen rule [] with
  | error _ => simp only [fill, located]
  | ok found =>
      cases locatedToo : Engine.targets seenToo another [] with
      | error _ => simp only [fill, locatedToo]
      | ok places =>
          have belongs := Engine.genericize_of_mem_targets bound located
          have belongsToo := Engine.genericize_of_mem_targets boundToo locatedToo
          simp only [fill, located, locatedToo]
          refine foldl_comm (places.foldl (another.fillAt now seenToo))
            (fun target member state => ?_) tree
          refine (foldl_comm (rule.fillAt now seen · target)
            (fun place inPlaces state => ?_) state).symm
          exact (fillAt_comm apart (belongs target member) (belongsToo place inPlaces) now seen
            seenToo state).symm

end Rule

/-! Firing. -/

namespace Engine

variable {engine : Engine} {now : DateTime} {rule : Rule}

def failureOf (number : Nat) (objection : Reference × String) : Failure :=
  ⟨number, objection.1, objection.2⟩

def IsSet (effect : Effect) (pass : Pass) (target : Reference)
    (outcome : Except EvaluationError Value) (work : Work) : Prop :=
  match work with
  | .ok (after, _) =>
      after.tree = pass.tree.change target (effect.setting outcome) ∧
        after.report.failures = pass.report.failures ∧
        effect.objection? pass.tree target outcome = none
  | .error reason =>
      pass.tree = pass.tree.change target (effect.setting outcome) ∧
        effect.objection? pass.tree target outcome = some reason

section Work

variable {settings : Settings} {number : Nat} {target : Reference} {node : Node}
  {effect : Effect} {outcome : Except EvaluationError Value} {before after : Pass}
  {more : List Touch} {reason : String}

theorem making_eq_setting (retain : settings.hiddenAnswers = .retain)
    (kept : effect.isKept = true) : effect.making settings outcome = effect.setting outcome := by
  funext node
  cases outcome with
  | error _ =>
      rw [Effect.making_of_error fun message judges => ?_]
      · cases effect <;> rfl
      · rw [judges] at kept
        cases kept
  | ok result =>
      cases effect with
      | calculate | required => rfl
      | relevant =>
          rw [Effect.making_relevant settings result false (by simp [retain])]
          rfl
      | constraint _ | setValue _ => cases kept

theorem objection?_of_deed (kept : effect.isKept = true)
    (found : before.tree.find? target = some node)
    (deed : Deed settings number target node before effect outcome after more) :
    effect.objection? before.tree target outcome = none := by
  have typed := AnswerTree.held_type_of_found found
  cases deed with
  | idles silent settled =>
      cases effect with
      | calculate =>
          rcases settled with ⟨result, current, rfl, cast, -⟩
          simp only [Effect.objection?, typed, cast]
      | required =>
          rcases settled with ⟨result, rfl, -⟩
          simp only [Effect.objection?, typed]
      | relevant => exact absurd rfl silent
      | constraint _ | setValue _ => cases kept
  | writes writes cast =>
      cases effect with
      | calculate => simp only [Effect.objection?, typed, cast]
      | relevant | required | constraint _ => cases writes
      | setValue _ => cases kept
  | repeats | relates | hides | requires => simp only [Effect.objection?, typed]
  | judges => cases kept

theorem objection?_of_refusal (kept : effect.isKept = true) {tree : AnswerTree}
    (refusal : Refusal tree target effect outcome reason) :
    effect.objection? tree target outcome = some reason := by
  cases refusal with
  | vanished missing => simp [Effect.objection?, AnswerTree.held, missing]
  | fails found unjudged error =>
      simp only [Effect.objection?, AnswerTree.held_type_of_found found]
  | misfits found writes uncast =>
      cases effect with
      | calculate =>
          simp only [Effect.objection?, AnswerTree.held_type_of_found found, uncast]
      | relevant | required | constraint _ => cases writes
      | setValue _ => cases kept

end Work

theorem apply_isSet (retain : engine.settings.hiddenAnswers = .retain) {effect : Effect}
    (kept : effect.isKept = true) (pass : Pass) (number : Nat) (target : Reference)
    (outcome : Except EvaluationError Value) :
    IsSet effect pass target outcome (engine.apply pass number effect target outcome) := by
  have tree := engine.tree_apply pass number effect target outcome
  rw [making_eq_setting retain kept] at tree
  cases applied : engine.apply pass number effect target outcome with
  | ok work =>
      rw [applied] at tree
      rcases apply_deed applied with ⟨node, found, deed⟩
      exact ⟨tree, (deed.done retain found).failures, objection?_of_deed kept found deed⟩
  | error reason =>
      rw [applied] at tree
      exact ⟨tree, objection?_of_refusal kept (apply_refusal applied)⟩

section Fire

variable (retain : engine.settings.hiddenAnswers = .retain)
  (evaluator : engine.evaluator = Expression.evaluator now) (bound : rule.IsBound)
  (kept : rule.effect.isKept = true)

include retain evaluator bound kept

theorem fireAt_fillAt (number : Nat) {seen : AnswerTree} {progress : Pass × List Touch}
    (alike : rule.Alike progress.1.tree seen) {target : Reference}
    (isTarget : target.genericize = rule.target) :
    (engine.fireAt number rule progress target).1.tree =
        rule.fillAt now seen progress.1.tree target ∧
      (engine.fireAt number rule progress target).1.report.failures =
        progress.1.report.failures ++
          ((rule.objectionAt? now seen target).map (failureOf number)).toList := by
  have set := apply_isSet retain kept progress.1 number target
    (Expression.evaluate now progress.1.tree target rule.expression)
  have objection : rule.objectionAt? now progress.1.tree target =
      rule.objectionAt? now seen target := alike.objectionAt?_eq bound kept isTarget
  rw [← objection, Rule.objectionAt?, Rule.fillAt, ← alike.evaluate_eq bound kept isTarget]
  rw [fireAt, evaluator]
  change IsSet _ _ _ _ (engine.apply progress.1 number rule.effect target
    (Expression.evaluator now progress.1.tree rule.expression target)) at set
  cases applied : engine.apply progress.1 number rule.effect target
      (Expression.evaluator now progress.1.tree rule.expression target) with
  | ok work =>
      rw [applied] at set
      rcases set with ⟨tree, failures, none⟩
      rw [none]
      exact ⟨tree, by simp [failures]⟩
  | error reason =>
      rw [applied] at set
      rcases set with ⟨tree, some⟩
      rw [some]
      exact ⟨tree, rfl⟩

theorem foldl_fireAt_fill (calm : rule.effect.writesAnswer = true → ¬ rule.IsReadBy rule)
    (number : Nat) {seen : AnswerTree} {found : List Reference}
    (belongs : ∀ target ∈ found, target.genericize = rule.target) {progress : Pass × List Touch}
    (alike : rule.Alike progress.1.tree seen) :
    (found.foldl (engine.fireAt number rule) progress).1.tree =
        found.foldl (rule.fillAt now seen) progress.1.tree ∧
      (found.foldl (engine.fireAt number rule) progress).1.report.failures =
        progress.1.report.failures ++
          (found.filterMap (rule.objectionAt? now seen)).map (failureOf number) := by
  induction found generalizing progress with
  | nil => exact ⟨rfl, (List.append_nil _).symm⟩
  | cons target found induction =>
      rcases List.forall_mem_cons.mp belongs with ⟨first, rest⟩
      rcases fireAt_fillAt retain evaluator bound kept number alike first with ⟨tree, failures⟩
      have still : rule.Alike (engine.fireAt number rule progress target).1.tree seen := by
        rw [tree]
        exact (Rule.alike_fillAt bound calm first now seen _).trans alike
      rcases induction rest still with ⟨lastTree, lastFailures⟩
      rw [List.foldl_cons, List.foldl_cons, lastTree, lastFailures, tree, failures,
        List.append_assoc]
      refine ⟨rfl, congrArg _ ?_⟩
      rw [List.filterMap_cons]
      cases rule.objectionAt? now seen target <;> rfl

theorem fire_fill (calm : rule.effect.writesAnswer = true → ¬ rule.IsReadBy rule) (number : Nat)
    (pass : Pass) :
    (engine.fire number rule [] pass).1.tree = rule.fill now pass.tree pass.tree ∧
      (engine.fire number rule [] pass).1.report.failures =
        pass.report.failures ++ (rule.objections now pass.tree).map (failureOf number) := by
  rw [fire, Rule.fill, Rule.objections]
  dsimp only [Pass.noteFired]
  cases located : targets pass.tree rule [] with
  | error error => exact ⟨rfl, rfl⟩
  | ok found =>
      exact foldl_fireAt_fill retain evaluator bound kept calm number
        (genericize_of_mem_targets bound located) (.refl rule pass.tree)

end Fire

end Engine

end ReactiveForm
