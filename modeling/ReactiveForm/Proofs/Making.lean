import ReactiveForm.Proofs.Commuting

/-! What an outcome makes of a node. A rule's work at a target is a change of the node
there, and the change can be told from the effect and the outcome alone. If the rule
refuses, it is no change. -/

namespace ReactiveForm

def answerAfter (type : ValueType) (answer : Option Value) (result : Value) : Option Value :=
  match answerFrom result type with
  | .error _ => answer
  | .ok current => if sameAnswer answer current then answer else current

namespace Node

def clearAnswersIf (drops : Bool) (node : Node) : Node :=
  if drops then node.clearAnswers else node

theorem clearAnswersIf_mk (drops : Bool) (facts : Facts) (children : List Node) :
    clearAnswersIf drops ⟨facts, children⟩ =
      ⟨{ facts with answer := if drops then none else facts.answer },
        children.map fun child =>
          if child.isTemplate then child else child.clearAnswersIf drops⟩ := by
  cases drops with
  | false => simp [clearAnswersIf]
  | true =>
      rw [clearAnswersIf, if_pos rfl, clearAnswers, clearAllAnswers_eq_map]
      rfl

theorem clearAnswersIf_keeps (drops : Bool) (node : Node) :
    (node.clearAnswersIf drops).facts.name = node.facts.name ∧
      (node.clearAnswersIf drops).facts.multiplicity = node.facts.multiplicity := by
  rcases node with ⟨facts, children⟩
  rw [clearAnswersIf_mk]
  exact ⟨rfl, rfl⟩

end Node

namespace Effect

variable {settings : Settings} {effect : Effect} {outcome : Except EvaluationError Value}

/-- What an outcome makes of a node, whatever becomes of hidden answers. -/
def making (settings : Settings) : Effect → Except EvaluationError Value → Node → Node
  | .calculate, .ok result | .setValue _, .ok result =>
      (·.withFacts fun facts => { facts with answer := answerAfter facts.type facts.answer result })
  | .relevant, .ok result => fun node =>
      (node.setRelevant result.truth).clearAnswersIf
        (node.facts.relevant && !result.truth && settings.hiddenAnswers = .clear)
  | .required, .ok result => (·.withFacts ({ · with required := result.truth }))
  | .constraint message, outcome =>
      (·.withFacts fun facts => { facts with validity := verdict facts.answer message outcome })
  | _, .error _ => id

theorem making_keeps (settings : Settings) (effect : Effect)
    (outcome : Except EvaluationError Value) (node : Node) :
    (effect.making settings outcome node).facts.name = node.facts.name ∧
      (effect.making settings outcome node).facts.multiplicity = node.facts.multiplicity := by
  cases effect with
  | calculate | setValue _ | required => cases outcome <;> exact ⟨rfl, rfl⟩
  | constraint message => exact ⟨rfl, rfl⟩
  | relevant =>
      cases outcome with
      | error _ => exact ⟨rfl, rfl⟩
      | ok result =>
          rcases Node.clearAnswersIf_keeps (node.facts.relevant && !result.truth &&
            settings.hiddenAnswers = .clear) (node.setRelevant result.truth) with
            ⟨name, multiplicity⟩
          rcases (Node.setRelevant_local result.truth).keeps node with ⟨sameName, sameMultiplicity⟩
          exact ⟨name.trans sameName, multiplicity.trans sameMultiplicity⟩

theorem making_of_writes (writes : effect.writesAnswer = true) (result : Value) (node : Node) :
    effect.making settings (.ok result) node =
      node.withFacts fun facts =>
        { facts with answer := answerAfter facts.type facts.answer result } := by
  cases effect with
  | calculate | setValue _ => rfl
  | relevant | required | constraint _ => cases writes

theorem making_of_unwritten (writes : effect.writesAnswer = true) {result : Value} {node : Node}
    (kept : answerAfter node.facts.type node.facts.answer result = node.facts.answer) :
    effect.making settings (.ok result) node = node := by
  rcases node with ⟨facts, children⟩
  rw [making_of_writes writes]
  exact congrArg (fun answer => (⟨{ facts with answer }, children⟩ : Node)) kept

theorem making_relevant (settings : Settings) (result : Value) {node : Node} (drops : Bool)
    (flag : (node.facts.relevant && !result.truth && settings.hiddenAnswers = .clear) = drops) :
    Effect.making settings .relevant (.ok result) node =
      (node.setRelevant result.truth).clearAnswersIf drops :=
  congrArg (Node.clearAnswersIf · (node.setRelevant result.truth)) flag

theorem making_of_error (unjudged : ∀ message, effect ≠ .constraint message)
    (error : EvaluationError) (node : Node) : effect.making settings (.error error) node = node := by
  cases effect with
  | constraint message => exact absurd rfl (unjudged message)
  | _ => rfl

theorem making_of_settled (silent : effect ≠ .relevant) {node : Node}
    (settled : effect.Settled node.facts outcome) : effect.making settings outcome node = node := by
  rcases node with ⟨facts, children⟩
  cases effect with
  | calculate | setValue _ =>
      rcases settled with ⟨result, current, rfl, cast, same⟩
      refine making_of_unwritten rfl ?_
      rw [answerAfter, cast]
      exact if_pos same
  | relevant => exact absurd rfl silent
  | required =>
      rcases settled with ⟨result, rfl, same⟩
      exact congrArg (fun required => (⟨{ facts with required }, children⟩ : Node)) same.symm
  | constraint message =>
      exact congrArg (fun validity => (⟨{ facts with validity }, children⟩ : Node)) settled.symm

end Effect

section Target

variable {settings : Settings} {number : Nat} {target : Reference} {node : Node}
  {effect : Effect} {outcome : Except EvaluationError Value} {before after : Pass}
  {more : List Touch}

theorem Deed.tree_eq (found : before.tree.find? target = some node)
    (deed : Deed settings number target node before effect outcome after more) :
    after.tree = before.tree.change target (effect.making settings outcome) := by
  cases deed with
  | idles silent settled =>
      exact (AnswerTree.change_of_unchanged found (Effect.making_of_settled silent settled)).symm
  | @writes _ writes result current cast differs =>
      refine AnswerTree.change_congr found ?_
      rw [Effect.making_of_writes writes]
      have written : answerAfter node.facts.type node.facts.answer result = current := by
        rw [answerAfter, cast]
        exact if_neg (Bool.eq_false_iff.mp differs)
      exact congrArg (fun answer => (⟨{ node.facts with answer }, node.children⟩ : Node)) written.symm
  | @repeats result same =>
      refine AnswerTree.change_congr found ?_
      rw [Effect.making_relevant settings result false (by simp [same])]
      rfl
  | @relates result _ keeps =>
      refine AnswerTree.change_congr found ?_
      rw [Effect.making_relevant settings result false ?_]
      · rfl
      · by_cases clears : settings.hiddenAnswers = .clear <;> simp [clears, keeps]
  | @hides result clears isHidden wasShown =>
      rw [Pass.noteUpdate, tree_foldl_noteCleared]
      refine (AnswerTree.change_change (Node.setRelevant_local false).keeps).trans
        (AnswerTree.change_congr found ?_)
      rw [Effect.making_relevant settings result true
        (by simp [clears, isHidden, wasShown]), isHidden]
      rfl
  | requires => rfl
  | judges => exact AnswerTree.change_congr found rfl

theorem Refusal.making_eq {tree : AnswerTree} {reason : String}
    (refusal : Refusal tree target effect outcome reason) (settings : Settings) :
    tree.change target (effect.making settings outcome) = tree := by
  cases refusal with
  | vanished missing => exact AnswerTree.change_of_missing missing _
  | fails found unjudged error =>
      exact AnswerTree.change_of_unchanged found (Effect.making_of_error unjudged error _)
  | misfits found writes uncast =>
      refine AnswerTree.change_of_unchanged found (Effect.making_of_unwritten writes ?_)
      rw [answerAfter, uncast]

namespace Engine

theorem tree_apply (engine : Engine) (pass : Pass) (number : Nat) (effect : Effect)
    (target : Reference) (outcome : Except EvaluationError Value) :
    (engine.apply pass number effect target outcome).tree pass =
      pass.tree.change target (effect.making engine.settings outcome) := by
  cases applied : engine.apply pass number effect target outcome with
  | ok work =>
      rcases apply_deed applied with ⟨node, found, deed⟩
      exact deed.tree_eq found
  | error reason => exact ((apply_refusal applied).making_eq engine.settings).symm

theorem tree_fireAt (engine : Engine) (number : Nat) (rule : Rule)
    (progress : Pass × List Touch) (target : Reference) :
    (engine.fireAt number rule progress target).1.tree =
      progress.1.tree.change target (rule.effect.making engine.settings
        (engine.evaluator progress.1.tree rule.expression target)) := by
  rw [← tree_apply engine progress.1 number, fireAt]
  cases engine.apply progress.1 number rule.effect target
    (engine.evaluator progress.1.tree rule.expression target) <;> rfl

end Engine

end Target

end ReactiveForm
