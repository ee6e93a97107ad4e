import ReactiveForm.Expression.Evaluation
import ReactiveForm.Recalculation.Event
import ReactiveForm.Recalculation.Report
import ReactiveForm.Recalculation.Settings
import ReactiveForm.Rule.Dependencies

namespace ReactiveForm

/-! One rule fires: its expression is evaluated at its targets near whatever
changed, and every result is put to use before the next is looked at. -/

structure Engine where
  rulebook : Rulebook
  dependencies : Dependencies
  settings : Settings
  evaluator : Evaluator

structure Pass where
  tree : AnswerTree
  report : Report
  events : List Event

namespace Pass

def start (tree : AnswerTree) : Pass := ⟨tree, .empty, []⟩

def noteFired (pass : Pass) (number : Nat) : Pass :=
  { pass with report := { pass.report with fired := pass.report.fired ++ [number] } }

def noteFailure (pass : Pass) (number : Nat) (target : Reference) (reason : String) :
    Pass :=
  { pass with
    report :=
      { pass.report with failures := pass.report.failures ++ [⟨number, target, reason⟩] } }

def noteUpdate (pass : Pass) (rule : Option Nat) (target : Reference)
    (change : Change) : Pass :=
  { pass with
    report := { pass.report with updates := pass.report.updates ++ [⟨rule, target, change⟩] } }

def tell (pass : Pass) (event : Event) : Pass :=
  { pass with events := pass.events ++ [event] }

end Pass

inductive Touch where
  /-- Its answer was written or dropped. -/
  | answer (reference : Reference)
  /-- Its flags, its position or its existence changed, but not its answer. -/
  | state (reference : Reference)
  deriving DecidableEq, Repr

namespace Touch

def reference : Touch → Reference
  | .answer reference => reference
  | .state reference => reference

def isAnswer : Touch → Bool
  | .answer _ => true
  | .state _ => false

end Touch

/-! What a rule does with the outcome at one target. The answer is the pass
after it and the nodes it touched, or the reason why nothing could be done. -/

abbrev Work := Except String (Pass × List Touch)

/-- The answer that a node of some type takes from a result. A blank result is
no answer. -/
def answerFrom (result : Value) (type : ValueType) :
    Except ValueError (Option Value) :=
  if result.isBlank then .ok none else (result.cast type).map some

def writeAnswer (pass : Pass) (number : Nat) (target : Reference) (node : Node)
    (outcome : Except EvaluationError Value) : Work := do
  let result ← outcome.mapError EvaluationError.message
  let current ← (answerFrom result node.facts.type).mapError ValueError.message
  if sameAnswer node.facts.answer current then return (pass, [])
  else
    let tree := pass.tree.changeFacts target ({ · with answer := current })
    let shown := current.map fun _ => result.display
    let pass := ({ pass with tree }).tell (.recalculated target shown)
    return (pass.noteUpdate (some number) target (.answer node.facts.answer current),
      [.answer target])

def noteCleared (number : Nat) (pass : Pass) (reference : Reference) : Pass :=
  (pass.tell (.cleared reference)).noteUpdate (some number) reference .cleared

def writeRelevance (settings : Settings) (pass : Pass) (number : Nat)
    (target : Reference) (node : Node) (outcome : Except EvaluationError Value) :
    Work := do
  let result ← outcome.mapError EvaluationError.message
  let relevant := result.truth
  let tree := pass.tree.change target (·.setRelevant relevant)
  -- The flags below the target follow even where its own flag stays.
  if node.facts.relevant = relevant then return ({ pass with tree }, [])
  else if !relevant && settings.hiddenAnswers = .clear then
    let (tree, cleared) := tree.clear target
    let pass := cleared.foldl (noteCleared number) { pass with tree }
    return (pass.noteUpdate (some number) target (.relevance relevant),
      .state target :: cleared.map .answer)
  else
    return (({ pass with tree }).noteUpdate (some number) target (.relevance relevant),
      [.state target])

def writeRequired (pass : Pass) (number : Nat) (target : Reference) (node : Node)
    (outcome : Except EvaluationError Value) : Work := do
  let result ← outcome.mapError EvaluationError.message
  let required := result.truth
  if node.facts.required = required then return (pass, [])
  else
    let tree := pass.tree.changeFacts target ({ · with required })
    return (({ pass with tree }).noteUpdate (some number) target (.required required),
      [.state target])

def verdict (answer : Option Value) (message : Option String)
    (outcome : Except EvaluationError Value) : Validity :=
  match answer, outcome with
  | none, _ => .unchecked
  | some _, .ok result => if result.truth then .valid else .invalid message
  | some _, .error error => .failed error.message

def writeValidity (pass : Pass) (number : Nat) (target : Reference) (node : Node)
    (message : Option String) (outcome : Except EvaluationError Value) : Work :=
  let validity := verdict node.facts.answer message outcome
  if node.facts.validity = validity then .ok (pass, [])
  else
    let tree := pass.tree.changeFacts target ({ · with validity })
    .ok (({ pass with tree }).noteUpdate (some number) target (.validity validity),
      [.state target])

def vanished (target : Reference) : String :=
  "target " ++ target.text ++ " vanished"

namespace Engine

def apply (engine : Engine) (pass : Pass) (number : Nat) (effect : Effect)
    (target : Reference) (outcome : Except EvaluationError Value) : Work :=
  match pass.tree.find? target with
  | none => .error (vanished target)
  | some node =>
      match effect with
      | .calculate | .setValue _ => writeAnswer pass number target node outcome
      | .relevant => writeRelevance engine.settings pass number target node outcome
      | .required => writeRequired pass number target node outcome
      | .constraint message => writeValidity pass number target node message outcome

def targetsNear (tree : AnswerTree) (rule : Rule) (anchor : Reference) :
    Except TreeError (List Reference) :=
  match rule.target.anchor anchor with
  | .error error => .error (.badReference error)
  | .ok near => tree.expand near none

/-- The targets of a rule near any of the nodes that changed, each once, or all
its targets if no nodes are given. -/
def targets (tree : AnswerTree) (rule : Rule) (anchors : List Reference) :
    Except TreeError (List Reference) :=
  if anchors.isEmpty then tree.expand rule.target none
  else (anchors.mapM (targetsNear tree rule)).map fun found => found.flatten.eraseDups

def fireAt (engine : Engine) (number : Nat) (rule : Rule)
    (progress : Pass × List Touch) (target : Reference) : Pass × List Touch :=
  let (pass, touched) := progress
  let outcome := engine.evaluator pass.tree rule.expression target
  match engine.apply pass number rule.effect target outcome with
  | .ok (pass, more) => (pass, touched ++ more)
  | .error reason => (pass.noteFailure number target reason, touched)

def fire (engine : Engine) (number : Nat) (rule : Rule) (anchors : List Reference)
    (pass : Pass) : Pass × List Touch :=
  let pass := pass.noteFired number
  match targets pass.tree rule anchors with
  | .error error => (pass.noteFailure number rule.target error.message, [])
  | .ok found => found.foldl (engine.fireAt number rule) (pass, [])

end Engine

end ReactiveForm
