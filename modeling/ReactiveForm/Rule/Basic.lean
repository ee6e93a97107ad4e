import ReactiveForm.Ascending
import ReactiveForm.Expression.Basic
import ReactiveForm.Reference.Anchor
import ReactiveForm.Reference.Pattern

namespace ReactiveForm

/-! Rules. A rule evaluates an expression for every node that its target
matches and puts the result to use there. It fires when something it reads
changes: its triggers say what that is. -/

inductive Occasion where
  /-- Once, when the form is first filled in. -/
  | firstLoad
  /-- Whenever an answer at `source` changes. -/
  | valueChanged (source : Reference)
  deriving DecidableEq, Repr

inductive Effect where
  | calculate
  | relevant
  | required
  | constraint (message : Option String)
  | setValue (occasion : Occasion)
  deriving DecidableEq, Repr

namespace Effect

def label : Effect → String
  | .calculate => "calculate"
  | .relevant => "relevant"
  | .required => "required"
  | .constraint _ => "constraint"
  | .setValue _ => "setvalue"

def writesAnswer : Effect → Bool
  | .calculate | .setValue _ => true
  | _ => false

end Effect

structure Rule where
  effect : Effect
  expression : Expression
  target : Reference
  triggers : List Reference

namespace Rule

def referenceSet (references : List Reference) : List Reference :=
  ascending Reference.order references

def patternsRead (expression : Expression) (target : Reference) :
    Except ReferenceError (List Reference) :=
  expression.references.mapM fun reference =>
    (reference.anchor target).map Reference.genericize

/-- Bind an expression to a target. The target is meant for a whole series. A
rule that waits for an answer has that answer as its only trigger, one for the
first load has none, and any other has everything its expression reads. -/
def bind (effect : Effect) (expression : Expression) (target : Reference) :
    Except ReferenceError Rule :=
  if !target.isAbsolute then .error (.relativeTarget target)
  else
    let target := target.genericize
    match effect with
    | .setValue .firstLoad => .ok ⟨effect, expression, target, []⟩
    | .setValue (.valueChanged source) => do
        let source := (← source.anchor target).genericize
        return ⟨.setValue (.valueChanged source), expression, target, [source]⟩
    | _ => do
        let triggers ← patternsRead expression target
        return ⟨effect, expression, target, referenceSet triggers⟩

def waitsForAnswer (rule : Rule) : Bool :=
  match rule.effect with
  | .setValue (.valueChanged _) => true
  | _ => false

def isTriggeredBy (rule : Rule) (reference : Reference) : Bool :=
  rule.triggers.any (·.intersects reference)

/-- Can what the rule does be seen at `trigger`? Relevance is seen also below
the target. -/
def feeds (rule : Rule) (trigger : Reference) : Bool :=
  rule.target.intersects trigger ||
    (rule.effect == .relevant && rule.target.covers trigger)

def same (left right : Rule) : Bool :=
  left.effect == right.effect && left.expression.same right.expression &&
    left.target == right.target && left.triggers == right.triggers

def title (rule : Rule) : String :=
  rule.effect.label ++ " " ++ rule.target.text

end Rule

end ReactiveForm
