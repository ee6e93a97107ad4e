import ReactiveForm.Form.Definition
import ReactiveForm.Recalculation.Editing

namespace ReactiveForm

/-! A form that can be filled in. Every change goes through the rules, so that
after each operation the answers are up to date. -/

inductive FormError where
  | tree (error : TreeError)
  | value (error : ValueError)
  | edit (error : EditError)
  | cycle (members : Cycle)
  | invalidBind (invalid : InvalidBind)
  /-- A rule acts on a node that the form does not have. -/
  | unknownTarget (target : Reference)
  deriving DecidableEq, Repr

def FormError.message : FormError → String
  | .tree error => error.message
  | .value error => error.message
  | .edit error => error.message
  | .cycle members => members.message
  | .invalidBind invalid => invalid.message
  | .unknownTarget target =>
      "bind target " ++ target.text ++ " is not declared in the instance"

structure Form where
  id : Identifier
  title : String
  tree : AnswerTree
  engine : Engine
  /-- For every rule the nodes that it acted on when the tree last took
  shape. -/
  targets : List (List Reference)

structure Material where
  id : Identifier
  title : String
  tree : AnswerTree
  rules : List Rule
  settings : Settings

def Definition.material (definition : Definition) (constructors : Constructors)
    (settings : Settings) : Except FormError Material := do
  let tree ← (definition.tree constructors).mapError FormError.value
  let rules ← definition.rules.mapError FormError.invalidBind
  return ⟨definition.id.getD .none, definition.title, tree, rules, settings⟩

/-- The child that stands for all children of some name: the template, or else
the first of them. -/
def Node.declared? (node : Node) (name : String) : Option Node :=
  (node.template? name).or (node.children.find? (·.facts.name == name))

def Node.declares (node : Node) : List Step → Bool
  | [] => true
  | step :: rest =>
      match node.declared? step.name with
      | none => false
      | some child => child.declares rest

/-- Does the tree have a node, template or not, for every step of a
reference? -/
def AnswerTree.declares (tree : AnswerTree) (reference : Reference) : Bool :=
  match reference.steps with
  | [] => false
  | first :: rest => first.name == tree.root.facts.name && tree.root.declares rest

structure Outcome where
  form : Form
  report : Report
  events : List Event

namespace Form

def build (material : Material) (evaluator : Evaluator)
    (saved : Option AnswerTree) : Except FormError Form := do
  let tree ←
    match saved with
    | none => pure material.tree
    | some saved => (material.tree.restore saved).mapError FormError.tree
  match material.rules.find? fun rule => !tree.declares rule.target with
  | some rule => .error (.unknownTarget rule.target)
  | none =>
      let rulebook := Rulebook.ofRules material.rules
      let dependencies ← (Dependencies.ofRulebook rulebook).mapError FormError.cycle
      return {
        id := material.id
        title := material.title
        tree
        engine := ⟨rulebook, dependencies, material.settings, evaluator⟩
        targets := List.replicate rulebook.size [] }

def answer? (form : Form) (reference : Reference) : Option Value :=
  form.tree.answer? reference

def withEvaluator (form : Form) (evaluator : Evaluator) : Form :=
  { form with engine := { form.engine with evaluator } }

def refreshed (form : Form) : Form :=
  { form with targets := form.engine.currentTargets form.tree }

def after (form : Form) (pass : Pass) : Outcome :=
  ⟨{ form with tree := pass.tree }, pass.report, pass.events⟩

def reshaped (form : Form) (pass : Pass) : Outcome :=
  let outcome := form.after pass
  { outcome with form := outcome.form.refreshed }

def initial (form : Form) : Outcome :=
  form.reshaped (form.engine.initial form.tree)

def setAnswer (form : Form) (reference : Reference) (value : Option Value) :
    Except FormError Outcome :=
  match form.engine.setAnswer form.tree reference value with
  | .error error => .error (.edit error)
  | .ok pass => .ok (form.after pass)

def insertMember (form : Form) (parent : Reference) (name : String) (position : Nat) :
    Except FormError (Outcome × Reference) :=
  match form.engine.insertMember form.tree parent name position with
  | .error error => .error (.edit error)
  | .ok (pass, inserted) => .ok (form.reshaped pass, inserted)

def afterRemoval (form : Form) (reference : Option Reference) (parent : Reference)
    (removed : Node) : Except FormError Outcome :=
  match form.engine.afterRemoval form.tree reference parent removed with
  | .error error => .error (.edit error)
  | .ok pass => .ok (form.reshaped pass)

def removeMember (form : Form) (reference : Reference) : Except FormError Outcome :=
  match reference.parent? with
  | none => .error (.tree (.notMember reference))
  | some parent =>
      match form.tree.remove reference with
      | .error error => .error (.tree error)
      | .ok (tree, removed) =>
          ({ form with tree } : Form).afterRemoval (some reference) parent removed

end Form

end ReactiveForm
