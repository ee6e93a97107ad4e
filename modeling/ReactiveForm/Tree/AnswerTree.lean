import ReactiveForm.Reference.Anchor
import ReactiveForm.Tree.Restoring

namespace ReactiveForm

/-! The answers of a form: a tree with one root. -/

inductive TreeError where
  | badReference (error : ReferenceError)
  /-- A step in the middle of a path names no child at all. -/
  | unresolvable (reference : Reference) (step : String) (reached : Reference)
  | nodeMissing (reference : Reference)
  /-- The series cannot grow. -/
  | templateMissing (parent : Reference) (name : String)
  | notMember (reference : Reference)
  deriving DecidableEq, Repr

def TreeError.message : TreeError → String
  | .badReference error => error.message
  | .unresolvable reference step reached =>
      "unresolvable reference " ++ reference.text ++ ": no '" ++ step ++ "' under " ++
        reached.text
  | .nodeMissing reference => "node not found: " ++ reference.text
  | .templateMissing parent name =>
      "no repeat template '" ++ name ++ "' under " ++ parent.text
  | .notMember reference => reference.text ++ " is not a repeat instance"

structure AnswerTree where
  root : Node

namespace AnswerTree

def ofRoot (root : Node) : AnswerTree :=
  ⟨root.placed (.index 0)⟩

def same (left right : AnswerTree) : Bool :=
  left.root.same right.root

def rootReference (tree : AnswerTree) : Reference :=
  .root tree.root.facts.name

def steps? (tree : AnswerTree) (reference : Reference) : Option (List Step) :=
  if reference.isAbsolute && !reference.isGeneric then
    match reference.steps with
    | [] => none
    | first :: rest =>
        if first.multiplicity = .index 0 ∧ first.name = tree.root.facts.name then
          some rest
        else none
  else none

def find? (tree : AnswerTree) (reference : Reference) : Option Node :=
  (tree.steps? reference).bind fun steps => tree.root.descendant? steps

def answer? (tree : AnswerTree) (reference : Reference) : Option Value :=
  (tree.find? reference).bind (·.facts.answer)

def change (tree : AnswerTree) (reference : Reference) (change : Node → Node) :
    AnswerTree :=
  match tree.steps? reference with
  | none => tree
  | some steps => ⟨tree.root.changeDescendant change steps⟩

def changeFacts (tree : AnswerTree) (reference : Reference) (change : Facts → Facts) :
    AnswerTree :=
  tree.change reference (·.withFacts change)

def referencesFrom (tree : AnswerTree) (reference : Reference) : List Reference :=
  match tree.find? reference with
  | none => []
  | some node => node.references reference

def references (tree : AnswerTree) : List Reference :=
  tree.referencesFrom tree.rootReference

def answers (tree : AnswerTree) : List (Reference × Value) :=
  tree.references.filterMap fun reference =>
    (tree.answer? reference).map fun value => (reference, value)

def restore (tree saved : AnswerTree) : Except TreeError AnswerTree :=
  if saved.root.facts.name = tree.root.facts.name then
    .ok ⟨saved.root.restore tree.root⟩
  else .error (.nodeMissing saved.rootReference)

def template (tree : AnswerTree) (parent : Reference) (name : String) :
    Except TreeError Node :=
  match tree.find? parent with
  | none => .error (.nodeMissing parent)
  | some node =>
      match node.template? name with
      | none => .error (.templateMissing parent name)
      | some template => .ok template

def insert (tree : AnswerTree) (parent : Reference) (name : String)
    (position : Nat) : Except TreeError (AnswerTree × Reference) := do
  let template ← tree.template parent name
  match tree.find? parent with
  | none => .error (.nodeMissing parent)
  | some node =>
      let fresh := template.copy (.index position)
      let tree := tree.change parent (·.insertMember fresh position)
      .ok (tree, parent.child name (.index (min position (node.memberCount name))))

def remove (tree : AnswerTree) (reference : Reference) :
    Except TreeError (AnswerTree × Node) :=
  match reference.lastMultiplicity?, reference.lastName?, reference.parent? with
  | some (.index position), some name, some parent =>
      match tree.find? parent with
      | none => .error (.nodeMissing parent)
      | some node =>
          if (node.template? name).isNone then .error (.notMember reference)
          else
            match node.removeMember? name position with
            | none => .error (.nodeMissing reference)
            | some (removed, remaining) =>
                .ok (tree.change parent fun _ => remaining, removed)
  | _, _, _ => .error (.notMember reference)

/-- Drop the answers of a node and of everything below it, and say where there
were any. -/
def clear (tree : AnswerTree) (reference : Reference) :
    AnswerTree × List Reference :=
  (tree.change reference Node.clearAnswers,
    (tree.referencesFrom reference).filter fun place => (tree.answer? place).isSome)

end AnswerTree

end ReactiveForm
