import ReactiveForm.Recalculation.Propagation

namespace ReactiveForm

/-! The operations that keep a tree of answers up to date: filling it in for
the first time, changing an answer, and changes of a series. -/

inductive EditError where
  | tree (error : TreeError)
  | value (error : ValueError)
  | nodeMissing (reference : Reference)
  | notMember (reference : Reference)
  /-- Edits address live nodes, never a template. -/
  | insideTemplate (reference : Reference)
  deriving DecidableEq, Repr

def EditError.message : EditError → String
  | .tree error => error.message
  | .value error => error.message
  | .nodeMissing reference => "node not found: " ++ reference.text
  | .notMember reference => reference.text ++ " is not a repeat instance"
  | .insideTemplate reference => reference.text ++ " points into a repeat template"

namespace Engine

def fireInitially (engine : Engine) (pass : Pass) (number : Nat) : Pass :=
  match engine.rulebook.rule? number with
  | none => pass
  | some rule =>
      if rule.waitsForAnswer then pass else (engine.fire number rule [] pass).1

def initial (engine : Engine) (tree : AnswerTree) : Pass :=
  engine.dependencies.order.foldl engine.fireInitially (.start tree)

def editedAnswer (value : Option Value) (type : ValueType) :
    Except ValueError (Option Value) :=
  match value with
  | none => .ok none
  | some value => answerFrom value type

def setAnswer (engine : Engine) (tree : AnswerTree) (reference : Reference)
    (value : Option Value) : Except EditError Pass :=
  if reference.entersTemplate then .error (.insideTemplate reference)
  else
    match tree.find? reference with
    | none => .error (.nodeMissing reference)
    | some node =>
        match editedAnswer value node.facts.type with
        | .error error => .error (.value error)
        | .ok current =>
            if sameAnswer node.facts.answer current then .ok (.start tree)
            else
              let pass : Pass := .start (tree.changeFacts reference ({ · with answer := current }))
              let pass := pass.noteUpdate none reference (.answer node.facts.answer current)
              .ok (engine.propagate [.answer reference] [] pass).1

def fireForMember (engine : Engine) (member : Reference)
    (progress : Pass × List Nat) (number : Nat) : Pass × List Nat :=
  match engine.rulebook.rule? number with
  | none => progress
  | some rule =>
      if !rule.waitsForAnswer && member.genericize.covers rule.target then
        ((engine.fire number rule [member] progress.1).1, progress.2 ++ [number])
      else progress

def insertMember (engine : Engine) (tree : AnswerTree) (parent : Reference)
    (name : String) (position : Nat) : Except EditError (Pass × Reference) :=
  if parent.entersTemplate then .error (.insideTemplate parent)
  else
    match tree.insert parent name position with
    | .error error => .error (.tree error)
    | .ok (tree, inserted) =>
        -- The member is filled in like the form was, then the members behind it are repaired,
        -- and last whatever reads the series.
        let (pass, fired) :=
          engine.dependencies.order.foldl (engine.fireForMember inserted) (.start tree, [])
        let pass := engine.summarize .created inserted fired.length pass
        let index := (inserted.lastMultiplicity?.bind Multiplicity.position?).getD 0
        let count := ((pass.tree.find? parent).map (·.memberCount name)).getD 0
        let pass := engine.repairMembers .shifted parent name (index + 1) count pass
        let changes := (pass.tree.referencesFrom inserted).map Touch.state
        .ok ((engine.propagate changes [] pass).1, inserted)

/-- A member has left its series. It still has the number it had there. -/
def afterRemoval (engine : Engine) (tree : AnswerTree) (reference : Option Reference)
    (parent : Reference) (removed : Node) : Except EditError Pass :=
  match removed.facts.multiplicity with
  | .index position =>
      match tree.find? parent with
      | none => .error (.nodeMissing parent)
      | some node =>
          let name := removed.facts.name
          let pass :=
            engine.repairMembers .deleted parent name position (node.memberCount name)
              (.start tree)
          match reference with
          | none => .ok pass
          | some reference =>
              let changes := (removed.references reference).map Touch.state
              .ok (engine.propagate changes [] pass).1
  | multiplicity => .error (.notMember (parent.child removed.facts.name multiplicity))

def currentTargets (engine : Engine) (tree : AnswerTree) : List (List Reference) :=
  engine.rulebook.rules.map fun rule =>
    match tree.expand rule.target none with
    | .ok found => found
    | .error _ => []

end Engine

end ReactiveForm
