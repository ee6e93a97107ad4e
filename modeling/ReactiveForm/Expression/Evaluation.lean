import ReactiveForm.Expression.Comparison
import ReactiveForm.Number.Binary64
import ReactiveForm.Tree.Expansion

namespace ReactiveForm

/-! The value of an expression at a node. References are meant as seen from that
node, so that inside a member of a series the other nodes of that member are
near; only counts and sums of absolute references look at every member. -/

inductive EvaluationError where
  | tree (error : TreeError)
  | notNumeric (shown : String)
  | divisionByZero
  | noPosition (reference : Reference)
  | failed (message : String)
  deriving DecidableEq, Repr

def EvaluationError.message : EvaluationError → String
  | .tree error => error.message
  | .notNumeric shown => "'" ++ shown ++ "' is not a number"
  | .divisionByZero => "division by zero"
  | .noPosition reference => reference.text ++ " has no repeat position"
  | .failed message => message

abbrev Evaluator := AnswerTree → Expression → Reference → Except EvaluationError Value

namespace Expression

def nearby (tree : AnswerTree) (context reference : Reference) :
    Except EvaluationError (List Reference) :=
  match reference.anchor context with
  | .error error => .error (.tree (.badReference error))
  | .ok anchored => (tree.expand anchored none).mapError .tree

def everywhere (tree : AnswerTree) (context reference : Reference) :
    Except EvaluationError (List Reference) :=
  if reference.isAbsolute then (tree.expand reference none).mapError .tree
  else nearby tree context reference

def numeric (value : Value) : Except EvaluationError Float :=
  match value.number? with
  | some number => .ok number
  | none => .error (.notNumeric value.display)

def arithmetic (operator : BinaryOperator) (left right : Float) :
    Except EvaluationError Float :=
  match operator with
  | .add => .ok (left + right)
  | .sub => .ok (left - right)
  | .mul => .ok (left * right)
  | .div => if right == 0.0 then .error .divisionByZero else .ok (left / right)
  | _ =>
      if right == 0.0 then .error .divisionByZero
      else .ok (Number.remainder left right)

def firstAnswer (tree : AnswerTree) (nodes : List Reference) : Value :=
  (nodes.head?.bind tree.answer?).getD (.text "")

def firstPosition (reference : Reference) (nodes : List Reference) :
    Except EvaluationError Value :=
  match nodes with
  | [] => .error (.noPosition reference)
  | first :: _ =>
      match first.lastMultiplicity? with
      | some (.index place) => .ok (.decimal (Float.ofNat (place + 1)))
      | _ => .error (.noPosition first)

def addUp (tree : AnswerTree) (total : Float) :
    List Reference → Except EvaluationError Float
  | [] => .ok total
  | node :: rest =>
      match tree.answer? node with
      | none => addUp tree total rest
      | some value => do
          let number ← numeric value
          addUp tree (total + number) rest

mutual

/-- The value of an expression at a node, at a moment. The operands of `and`
and `or` are looked at from left to right, and only as far as needed. -/
def evaluate (now : DateTime) (tree : AnswerTree) (context : Reference) :
    Expression → Except EvaluationError Value
  | .literal value => .ok value
  | .answer reference => (nearby tree context reference).map (firstAnswer tree)
  | .position reference => do
      let nodes ← nearby tree context reference
      firstPosition reference nodes
  | .count reference => do
      let nodes ← everywhere tree context reference
      return .decimal (Float.ofNat nodes.length)
  | .sum reference => do
      let nodes ← everywhere tree context reference
      return .decimal (← addUp tree 0.0 nodes)
  | .now => .ok (.dateTime now)
  | .today => .ok (.date now.date)
  | .binary .and left right => do
      let leftValue ← evaluate now tree context left
      if leftValue.truth then
        return .boolean (← evaluate now tree context right).truth
      else return .boolean false
  | .binary .or left right => do
      let leftValue ← evaluate now tree context left
      if leftValue.truth then return .boolean true
      else return .boolean (← evaluate now tree context right).truth
  | .binary operator left right => do
      let leftValue ← evaluate now tree context left
      if operator matches .add | .sub | .mul | .div | .mod then
        let leftNumber ← numeric leftValue
        let rightValue ← evaluate now tree context right
        let rightNumber ← numeric rightValue
        return .decimal (← arithmetic operator leftNumber rightNumber)
      else
        let rightValue ← evaluate now tree context right
        return .boolean (operator.holds (leftValue.compare? rightValue))
  | .not operand => do
      let value ← evaluate now tree context operand
      return .boolean !value.truth
  | .choose condition yes no => do
      let value ← evaluate now tree context condition
      if value.truth then evaluate now tree context yes
      else evaluate now tree context no
  | .concat parts => (evaluateAll now tree context parts).map .text

def evaluateAll (now : DateTime) (tree : AnswerTree) (context : Reference) :
    List Expression → Except EvaluationError String
  | [] => .ok ""
  | part :: rest => do
      let value ← evaluate now tree context part
      let following ← evaluateAll now tree context rest
      return value.display ++ following

end

def evaluator (now : DateTime) : Evaluator :=
  fun tree expression context => evaluate now tree context expression

end Expression

end ReactiveForm
