import ReactiveForm.Reference.Basic
import ReactiveForm.Value.Basic

namespace ReactiveForm

/-! Expressions over the answers of a form. They come as trees; a form never
reads them from text. -/

inductive BinaryOperator where
  | add
  | sub
  | mul
  | div
  | mod
  | eq
  | ne
  | lt
  | le
  | gt
  | ge
  | and
  | or
  deriving DecidableEq, Repr

def BinaryOperator.name : BinaryOperator → String
  | .add => "add"
  | .sub => "sub"
  | .mul => "mul"
  | .div => "div"
  | .mod => "mod"
  | .eq => "eq"
  | .ne => "ne"
  | .lt => "lt"
  | .le => "le"
  | .gt => "gt"
  | .ge => "ge"
  | .and => "and"
  | .or => "or"

def BinaryOperator.all : List BinaryOperator :=
  [.add, .sub, .mul, .div, .mod, .eq, .ne, .lt, .le, .gt, .ge, .and, .or]

def BinaryOperator.ofName? (name : String) : Option BinaryOperator :=
  all.find? (·.name == name)

theorem BinaryOperator.ofName?_name (operator : BinaryOperator) :
    ofName? operator.name = some operator := by
  cases operator <;> decide

inductive Expression where
  | literal (value : Value)
  /-- The answer of the first node that the reference denotes. -/
  | answer (reference : Reference)
  /-- The position, from one, of that node in its series. -/
  | position (reference : Reference)
  /-- The number of nodes that the reference denotes. -/
  | count (reference : Reference)
  /-- The sum of their answers. -/
  | sum (reference : Reference)
  | now
  | today
  | binary (operator : BinaryOperator) (left right : Expression)
  | not (operand : Expression)
  | choose (condition yes no : Expression)
  | concat (parts : List Expression)

namespace Expression

def mentions : Expression → List Reference
  | .answer reference => [reference]
  | .position reference => [reference]
  | .count reference => [reference]
  | .sum reference => [reference]
  | .literal _ | .now | .today => []
  | .binary _ left right => left.mentions ++ right.mentions
  | .not operand => operand.mentions
  | .choose condition yes no => condition.mentions ++ yes.mentions ++ no.mentions
  | .concat parts => mentionsOfAll parts
where
  mentionsOfAll : List Expression → List Reference
    | [] => []
    | part :: rest => part.mentions ++ mentionsOfAll rest

/-- What an expression reads, as it is written, each reference once and in the
order in which they are first seen. -/
def references (expression : Expression) : List Reference :=
  expression.mentions.eraseDups

def isVolatile : Expression → Bool
  | .now | .today => true
  | .literal _ | .answer _ | .position _ | .count _ | .sum _ => false
  | .binary _ left right => left.isVolatile || right.isVolatile
  | .not operand => operand.isVolatile
  | .choose condition yes no => condition.isVolatile || yes.isVolatile || no.isVolatile
  | .concat parts => anyVolatile parts
where
  anyVolatile : List Expression → Bool
    | [] => false
    | part :: rest => part.isVolatile || anyVolatile rest

def same : Expression → Expression → Bool
  | .literal left, .literal right => left.same right
  | .answer left, .answer right => left == right
  | .position left, .position right => left == right
  | .count left, .count right => left == right
  | .sum left, .sum right => left == right
  | .now, .now => true
  | .today, .today => true
  | .binary operator left right, .binary operator' left' right' =>
      operator == operator' && left.same left' && right.same right'
  | .not operand, .not operand' => operand.same operand'
  | .choose condition yes no, .choose condition' yes' no' =>
      condition.same condition' && yes.same yes' && no.same no'
  | .concat parts, .concat parts' => allSame parts parts'
  | _, _ => false
where
  allSame : List Expression → List Expression → Bool
    | [], [] => true
    | part :: rest, part' :: rest' => part.same part' && allSame rest rest'
    | _, _ => false

end Expression

end ReactiveForm
