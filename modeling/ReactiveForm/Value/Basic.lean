import ReactiveForm.Calendar.DateTime

namespace ReactiveForm

/-! Answers and their types. -/

inductive ValueType where
  | unspecified
  | text
  | int
  | decimal
  | boolean
  | date
  | time
  | dateTime
  deriving DecidableEq, Repr

namespace ValueType

def all : List ValueType :=
  [.unspecified, .text, .int, .decimal, .boolean, .date, .time, .dateTime]

def tag : ValueType → String
  | .unspecified => "unspecified"
  | .text => "text"
  | .int => "int"
  | .decimal => "decimal"
  | .boolean => "boolean"
  | .date => "date"
  | .time => "time"
  | .dateTime => "datetime"

def ofTag? (tag : String) : Option ValueType :=
  all.find? (·.tag == tag)

theorem ofTag?_tag (type : ValueType) : ofTag? type.tag = some type := by
  cases type <;> decide

end ValueType

inductive Value where
  | text (content : String)
  | int (number : Int64)
  | decimal (number : Float)
  | boolean (truth : Bool)
  | date (day : Date)
  | time (clock : TimeOfDay)
  | dateTime (moment : DateTime)
  deriving DecidableEq

namespace Value

def type : Value → ValueType
  | .text _ => .text
  | .int _ => .int
  | .decimal _ => .decimal
  | .boolean _ => .boolean
  | .date _ => .date
  | .time _ => .time
  | .dateTime _ => .dateTime

/-- Both are equal as far as a form is concerned. NaN is the same as itself, so
that a result that stays NaN is no change, and zero has no sign. -/
def same : Value → Value → Bool
  | .decimal left, .decimal right => left == right || (left.isNaN && right.isNaN)
  | left, right => decide (left = right)

def isBlank : Value → Bool
  | .text content => content.isEmpty
  | _ => false

/-- Text with something in it, numbers other than zero, and every date and
time count as true. -/
def truth : Value → Bool
  | .text content => !content.isEmpty
  | .int number => number != 0
  | .decimal number => !(number == 0.0) && !number.isNaN
  | .boolean truth => truth
  | .date _ | .time _ | .dateTime _ => true

end Value

def sameAnswer : Option Value → Option Value → Bool
  | none, none => true
  | some left, some right => left.same right
  | _, _ => false

end ReactiveForm
