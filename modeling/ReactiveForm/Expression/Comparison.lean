import ReactiveForm.Expression.Basic
import ReactiveForm.Value.Text

namespace ReactiveForm

/-! How two values compare: as numbers where both are numbers, otherwise by
their texts, character by character. -/

/-- How two floating-point numbers compare; NaN compares with nothing. -/
def compareNumbers? (left right : Float) : Option Ordering :=
  if left < right then some .lt
  else if right < left then some .gt
  else if left == right then some .eq
  else none

def Value.compare? (left right : Value) : Option Ordering :=
  match left.number?, right.number? with
  | some leftNumber, some rightNumber => compareNumbers? leftNumber rightNumber
  | _, _ => some (compare left.display right.display)

def BinaryOperator.holds (operator : BinaryOperator) (outcome : Option Ordering) :
    Bool :=
  match operator with
  | .eq => outcome == some .eq
  | .ne => outcome != some .eq
  | .lt => outcome == some .lt
  | .le => outcome == some .lt || outcome == some .eq
  | .gt => outcome == some .gt
  | .ge => outcome == some .gt || outcome == some .eq
  | _ => false

end ReactiveForm
