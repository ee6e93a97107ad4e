import ReactiveForm.Expression.Basic
import ReactiveForm.Reference.Encoding
import ReactiveForm.Value.Encoding

namespace ReactiveForm.Expression

/-! Expressions in documents: a choice with its content. -/

def toJson : Expression → Json
  | .literal value => .object [("literal", value.toJson)]
  | .answer reference => .object [("ref", reference.toJson)]
  | .position reference => .object [("position", reference.toJson)]
  | .count reference => .object [("count", reference.toJson)]
  | .sum reference => .object [("sum", reference.toJson)]
  | .now => .text "now"
  | .today => .text "today"
  | .binary operator left right =>
      .object [("binary", .object
        [("op", .text operator.name), ("lhs", left.toJson), ("rhs", right.toJson)])]
  | .not operand => .object [("not", operand.toJson)]
  | .choose condition yes no =>
      .object [("if", .object
        [("condition", condition.toJson), ("then", yes.toJson),
          ("otherwise", no.toJson)])]
  | .concat parts => .object [("concat", .array (allToJson parts))]
where
  allToJson : List Expression → List Json
    | [] => []
    | part :: rest => part.toJson :: allToJson rest

def operator? (document : Json) : Option BinaryOperator :=
  document.bareChoice? BinaryOperator.ofName?

def ofJsonWithin? : (levels : Nat) → Json → Option Expression
  | 0, _ => none
  | levels + 1, document => do
      let (name, content?) ← document.choice?
      match name, content? with
      | "now", none | "now", some .null => some .now
      | "today", none | "today", some .null => some .today
      | "literal", some content => (Value.ofJson? content).map .literal
      | "ref", some content => (Reference.ofJson? content).map .answer
      | "position", some content => (Reference.ofJson? content).map .position
      | "count", some content => (Reference.ofJson? content).map .count
      | "sum", some content => (Reference.ofJson? content).map .sum
      | "binary", some content => do
          let fields ← content.fields? ["op", "lhs", "rhs"]
          let operator ← fields.required? "op" operator?
          let left ← fields.required? "lhs" (ofJsonWithin? levels)
          let right ← fields.required? "rhs" (ofJsonWithin? levels)
          return .binary operator left right
      | "not", some content => (ofJsonWithin? levels content).map .not
      | "if", some content => do
          let fields ← content.fields? ["condition", "then", "otherwise"]
          let condition ← fields.required? "condition" (ofJsonWithin? levels)
          let yes ← fields.required? "then" (ofJsonWithin? levels)
          let no ← fields.required? "otherwise" (ofJsonWithin? levels)
          return .choose condition yes no
      | "concat", some content => (content.list? (ofJsonWithin? levels)).map .concat
      | _, _ => none

def ofJson? (document : Json) : Option Expression :=
  ofJsonWithin? (document.depth + 1) document

end ReactiveForm.Expression
