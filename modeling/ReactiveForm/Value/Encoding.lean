import ReactiveForm.Json.Decoding
import ReactiveForm.Value.Text

namespace ReactiveForm

/-! Values in documents: an object with the type and the value. -/

def Value.content : Value → Json
  | .text content => .text content
  | .int number => .integer number.toInt
  | .decimal number => .ofDecimal number
  | .boolean truth => .boolean truth
  | .date day => .text (String.ofList day.letters)
  | .time clock => .text (String.ofList clock.letters)
  | .dateTime moment => .text (String.ofList moment.letters)

def Value.toJson (value : Value) : Json :=
  .object [("type", .text value.type.tag), ("value", value.content)]

def Json.letters? (document : Json) : Option (List Char) :=
  document.text?.map String.toList

def Value.ofContent? (type : ValueType) (content : Json) : Option Value :=
  match type with
  | .unspecified => none
  | .text => content.text?.map .text
  | .int => content.int64?.map .int
  | .decimal => content.decimal?.map .decimal
  | .boolean => content.boolean?.map .boolean
  | .date => (content.letters?.bind (Calendar.readDate? .beforeAll)).map .date
  | .time => (content.letters?.bind Calendar.readDocumentTime?).map .time
  | .dateTime =>
      (content.letters?.bind (Calendar.readDateTime? .beforeAll)).map .dateTime

def ValueType.ofJson? (document : Json) : Option ValueType :=
  document.bareChoice? ValueType.ofTag?

def Value.ofJson? (document : Json) : Option Value := do
  let fields ← document.fields? ["type", "value"]
  let type ← fields.required? "type" ValueType.ofJson?
  fields.required? "value" (Value.ofContent? type)

end ReactiveForm
