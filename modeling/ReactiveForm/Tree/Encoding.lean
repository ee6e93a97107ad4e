import ReactiveForm.Json.Decoding
import ReactiveForm.Tree.Node

namespace ReactiveForm

/-! Attributes and validities in documents. -/

def Attribute.toJson (entry : Attribute) : Json :=
  .object (Json.member? "namespace" .text entry.space ++
    [("name", .text entry.name), ("value", .text entry.value)])

def Attribute.ofJson? (document : Json) : Option Attribute := do
  let fields ← document.fields? ["namespace", "name", "value"]
  let space ← fields.optional? "namespace" Json.text?
  let name ← fields.required? "name" Json.text?
  let value ← fields.required? "value" Json.text?
  return ⟨space, name, value⟩

def Validity.toJson : Validity → Json
  | .unchecked => .object [("state", .text "unchecked")]
  | .valid => .object [("state", .text "valid")]
  | .invalid message =>
      .object (("state", .text "invalid") :: Json.member? "message" .text message)
  | .failed message =>
      .object [("state", .text "error"), ("message", .text message)]

def Validity.ofJson? (document : Json) : Option Validity := do
  let (tag, content) ← document.tagged? "state"
  match ← tag.text? with
  | "unchecked" => if content.hasNoContent then some .unchecked else none
  | "valid" => if content.hasNoContent then some .valid else none
  | "invalid" => do
      let fields ← content.fields? ["message"]
      return .invalid (← fields.optional? "message" Json.text?)
  | "error" => do
      let fields ← content.fields? ["message"]
      return .failed (← fields.required? "message" Json.text?)
  | _ => none

end ReactiveForm
