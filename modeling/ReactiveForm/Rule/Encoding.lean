import ReactiveForm.Expression.Encoding
import ReactiveForm.Rule.Basic

namespace ReactiveForm

/-! Rules in documents. -/

def Occasion.members : Occasion → List (String × Json)
  | .firstLoad => [("on", .text "first_load")]
  | .valueChanged source => [("on", .text "value_changed"), ("source", source.toJson)]

def Occasion.ofJson? (document : Json) : Option Occasion := do
  let (tag, content) ← document.tagged? "on"
  match tag with
  | .text "first_load" | .integer 0 =>
      if content.hasNoContent then some .firstLoad else none
  | .text "value_changed" | .integer 1 => do
      let fields ← content.fields? ["source"]
      return .valueChanged (← fields.required? "source" Reference.ofJson?)
  | _ => none

def Effect.toJson : Effect → Json
  | .calculate => .object [("kind", .text "calculate")]
  | .relevant => .object [("kind", .text "relevant")]
  | .required => .object [("kind", .text "required")]
  | .constraint message =>
      .object (("kind", .text "constraint") :: Json.member? "message" .text message)
  | .setValue occasion =>
      .object [("kind", .text "set_value_action"), ("event", .object occasion.members)]

def Effect.ofJson? (document : Json) : Option Effect := do
  let (tag, content) ← document.tagged? "kind"
  match ← tag.text? with
  | "calculate" => if content.hasNoContent then some .calculate else none
  | "relevant" => if content.hasNoContent then some .relevant else none
  | "required" => if content.hasNoContent then some .required else none
  | "constraint" => do
      let fields ← content.fields? ["message"]
      return .constraint (← fields.optional? "message" Json.text?)
  | "set_value_action" => do
      let fields ← content.fields? ["event"]
      return .setValue (← fields.required? "event" Occasion.ofJson?)
  | _ => none

def Rule.toJson (rule : Rule) : Json :=
  .object
    [("kind", rule.effect.toJson), ("expr", rule.expression.toJson),
      ("target", rule.target.toJson),
      ("triggers", .array (rule.triggers.map Reference.toJson))]

def Rule.ofJson? (document : Json) : Option Rule := do
  let fields ← document.fields? ["kind", "expr", "target", "triggers"]
  let effect ← fields.required? "kind" Effect.ofJson?
  let expression ← fields.required? "expr" Expression.ofJson?
  let target ← fields.required? "target" Reference.ofJson?
  let triggers ← fields.required? "triggers" (Json.list? Reference.ofJson?)
  return ⟨effect, expression, target, Rule.referenceSet triggers⟩

end ReactiveForm
