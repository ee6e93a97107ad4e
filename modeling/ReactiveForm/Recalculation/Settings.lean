import ReactiveForm.Json.Decoding

namespace ReactiveForm

/-! Choices that a form leaves to whoever runs it. -/

inductive HiddenAnswers where
  /-- They are kept, and are there again when the node is. -/
  | retain
  /-- They are dropped, with those of all nodes below. -/
  | clear
  deriving DecidableEq, Repr

def HiddenAnswers.name : HiddenAnswers → String
  | .retain => "retain"
  | .clear => "clear"

def HiddenAnswers.ofName? : String → Option HiddenAnswers
  | "retain" => some .retain
  | "clear" => some .clear
  | _ => none

structure Settings where
  hiddenAnswers : HiddenAnswers
  /-- Are members summed up one by one while a series changes? -/
  publishSummaries : Bool
  deriving DecidableEq, Repr

namespace Settings

def standard : Settings := ⟨.retain, true⟩

def toJson (settings : Settings) : Json :=
  .object
    [("non_relevant", .text settings.hiddenAnswers.name),
      ("publish_summaries", .boolean settings.publishSummaries)]

def ofJson? (document : Json) : Option Settings := do
  let fields ← document.fields? ["non_relevant", "publish_summaries"]
  let hiddenAnswers ←
    fields.withDefault? "non_relevant" standard.hiddenAnswers
      (Json.bareChoice? HiddenAnswers.ofName?)
  let publishSummaries ←
    fields.withDefault? "publish_summaries" standard.publishSummaries Json.boolean?
  return ⟨hiddenAnswers, publishSummaries⟩

end Settings

end ReactiveForm
