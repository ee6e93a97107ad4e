import ReactiveForm.Json.Decoding
import ReactiveForm.Reference.Anchor

namespace ReactiveForm.Reference

/-! References in documents: their text. -/

def toJson (reference : Reference) : Json :=
  .text reference.text

def ofJson? (document : Json) : Option Reference :=
  document.text?.bind fun written => (parse written).toOption

end ReactiveForm.Reference
