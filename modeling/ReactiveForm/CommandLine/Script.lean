import ReactiveForm.Form.Basic

namespace ReactiveForm

/-! Edits in documents, to be made one after the other. -/

inductive Edit
  /-- Give an answer, or take it back. -/
  | set (reference : Reference) (value : Option String)
  | insert (parent : Reference) (name : String) (position : Nat)
  | delete (reference : Reference)
  deriving DecidableEq, Repr

namespace Edit

def line : Edit → String
  | .set reference (some value) => "set " ++ reference.text ++ " = " ++ value
  | .set reference none => "clear " ++ reference.text
  | .insert parent name position =>
      "insert " ++ parent.text ++ "/" ++ name ++ " at " ++ toString position
  | .delete reference => "delete " ++ reference.text

def ofJson? (document : Json) : Option Edit := do
  let (tag, content) ← document.tagged? "op"
  match ← tag.text? with
  | "set" => do
      let fields ← content.fields? ["reference", "value"]
      let reference ← fields.required? "reference" Reference.ofJson?
      let value ← fields.optional? "value" Json.text?
      return .set reference value
  | "insert" => do
      let fields ← content.fields? ["parent", "name", "position"]
      let parent ← fields.required? "parent" Reference.ofJson?
      let name ← fields.required? "name" Json.text?
      let position ← fields.withDefault? "position" 0 Json.natural?
      return .insert parent name position
  | "delete" => do
      let fields ← content.fields? ["reference"]
      return .delete (← fields.required? "reference" Reference.ofJson?)
  | _ => none

end Edit

/-- Make an edit. An answer is text until its node converts it. -/
def Form.apply (form : Form) : Edit → Except FormError Outcome
  | .set reference value => form.setAnswer reference (value.map Value.text)
  | .insert parent name position =>
      (form.insertMember parent name position).map (·.1)
  | .delete reference => form.removeMember reference

end ReactiveForm
