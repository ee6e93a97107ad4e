import ReactiveForm.Form.Basic
import ReactiveForm.Json.Printer
import ReactiveForm.Json.Reader
import ReactiveForm.Storage.Container

namespace ReactiveForm

/-! Forms in files, with their answers and with everything that their rules have
set. A file has one section for what the form is, one for its rules and one for
its nodes; every body is a document. -/

abbrev StoredForm := Material

inductive Part where
  | particulars
  | rules
  | nodes
  deriving DecidableEq, Repr

namespace Part

def all : List Part := [.particulars, .rules, .nodes]

def tag : Part → Tag
  | .particulars => ⟨0x4D, 0x45, 0x54, 0x41⟩
  | .rules => ⟨0x54, 0x52, 0x49, 0x47⟩
  | .nodes => ⟨0x49, 0x4E, 0x53, 0x54⟩

def name : Part → String
  | .particulars => "meta"
  | .rules => "triggerables"
  | .nodes => "instance"

def ofTag? (tag : Tag) : Option Part :=
  all.find? (·.tag == tag)

end Part

inductive StorageError where
  | container (error : ContainerError)
  | partMissing (part : Part)
  /-- The body of a part is not the document it should be. -/
  | malformed (part : Part)
  | value (error : ValueError)
  deriving DecidableEq

def StorageError.message : StorageError → String
  | .container error => error.message
  | .partMissing part => "form file has no " ++ part.name ++ " section"
  | .malformed part => "deserialization error: " ++ part.name ++ " section: "
  | .value error => error.message

structure StoredValue where
  tag : String
  text : String
  deriving DecidableEq, Repr

/-- A node as it is stored. What a node inherits and its number in a series are
found again when it is restored. -/
structure StoredNode where
  name : String
  isTemplate : Bool
  type : String
  value : Option StoredValue
  attributes : List Attribute
  relevant : Bool
  required : Bool
  validity : Validity
  children : List StoredNode

namespace StoredNode

mutual

def ofNode : Node → StoredNode
  | ⟨facts, children⟩ =>
      { name := facts.name
        isTemplate := facts.multiplicity == .template
        type := facts.type.tag
        value := facts.answer.map fun value => ⟨value.type.tag, value.display⟩
        attributes := facts.attributes
        relevant := facts.relevant
        required := facts.required
        validity := facts.validity
        children := ofNodes children }

def ofNodes : List Node → List StoredNode
  | [] => []
  | node :: rest => ofNode node :: ofNodes rest

end

def facts (constructors : Constructors) (stored : StoredNode) :
    Except ValueError Facts := do
  let type ←
    match ValueType.ofTag? stored.type with
    | some type => .ok type
    | none => .error (.unknownType stored.type)
  let answer ← stored.value.mapM fun value => constructors.construct value.tag value.text
  let multiplicity : Multiplicity := if stored.isTemplate then .template else .index 0
  let attributes :=
    stored.attributes.foldl (fun entries entry => entry.putInto entries) []
  return {
    Facts.blank stored.name multiplicity with
    type, answer, attributes
    relevant := stored.relevant
    required := stored.required
    validity := stored.validity }

mutual

def node (constructors : Constructors) : StoredNode → Except ValueError Node
  | ⟨name, isTemplate, type, value, attributes, relevant, required, validity,
      children⟩ => do
      let stored : StoredNode :=
        ⟨name, isTemplate, type, value, attributes, relevant, required, validity, []⟩
      let facts ← stored.facts constructors
      appendNodes constructors (.leaf facts) children

def appendNodes (constructors : Constructors) (parent : Node) :
    List StoredNode → Except ValueError Node
  | [] => .ok parent
  | child :: rest => do
      let appended := parent.append (← child.node constructors)
      appendNodes constructors appended rest

end

/-! Stored nodes in documents. -/

def valueToJson (value : StoredValue) : Json :=
  .object [("tag", .text value.tag), ("text", .text value.text)]

def valueOfJson? (document : Json) : Option StoredValue := do
  let fields ← document.fields? ["tag", "text"]
  let tag ← fields.required? "tag" Json.text?
  let text ← fields.required? "text" Json.text?
  return ⟨tag, text⟩

mutual

def toJson : StoredNode → Json
  | ⟨name, isTemplate, type, value, attributes, relevant, required, validity,
      children⟩ =>
      .object ([("name", .text name)] ++ Json.memberIf "template" isTemplate ++
        [("data_type", .text type)] ++ Json.member? "value" valueToJson value ++
        Json.memberUnlessEmpty "attributes" Attribute.toJson attributes ++
        [("relevant", .boolean relevant), ("required", .boolean required),
          ("constraint", validity.toJson)] ++
        Json.memberUnlessEmpty "children" id (allToJson children))

def allToJson : List StoredNode → List Json
  | [] => []
  | stored :: rest => stored.toJson :: allToJson rest

end

def ofJsonWithin? : (levels : Nat) → Json → Option StoredNode
  | 0, _ => none
  | levels + 1, document => do
      let fields ← document.fields?
        ["name", "template", "data_type", "value", "attributes", "relevant", "required",
          "constraint", "children"]
      let name ← fields.required? "name" Json.text?
      let isTemplate ← fields.withDefault? "template" false Json.boolean?
      let type ← fields.required? "data_type" Json.text?
      let value ← fields.optional? "value" valueOfJson?
      let attributes ←
        fields.withDefault? "attributes" [] (Json.list? Attribute.ofJson?)
      let relevant ← fields.required? "relevant" Json.boolean?
      let required ← fields.required? "required" Json.boolean?
      let validity ← fields.required? "constraint" Validity.ofJson?
      let children ← fields.withDefault? "children" [] (Json.list? (ofJsonWithin? levels))
      return ⟨name, isTemplate, type, value, attributes, relevant, required, validity,
        children⟩

def ofJson? (document : Json) : Option StoredNode :=
  ofJsonWithin? (document.depth + 1) document

end StoredNode

structure Particulars where
  id : Identifier
  title : String
  settings : Settings

namespace Particulars

def toJson (particulars : Particulars) : Json :=
  .object [("id", particulars.id.toJson), ("title", .text particulars.title),
    ("config", particulars.settings.toJson)]

def ofJson? (document : Json) : Option Particulars := do
  let fields ← document.fields? ["id", "title", "config"]
  let id ← fields.required? "id" Identifier.ofJson?
  let title ← fields.required? "title" Json.text?
  let settings ← fields.required? "config" Settings.ofJson?
  return ⟨id, title, settings⟩

end Particulars

def Form.stored (form : Form) : StoredForm :=
  ⟨form.id, form.title, form.tree, form.engine.rulebook.rules, form.engine.settings⟩

namespace StoredForm

def document (stored : StoredForm) : Part → Json
  | .particulars => Particulars.toJson ⟨stored.id, stored.title, stored.settings⟩
  | .rules => .array (stored.rules.map Rule.toJson)
  | .nodes => (StoredNode.ofNode stored.tree.root).toJson

def sections (stored : StoredForm) : List Section :=
  Part.all.map fun part => ⟨part.tag, Text.Utf8.encode (document stored part).compact⟩

def bytes (stored : StoredForm) : List UInt8 :=
  Container.frame (sections stored)

/-- The body of a part: that of the first section with its tag. -/
def body (parts : List Section) (part : Part) : Except StorageError (List UInt8) :=
  match parts.find? (·.tag == part.tag) with
  | some found => .ok found.body
  | none => .error (.partMissing part)

def decode {α : Type} (parts : List Section) (part : Part) (decode? : Json → Option α) :
    Except StorageError α := do
  let bytes ← body parts part
  match (Json.readBytes? bytes).bind decode? with
  | some decoded => .ok decoded
  | none => .error (.malformed part)

def ofSections (constructors : Constructors) (parts : List Section) :
    Except StorageError StoredForm := do
  let particulars ← decode parts .particulars Particulars.ofJson?
  let rules ← decode parts .rules (Json.list? Rule.ofJson?)
  let stored ← decode parts .nodes StoredNode.ofJson?
  let root ← (stored.node constructors).mapError StorageError.value
  return ⟨particulars.id, particulars.title, .ofRoot root, rules, particulars.settings⟩

def readSections (bytes : List UInt8) : Except StorageError (List Section) :=
  (Container.read bytes).mapError StorageError.container

def ofBytes (constructors : Constructors) (bytes : List UInt8) :
    Except StorageError StoredForm := do
  let parts ← readSections bytes
  ofSections constructors parts

end StoredForm

end ReactiveForm
