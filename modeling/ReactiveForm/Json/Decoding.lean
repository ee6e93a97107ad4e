import ReactiveForm.Json.Basic
import ReactiveForm.Number.Word

namespace ReactiveForm.Json

/-! Values of the library's types from documents. A structure is an object
with named members, or a list of its fields in order; members of other names
are passed over, but a field may not come twice. A choice without content is
its name, or an object with its name and null. -/

def text? : Json → Option String
  | .text content => some content
  | _ => none

def boolean? : Json → Option Bool
  | .boolean truth => some truth
  | _ => none

def int64? : Json → Option Int64
  | .integer value => Number.int64? value
  | _ => none

def natural? : Json → Option Nat
  | .integer (.ofNat value) => if value < UInt64.size then some value else none
  | _ => none

def decimal? : Json → Option Float
  | .integer value => some (Float.ofInt value)
  | .decimal value => some value
  | _ => none

def option? {α : Type} (decode : Json → Option α) : Json → Option (Option α)
  | .null => some none
  | document => (decode document).map some

def list? {α : Type} (decode : Json → Option α) : Json → Option (List α)
  | .array items => items.mapM decode
  | _ => none

/-- The fields found for a structure, by name. A field that is missing is not
among them. -/
abbrev Fields := List (String × Json)

def namesOnce (names : List String) (members : List (String × Json)) : Bool :=
  names.all fun name => members.countP (·.1 == name) ≤ 1

def fields? (names : List String) : Json → Option Fields
  | .object members =>
      if namesOnce names members then some members else none
  | .array items =>
      if items.length ≤ names.length then some (names.zip items) else none
  | _ => none

namespace Fields

def find? (fields : Fields) (name : String) : Option Json :=
  (List.find? (fun (field : String × Json) => field.1 == name) fields).map (·.2)

def required? {α : Type} (fields : Fields) (name : String)
    (decode : Json → Option α) : Option α :=
  (fields.find? name).bind decode

def withDefault? {α : Type} (fields : Fields) (name : String) (default : α)
    (decode : Json → Option α) : Option α :=
  match fields.find? name with
  | none => some default
  | some document => decode document

def optional? {α : Type} (fields : Fields) (name : String)
    (decode : Json → Option α) : Option (Option α) :=
  fields.withDefault? name none (option? decode)

end Fields

def choice? : Json → Option (String × Option Json)
  | .text name => some (name, none)
  | .object [(name, content)] => some (name, some content)
  | _ => none

def bareChoice? {α : Type} (named : String → Option α) (document : Json) : Option α := do
  let (name, content) ← document.choice?
  match content with
  | none | some .null => named name
  | some _ => none

/-- A choice whose name is one of the fields of an object, or the first item
of a list: the document of the name, and the document of everything else.
Nothing in such a document may be unusable. -/
def tagged? (tag : String) (document : Json) : Option (Json × Json) :=
  if !document.isUsable then none
  else
    match document with
    | .object members =>
        match members.partition (·.1 == tag) with
        | ([(_, name)], rest) => some (name, .object rest)
        | _ => none
    | .array (name :: rest) => some (name, .array rest)
    | _ => none

/-- There is nothing that a choice without content would have to use: an
object's members are passed over, but a list has to be empty. -/
def hasNoContent : Json → Bool
  | .object _ => true
  | .array items => items.isEmpty
  | _ => false

def member? {α : Type} (name : String) (encode : α → Json) :
    Option α → List (String × Json)
  | none => []
  | some value => [(name, encode value)]

def memberUnlessEmpty {α : Type} (name : String) (encode : α → Json)
    (items : List α) : List (String × Json) :=
  if items.isEmpty then [] else [(name, .array (items.map encode))]

def memberIf (name : String) (holds : Bool) : List (String × Json) :=
  if holds then [(name, .boolean true)] else []

end ReactiveForm.Json
