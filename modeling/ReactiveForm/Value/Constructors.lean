import ReactiveForm.Value.Text

namespace ReactiveForm

/-! Stored answers are pairs of a type's tag and a text. Whoever restores them
says how the values of every tag are constructed. -/

abbrev Constructor := String → Except ValueError Value

abbrev Constructors := List (String × Constructor)

namespace Constructors

def register (tag : String) (constructor : Constructor) : Constructors → Constructors
  | [] => [(tag, constructor)]
  | (other, existing) :: rest =>
      if tag < other then (tag, constructor) :: (other, existing) :: rest
      else if tag = other then (tag, constructor) :: rest
      else (other, existing) :: register tag constructor rest

def standard : Constructors :=
  ValueType.all.foldl
    (fun constructors type => register type.tag (Value.read type) constructors) []

def tags (constructors : Constructors) : List String :=
  constructors.map (·.1)

def contains (constructors : Constructors) (tag : String) : Bool :=
  constructors.any (·.1 == tag)

def construct (constructors : Constructors) (tag written : String) :
    Except ValueError Value :=
  match List.find? (fun (entry : String × Constructor) => entry.1 == tag) constructors with
  | some (_, constructor) => constructor written
  | none => .error (.unknownType tag)

example : tags standard =
    ["boolean", "date", "datetime", "decimal", "int", "text", "time", "unspecified"] := by
  decide

end Constructors

end ReactiveForm
