namespace ReactiveForm

/-! Documents of null, truth values, numbers, text, lists and named
members. -/

/-- A JSON value. The members of an object keep their order, and a name may
come twice. -/
inductive Json where
  | null
  | boolean (truth : Bool)
  | integer (value : Int)
  | decimal (value : Float)
  | text (content : String)
  | array (items : List Json)
  | object (members : List (String × Json))
  /-- A value that is written correctly but cannot be held: it lies too deep,
  its number is out of range, or its text has half a character. A reader may
  pass over it but not use it. -/
  | unusable

namespace Json

def ofDecimal (value : Float) : Json :=
  if value.isFinite then .decimal value else .null

def ofText? : Option String → Json
  | none => .null
  | some content => .text content

def natural (value : Nat) : Json :=
  .integer value

def isUsable : Json → Bool
  | .unusable => false
  | .array items => allUsable items
  | .object members => allMembersUsable members
  | _ => true
where
  allUsable : List Json → Bool
    | [] => true
    | item :: rest => item.isUsable && allUsable rest
  allMembersUsable : List (String × Json) → Bool
    | [] => true
    | (_, value) :: rest => value.isUsable && allMembersUsable rest

def depth : Json → Nat
  | .array items => depthOfItems items + 1
  | .object members => depthOfMembers members + 1
  | _ => 0
where
  depthOfItems : List Json → Nat
    | [] => 0
    | item :: rest => max item.depth (depthOfItems rest)
  depthOfMembers : List (String × Json) → Nat
    | [] => 0
    | (_, value) :: rest => max value.depth (depthOfMembers rest)

end Json

end ReactiveForm
