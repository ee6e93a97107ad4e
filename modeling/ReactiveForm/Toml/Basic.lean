namespace ReactiveForm

/-! Configuration files: tables of keys and values. -/

/-- How a table came to be. It decides what may still be added to it. -/
inductive TableOrigin
  /-- Written out under its own header. -/
  | header
  /-- On the way to the table of another header. -/
  | passage
  /-- On the way to the last part of a dotted key. -/
  | dottedKey
  /-- Written out between braces. -/
  | braces
  deriving DecidableEq, Repr

inductive Toml where
  | text (content : String)
  | integer (value : Int)
  | decimal (value : Float)
  | boolean (truth : Bool)
  /-- A date, a time of day or both, as it is written. -/
  | moment (written : String)
  | array (items : List Toml)
  | table (origin : TableOrigin) (entries : List (String × Toml))
  /-- The tables of a header that comes again and again, the latest first. -/
  | tables (latestFirst : List Toml)

namespace Toml

abbrev Entries := List (String × Toml)

def put (key : String) (value : Toml) : Entries → Entries
  | [] => [(key, value)]
  | (other, content) :: rest =>
      if other = key then (key, value) :: rest else (other, content) :: put key value rest

def items? : Toml → Option (List Toml)
  | .array items => some items
  | .tables latestFirst => some latestFirst.reverse
  | _ => none

end Toml

end ReactiveForm
