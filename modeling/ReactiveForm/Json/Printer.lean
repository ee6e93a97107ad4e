import ReactiveForm.Json.Basic
import ReactiveForm.Number.Layout
import ReactiveForm.Text.Hexadecimal

namespace ReactiveForm.Json

/-! Writing a document: on one line without any white space, or with one item
a line and two spaces for every level. -/

def escapeLetter (letter : Char) : List Char :=
  match letter with
  | '"' => ['\\', '"']
  | '\\' => ['\\', '\\']
  | '\x08' => ['\\', 'b']
  | '\x0c' => ['\\', 'f']
  | '\n' => ['\\', 'n']
  | '\r' => ['\\', 'r']
  | '\t' => ['\\', 't']
  | _ =>
      if letter.val < 0x20 then
        '\\' :: 'u' :: '0' :: '0' :: Text.hexadecimalByte letter.val.toUInt8
      else [letter]

def quote (content : String) : String :=
  String.ofList ('"' :: content.toList.flatMap escapeLetter ++ ['"'])

structure Setting where
  /-- What precedes an item that lies at this level. -/
  lead : Nat → String
  /-- What stands between a name and its value. -/
  colon : String

def Setting.compact : Setting := ⟨fun _ => "", ":"⟩

def Setting.pretty : Setting :=
  ⟨fun level => String.ofList ('\n' :: List.replicate (2 * level) ' '), ": "⟩

def Setting.enclose (setting : Setting) (level : Nat) (opening closing : Char)
    (items : List String) : String :=
  if items.isEmpty then String.ofList [opening, closing]
  else
    opening.toString ++
      ",".intercalate (items.map (setting.lead (level + 1) ++ ·)) ++
      setting.lead level ++ closing.toString

mutual

def write (setting : Setting) (level : Nat) : Json → String
  | .null => "null"
  | .boolean true => "true"
  | .boolean false => "false"
  | .integer value => String.ofList (Number.integerDigits value)
  | .decimal value => Number.Layout.document.write value
  | .text content => quote content
  | .array items => setting.enclose level '[' ']' (writeItems setting (level + 1) items)
  | .object members =>
      setting.enclose level '{' '}' (writeMembers setting (level + 1) members)
  | .unusable => "null"

def writeItems (setting : Setting) (level : Nat) : List Json → List String
  | [] => []
  | item :: rest => write setting level item :: writeItems setting level rest

def writeMembers (setting : Setting) (level : Nat) : List (String × Json) → List String
  | [] => []
  | (name, value) :: rest =>
      (quote name ++ setting.colon ++ write setting level value) ::
        writeMembers setting level rest

end

def compact (document : Json) : String :=
  document.write .compact 0

def pretty (document : Json) : String :=
  document.write .pretty 0

end ReactiveForm.Json
