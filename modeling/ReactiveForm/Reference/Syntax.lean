import ReactiveForm.Number.Reading
import ReactiveForm.Reference.Basic
import ReactiveForm.Text.Alphanumeric
import ReactiveForm.Text.Blank

namespace ReactiveForm

/-! References as text: `/data/house[1]/age`, `../age`, `/data/house[@template]`,
and `.` for the context itself. -/

inductive Reference.Flaw where
  | empty
  | rootMissing
  | emptySegment
  | lateDot
  | lateClimb
  | openBracket
  | badIndex (written : String)
  | badName (written : String)
  deriving DecidableEq, Repr

def Reference.Flaw.message : Reference.Flaw → String
  | .empty => "empty reference"
  | .rootMissing => "absolute reference needs a root step"
  | .emptySegment => "empty path segment"
  | .lateDot => "'.' is only allowed before named steps"
  | .lateClimb => "'..' is only allowed before named steps"
  | .openBracket => "unterminated '['"
  | .badIndex written => "bad index '" ++ written ++ "'"
  | .badName written => "bad step name '" ++ written ++ "'"

namespace Multiplicity

def letters : Multiplicity → List Char
  | .unbound => []
  | .template => "[@template]".toList
  | .index position => '[' :: Number.digits position ++ [']']

end Multiplicity

namespace Step

def letters (step : Step) : List Char :=
  step.name.toList ++ step.multiplicity.letters

def isNameLetter (letter : Char) : Bool :=
  letter == '_' || letter == '-' || letter == '.' || letter == ':' ||
    Text.isAlphanumeric letter

def isName (letters : List Char) : Bool :=
  !letters.isEmpty && letters.all isNameLetter

def readMultiplicity (inner : List Char) : Except Reference.Flaw Multiplicity :=
  if inner = "@template".toList then .ok .template
  else
    match Number.readPosition? inner with
    | some position => .ok (.index position)
    | none => .error (.badIndex (String.ofList inner))

def read (segment : List Char) : Except Reference.Flaw Step := do
  let name := segment.takeWhile (· != '[')
  let multiplicity ←
    match segment.dropWhile (· != '[') with
    | [] => pure .unbound
    | _ :: inner =>
        if inner.getLast? = some ']' then readMultiplicity inner.dropLast
        else .error .openBracket
  if isName name then .ok ⟨String.ofList name, multiplicity⟩
  else .error (.badName (String.ofList name))

end Step

namespace Reference

def joinSegments : List (List Char) → List Char
  | [] => []
  | [segment] => segment
  | segment :: rest => segment ++ '/' :: joinSegments rest

def splitSegments : List Char → List (List Char)
  | [] => [[]]
  | letter :: rest =>
      if letter = '/' then [] :: splitSegments rest
      else
        match splitSegments rest with
        | [] => [[letter]]
        | segment :: segments => (letter :: segment) :: segments

def letters (reference : Reference) : List Char :=
  match reference.origin with
  | .absolute => reference.steps.flatMap fun step => '/' :: step.letters
  | .relative climb =>
      match List.replicate climb ['.', '.'] ++ reference.steps.map Step.letters with
      | [] => ['.']
      | segments => joinSegments segments

def text (reference : Reference) : String :=
  String.ofList reference.letters

def readSegments (soFar : Reference) : List (List Char) → Except Flaw Reference
  | [] => .ok soFar
  | segment :: rest =>
      match segment with
      | [] => .error .emptySegment
      | ['.'] =>
          if soFar.isAbsolute || !soFar.steps.isEmpty then .error .lateDot
          else readSegments soFar rest
      | ['.', '.'] =>
          match soFar.origin, soFar.steps with
          | .relative climb, [] => readSegments (relative (climb + 1) []) rest
          | _, _ => .error .lateClimb
      | _ => do
          let step ← Step.read segment
          readSegments { soFar with steps := soFar.steps ++ [step] } rest

def readLetters (letters : List Char) : Except Flaw Reference :=
  match letters with
  | [] => .error .empty
  | ['/'] => .error .rootMissing
  | '/' :: rest => readSegments (absolute []) (splitSegments rest)
  | _ => readSegments (relative 0 []) (splitSegments letters)

def read (written : String) : Except Flaw Reference :=
  readLetters (Text.trimLetters written.toList)

/-- The last name and, in brackets, the positions of all levels below the root
counted from one. -/
def brief (reference : Reference) : String :=
  let positions := (reference.steps.drop 1).filterMap (·.multiplicity.position?)
  let numbers := positions.map fun position => String.ofList (Number.digits (position + 1))
  (reference.lastName?.getD "") ++ " [" ++ "_".intercalate numbers ++ "]"

example : ((read " ../house[1]/age ").toOption.map text) = some "../house[1]/age" ∧
    (read "/data/house[@template]").toOption.map text = some "/data/house[@template]" ∧
    (read "./age").toOption.map text = some "age" ∧
    (read "/a/../b").toOption = none ∧ (read "/a[x]").toOption = none := by
  decide +kernel

end Reference

end ReactiveForm
