import ReactiveForm.CommandLine.Program
import Std.Time.Zoned

/-! The program over real files and the real clock. -/

namespace ReactiveForm.CommandLine

/-- The error that the system reports. Its number may come with either sign. -/
def FileError.ofSystem : IO.Error → FileError
  | .noFileOrDirectory _ _ _ => .missing
  | .permissionDenied _ _ _ => .other "Permission denied (os error 13)"
  | .inappropriateType _ code details =>
      if code = 21 ∨ code = 0 - 21 then .isDirectory
      else if code = 20 ∨ code = 0 - 20 then .notDirectory
      else .other details
  | error => .other (toString error)

def attempt {α : Type} (action : IO α) : IO (Except FileError α) := do
  match ← action.toBaseIO with
  | .ok result => return .ok result
  | .error error => return .error (.ofSystem error)

def clock : IO DateTime := do
  let now ← Std.Time.PlainDateTime.now
  let time? := TimeOfDay.of? now.hour.toNat now.minute.toNat now.second.toNat
    now.nanosecond.toNat
  match Date.of? now.year.toInt now.month.toNat now.day.toNat, time? with
  | some date, some time => return ⟨date, time⟩
  | _, _ => return .startOf2020

def freshIdentifier : IO Identifier := do
  let bytes ← IO.getRandomBytes 16
  return (Identifier.ofRandom? bytes.toList).getD .none

def realWorld : IO (World IO) := do
  return {
    directory := (← IO.currentDir).toString
    read := fun path => attempt do return (← IO.FS.readBinFile path).toList
    write := fun path bytes => attempt (IO.FS.writeBinFile path ⟨bytes.toArray⟩)
    now := clock
    newIdentifier := freshIdentifier }

end ReactiveForm.CommandLine

open ReactiveForm.CommandLine

def main (arguments : List String) : IO UInt32 := do
  let response ← respond (← realWorld) arguments
  for remark in response.remarks do
    IO.eprintln ((if remark.isWarning then "warning: " else "") ++ remark.line)
  for line in response.lines do
    IO.println line
  if let some error := response.error then
    IO.eprintln ("error: " ++ error)
  return response.code
