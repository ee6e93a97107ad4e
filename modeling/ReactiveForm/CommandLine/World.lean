import ReactiveForm.Calendar.DateTime
import ReactiveForm.Form.Identifier

namespace ReactiveForm.CommandLine

/-! What the program needs from outside. Commands are written for any `World`,
so that they can be run over real files or over made-up ones. -/

inductive FileError
  | missing
  | isDirectory
  /-- Something that is no directory is named like one. -/
  | notDirectory
  | notText
  | other (reason : String)
  deriving DecidableEq, Repr

namespace FileError

def message : FileError → String
  | .missing => "No such file or directory (os error 2)"
  | .isDirectory => "Is a directory (os error 21)"
  | .notDirectory => "Not a directory (os error 20)"
  | .notText => "stream did not contain valid UTF-8"
  | .other reason => reason

def isAbsence : FileError → Bool
  | .missing | .isDirectory | .notDirectory => true
  | _ => false

end FileError

structure World (m : Type → Type) where
  /-- The absolute path of the working directory. -/
  directory : String
  read : (path : String) → m (Except FileError (List UInt8))
  write : (path : String) → List UInt8 → m (Except FileError Unit)
  now : m DateTime
  newIdentifier : m Identifier

end ReactiveForm.CommandLine
