import ReactiveForm.CommandLine.Arguments
import ReactiveForm.CommandLine.Configuration
import ReactiveForm.CommandLine.Listing
import ReactiveForm.CommandLine.Path
import ReactiveForm.CommandLine.Script
import ReactiveForm.CommandLine.World

namespace ReactiveForm

def FormError.fullMessage (error : FormError) : String :=
  match error with
  | .invalidBind invalid => error.message ++ ": " ++ invalid.error.message
  | _ => error.message

namespace CommandLine

/-! The commands of the program. -/

inductive ContentError
  | file (error : FileError)
  | stored (error : StorageError)
  /-- The file holds no definition of a form. -/
  | noDefinition
  deriving DecidableEq

def ContentError.message : ContentError → String
  | .file error => error.message
  | .stored error => error.message
  | .noDefinition => "form definition error: not a form definition"

inductive CommandError
  | reading (path : String) (error : ContentError)
  /-- The text of the file is not in the right format. -/
  | parsing (path format : String)
  | building (path : String) (error : FormError)
  | applying (edit : Edit) (error : FormError)
  | writing (path : String) (error : FileError)

def CommandError.message : CommandError → String
  | .reading path error => "reading " ++ path ++ ": " ++ error.message
  | .parsing path format => "parsing " ++ path ++ ": not " ++ format
  | .building path error => "building " ++ path ++ ": " ++ error.fullMessage
  | .applying edit error => "applying '" ++ edit.line ++ "': " ++ error.fullMessage
  | .writing path error => "writing " ++ path ++ ": " ++ error.message

structure Remark where
  isWarning : Bool
  line : String
  deriving DecidableEq, Repr

structure Console where
  lines : Array String
  remarks : Array Remark

/-- A command under way. What has been shown stays there when it ends early. -/
abbrev Running (m : Type → Type) := ExceptT CommandError (StateT Console m)

section

variable {m : Type → Type} [Monad m]

def say (line : String) : Running m Unit :=
  modify fun console => { console with lines := console.lines.push line }

def sayAll (lines : List String) : Running m Unit :=
  modify fun console => { console with lines := console.lines ++ lines }

def note (remark : Remark) : Running m Unit :=
  modify fun console => { console with remarks := console.remarks.push remark }

def orEnd {ε α : Type} (reason : ε → CommandError) : Except ε α → Running m α
  | .ok result => pure result
  | .error error => throw (reason error)

def ask {α : Type} (question : m α) : Running m α :=
  ExceptT.lift (StateT.lift question)

variable (world : World m)

/-! Files. -/

def readBytes (path : String) : Running m (List UInt8) := do
  orEnd (fun error => .reading path (.file error)) (← ask (world.read path))

def textOf (path : String) (bytes : List UInt8) : Running m String :=
  match Text.Utf8.decode? bytes with
  | some text => pure text
  | none => throw (.reading path (.file .notText))

def readText (path : String) : Running m String := do
  textOf path (← readBytes world path)

def settingsOf (path text : String) : Running m Settings :=
  match Settings.ofConfiguration? text with
  | some settings => pure settings
  | none => throw (.parsing path "a configuration")

def findSettings : (places : List String) → Running m Settings
  | [] => pure .standard
  | path :: places => do
      match ← ask (world.read path) with
      | .error error =>
          if error.isAbsence then findSettings places
          else throw (.reading path (.file error))
      | .ok bytes =>
          note ⟨false, "using " ++ path⟩
          settingsOf path (← textOf path bytes)

/-- The settings of the configuration file that is named, or else of the nearest
one. -/
def readSettings (configuration : Option String) : Running m Settings :=
  match configuration with
  | some path => do settingsOf path (← readText world path)
  | none => findSettings world (placesAbove world.directory "formdag.toml")

def readStored (path : String) : Running m StoredForm := do
  orEnd (fun error => .reading path (.stored error))
    (StoredForm.ofBytes .standard (← readBytes world path))

def readDefinition (path : String) : Running m Definition := do
  match (Json.read? (← readText world path)).bind Definition.ofJson? with
  | none => throw (.reading path .noDefinition)
  | some definition =>
      match definition.id with
      | some _ => return definition
      | none => return { definition with id := some (← ask world.newIdentifier) }

def readScript (path : String) : Running m (List Edit) := do
  match (Json.read? (← readText world path)).bind (Json.list? Edit.ofJson?) with
  | some edits => return edits
  | none => throw (.parsing path "an edit script")

inductive Source
  | stored (form : StoredForm)
  | defined (definition : Definition) (settings : Settings)

def Source.material : Source → Except FormError Material
  | .stored form => .ok form
  | .defined definition settings => definition.material .standard settings

def readSource (settings : Settings) (path : String) : Running m Source := do
  if extension? path = some "fdf" then return .stored (← readStored world path)
  else return .defined (← readDefinition world path) settings

def buildForm (path : String) (source : Source) (saved : Option AnswerTree) :
    Running m Form := do
  let now ← ask world.now
  orEnd (.building path) do
    Form.build (← source.material) (Expression.evaluator now) saved

def loadForm (settings : Settings) (path : String) : Running m Form := do
  buildForm world path (← readSource world settings path) none

/-! Commands. -/

def check (settings : Settings) (path : String) : Running m Unit := do
  sayAll (← loadForm world settings path).orderLines

def tell (asJson : Bool) (events : List Event) : Running m Unit :=
  if asJson then events.forM fun event => note ⟨false, event.message⟩
  else sayAll (events.map fun event => "  " ++ event.message)

def replay (asJson : Bool) : (form : Form) → (report : Report) → List Edit →
    Running m (Form × Report)
  | form, report, [] => pure (form, report)
  | form, report, edit :: edits => do
      if !asJson then say edit.line
      let outcome ← orEnd (.applying edit) (form.apply edit)
      tell asJson outcome.events
      replay asJson outcome.form (report ++ outcome.report) edits

def run (settings : Settings) (path : String) (script answers : Option String)
    (asJson : Bool) : Running m Unit := do
  let edits ←
    match script with
    | none => pure []
    | some script => readScript world script
  let source ← readSource world settings path
  let saved ← answers.mapM fun answers => do return (← readStored world answers).tree
  let form ← buildForm world path source saved
  if !asJson then say "initialize"
  let outcome := form.initial
  tell asJson outcome.events
  let (form, report) ← replay asJson outcome.form outcome.report edits
  report.failures.forM fun failure => note ⟨true, failure.line⟩
  if asJson then say form.tree.answerDocument.pretty
  else
    sayAll ["", report.countLine, "Answers:"]
    sayAll form.tree.answerLines

def pack (settings : Settings) (path : String) (output : Option String)
    (initially : Bool) : Running m Unit := do
  let output := output.getD (withExtension path "fdf")
  let form ← loadForm world settings path
  let stored := (if initially then form.initial.form else form).stored
  let bytes := stored.bytes
  orEnd (.writing output) (← ask (world.write output bytes))
  say ("wrote " ++ output ++ " (" ++ toString bytes.length ++ " bytes, " ++
    toString stored.rules.length ++ " triggerables)")

def inspect (path : String) : Running m Unit := do
  let bytes ← readBytes world path
  let unreadable (error : StorageError) : CommandError := .reading path (.stored error)
  let parts ← orEnd unreadable (StoredForm.readSections bytes)
  let stored ← orEnd unreadable (StoredForm.ofSections .standard parts)
  sayAll (stored.lines path parts)

def perform (request : Request) : Running m Unit := do
  let settings ← readSettings world request.configuration
  match request.command with
  | .check form => check world settings form
  | .run form script answers asJson => run world settings form script answers asJson
  | .pack form output initially => pack world settings form output initially
  | .inspect file => inspect world file

end

/-! What the whole program answers. -/

def versionLine : String := "formdag 0.1.0"

def helpLines : List String :=
  ["Form definition recalculation engine",
    "",
    "Usage: formdag [OPTIONS] <COMMAND>",
    "",
    "Commands:",
    "  check FORM      Build a form and print its evaluation order",
    "  run FORM        Fill in a form and print events and final answers",
    "                  [--script FILE] [--answers FILE] [--json]",
    "  pack FORM       Build a form and store it in a file",
    "                  [-o, --output FILE] [--initialize]",
    "  inspect FILE    Show the sections, binds and answers of a stored form",
    "  help            Print this message",
    "",
    "Options:",
    "      --config FILE  Configuration file (default: the nearest formdag.toml)",
    "  -v, --verbose      Log what the engine does",
    "  -h, --help         Print help",
    "  -V, --version      Print version"]

structure Response where
  code : UInt32
  lines : List String
  remarks : List Remark
  error : Option String

def respond {m : Type → Type} [Monad m] (world : World m) (arguments : List String) :
    m Response := do
  match readArguments arguments with
  | .error .help => return ⟨0, helpLines, [], none⟩
  | .error .version => return ⟨0, [versionLine], [], none⟩
  | .error (.misuse error) => return ⟨2, [], [], some error.message⟩
  | .ok request =>
      let (result, console) ← ((perform world request).run.run ⟨#[], #[]⟩)
      let lines := console.lines.toList
      let remarks := console.remarks.toList.filter fun remark =>
        remark.isWarning || request.verbose
      match result with
      | .ok () => return ⟨0, lines, remarks, none⟩
      | .error error => return ⟨1, lines, remarks, some error.message⟩

end CommandLine

end ReactiveForm
