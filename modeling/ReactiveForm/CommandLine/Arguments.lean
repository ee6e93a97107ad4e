namespace ReactiveForm.CommandLine

/-! What the arguments ask for. Options may stand anywhere after the word they
belong to: those of the whole program before or after the name of the command,
those of a command after its name. After `--` everything is an operand. -/

inductive Command
  | check (form : String)
  | run (form : String) (script answers : Option String) (asJson : Bool)
  | pack (form : String) (output : Option String) (initially : Bool)
  | inspect (file : String)
  deriving DecidableEq, Repr

structure Request where
  command : Command
  /-- The configuration file, if one is named. -/
  configuration : Option String
  verbose : Bool
  deriving DecidableEq, Repr

inductive UsageError
  | unknownOption (written : String)
  | valueMissing (option : String)
  | valueUnexpected (option : String)
  | givenTwice (option : String)
  | unknownCommand (name : String)
  | commandMissing
  | operandMissing
  | operandEmpty
  | operandUnexpected (written : String)
  deriving DecidableEq, Repr

def UsageError.message : UsageError → String
  | .unknownOption written => "unexpected argument '" ++ written ++ "' found"
  | .valueMissing option => "a value is required for '--" ++ option ++ "' but none was supplied"
  | .valueUnexpected option => "unexpected value for '--" ++ option ++ "' found"
  | .givenTwice option => "the argument '--" ++ option ++ "' cannot be used multiple times"
  | .unknownCommand name => "unrecognized subcommand '" ++ name ++ "'"
  | .commandMissing => "a subcommand is required but none was supplied"
  | .operandMissing => "a file name is required but none was supplied"
  | .operandEmpty => "a file name must not be empty"
  | .operandUnexpected written => "unexpected argument '" ++ written ++ "' found"

inductive Detour
  | help
  | version
  | misuse (error : UsageError)
  deriving DecidableEq, Repr

structure Switch where
  long : String
  short : Option Char
  takesValue : Bool
  deriving DecidableEq, Repr

namespace Switch

def help : Switch := ⟨"help", some 'h', false⟩
def version : Switch := ⟨"version", some 'V', false⟩
def config : Switch := ⟨"config", none, true⟩
def verbose : Switch := ⟨"verbose", some 'v', false⟩
def script : Switch := ⟨"script", none, true⟩
def answers : Switch := ⟨"answers", none, true⟩
def json : Switch := ⟨"json", none, false⟩
def output : Switch := ⟨"output", some 'o', true⟩
def initially : Switch := ⟨"initialize", none, false⟩

def common : List Switch := [config, verbose, help]

end Switch

abbrev Given := List (Switch × String)

namespace Given

def has (given : Given) (switch : Switch) : Bool :=
  (given.lookup switch).isSome

/-- Enter an option. The first wish for help or for the version is fulfilled
whatever comes later. -/
def enter (given : Given) (switch : Switch) (value : String) : Except Detour Given :=
  if switch = .help then .error .help
  else if switch = .version then .error .version
  else if given.has switch then .error (.misuse (.givenTwice switch.long))
  else if switch.takesValue && value.isEmpty then
    .error (.misuse (.valueMissing switch.long))
  else .ok ((switch, value) :: given)

end Given

abbrev Progress := Given × Option Switch

def takeLong (switches : List Switch) (given : Given) (letters : List Char) :
    Except Detour Progress :=
  let name := String.ofList (letters.takeWhile (· != '='))
  let attached := letters.dropWhile (· != '=')
  match switches.find? (·.long == name) with
  | none => .error (.misuse (.unknownOption ("--" ++ name)))
  | some switch =>
      if switch.takesValue then
        if attached.isEmpty then .ok (given, some switch)
        else (given.enter switch (String.ofList (attached.drop 1))).map (·, none)
      else if attached.isEmpty then (given.enter switch "").map (·, none)
      else .error (.misuse (.valueUnexpected switch.long))

/-- An argument of one-letter options, without its dash. What follows an option
with a value is that value. -/
def takeShort (switches : List Switch) : (given : Given) → List Char →
    Except Detour Progress
  | given, [] => .ok (given, none)
  | given, letter :: rest =>
      match switches.find? (·.short == some letter) with
      | none => .error (.misuse (.unknownOption ("-" ++ letter.toString)))
      | some switch =>
          if switch.takesValue then
            match rest with
            | [] => .ok (given, some switch)
            | '=' :: value => (given.enter switch (String.ofList value)).map (·, none)
            | value => (given.enter switch (String.ofList value)).map (·, none)
          else
            match given.enter switch "" with
            | .ok given => takeShort switches given rest
            | .error detour => .error detour

def looksLikeOption (argument : String) : Bool :=
  match argument.toList with
  | '-' :: _ :: _ => true
  | _ => false

structure Front where
  given : Given
  operand : Option String
  rest : List String
  /-- The operand came after `--`. -/
  plain : Bool

/-- Read arguments up to the first operand. `pending` is the option that waits for
its value. -/
def readFront (switches : List Switch) :
    (pending : Option Switch) → (plain : Bool) → (given : Given) → List String →
    Except Detour Front
  | some switch, _, _, [] => .error (.misuse (.valueMissing switch.long))
  | some switch, plain, given, argument :: rest =>
      if looksLikeOption argument then .error (.misuse (.valueMissing switch.long))
      else
        match given.enter switch argument with
        | .error detour => .error detour
        | .ok given => readFront switches none plain given rest
  | none, plain, given, [] => .ok ⟨given, none, [], plain⟩
  | none, true, given, argument :: rest => .ok ⟨given, some argument, rest, true⟩
  | none, false, given, argument :: rest =>
      match argument.toList with
      | ['-', '-'] => readFront switches none true given rest
      | '-' :: '-' :: letters =>
          match takeLong switches given letters with
          | .error detour => .error detour
          | .ok (given, pending) => readFront switches pending false given rest
      | '-' :: letter :: letters =>
          match takeShort switches given (letter :: letters) with
          | .error detour => .error detour
          | .ok (given, pending) => readFront switches pending false given rest
      | _ => .ok ⟨given, some argument, rest, false⟩

def readOperand (switches : List Switch) (arguments : List String) :
    Except Detour (String × Given) := do
  let front ← readFront switches none false [] arguments
  match front.operand with
  | none => .error (.misuse .operandMissing)
  | some operand =>
      if operand.isEmpty then .error (.misuse .operandEmpty)
      else
        let behind ← readFront switches none front.plain front.given front.rest
        match behind.operand with
        | some other => .error (.misuse (.operandUnexpected other))
        | none => return (operand, behind.given)

def readCommand (name : String) (arguments : List String) :
    Except Detour (Command × Given) :=
  match name with
  | "check" => do
      let (form, given) ← readOperand Switch.common arguments
      return (.check form, given)
  | "run" => do
      let (form, given) ←
        readOperand (Switch.common ++ [.script, .answers, .json]) arguments
      return (.run form (given.lookup .script) (given.lookup .answers) (given.has .json),
        given)
  | "pack" => do
      let (form, given) ← readOperand (Switch.common ++ [.output, .initially]) arguments
      return (.pack form (given.lookup .output) (given.has .initially), given)
  | "inspect" => do
      let (file, given) ← readOperand Switch.common arguments
      return (.inspect file, given)
  | _ => .error (.misuse (.unknownCommand name))

def commandNames : List String := ["check", "run", "pack", "inspect", "help"]

def readHelp : List String → Detour
  | [] => .help
  | name :: rest =>
      if !commandNames.contains name then .misuse (.unknownCommand name)
      else
        match rest with
        | [] => .help
        | other :: _ => .misuse (.unknownCommand other)

/-- What the arguments of the program ask for. Where a configuration file is named
twice, the one after the command counts. -/
def readArguments (arguments : List String) : Except Detour Request := do
  let front ← readFront (Switch.version :: Switch.common) none false [] arguments
  match front.operand with
  | none => .error (.misuse .commandMissing)
  | some name =>
      if front.plain then .error (.misuse (.operandUnexpected name))
      else if name = "help" then .error (readHelp front.rest)
      else
        let (command, given) ← readCommand name front.rest
        return {
          command
          configuration := (given.lookup .config).or (front.given.lookup .config)
          verbose := given.has .verbose || front.given.has .verbose }

example : readArguments ["--config", "c.toml", "run", "-v", "f.json", "--json"] =
    .ok ⟨.run "f.json" none none true, some "c.toml", true⟩ := by
  rfl

example : readArguments ["pack", "f.json", "-o"] =
      .error (.misuse (.valueMissing "output")) ∧
    readArguments ["check", "--help", "-x"] = .error .help := by
  constructor <;> rfl

end ReactiveForm.CommandLine
