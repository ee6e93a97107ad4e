import ReactiveForm.CommandLine.World

namespace ReactiveForm.CommandLine

/-! Files in memory. A command that runs over them is a function of what they
hold. -/

abbrev Place := List String

structure Disk where
  directories : List Place
  files : List (Place × List UInt8)

def Place.withAbove : Place → List Place
  | [] => [[]]
  | name :: rest => [] :: (Place.withAbove rest).map (name :: ·)

namespace Disk

def follow (disk : Disk) (place : Place) (name : String) : Except FileError Place :=
  if (disk.files.lookup place).isSome then .error .notDirectory
  else if !disk.directories.contains place then .error .missing
  else if name.isEmpty || name == "." then .ok place
  else if name == ".." then .ok place.dropLast
  else .ok (place ++ [name])

/-- The place of a path, which is absolute or begins at some place. There need not
be anything at the place itself. -/
def locate (disk : Disk) (start : Place) (path : String) : Except FileError Place :=
  (path.splitOn "/").foldlM disk.follow (if path.startsWith "/" then [] else start)

def read (disk : Disk) (start : Place) (path : String) : Except FileError (List UInt8) := do
  let place ← disk.locate start path
  if disk.directories.contains place then .error .isDirectory
  else
    match disk.files.lookup place with
    | some bytes => .ok bytes
    | none => .error .missing

/-- Write a file, in place of the one that is there. A path that ends in a slash
is that of a directory. -/
def write (disk : Disk) (start : Place) (path : String) (bytes : List UInt8) :
    Except FileError Disk := do
  let bare := String.ofList (path.toList.reverse.dropWhile (· == '/')).reverse
  let place ← disk.locate start bare
  if bare != path || disk.directories.contains place then .error .isDirectory
  else
    return { disk with files := (place, bytes) :: disk.files.filter (·.1 != place) }

def placeOf (path : String) : Place :=
  (path.splitOn "/").filter (!·.isEmpty)

def withDirectory (disk : Disk) (path : String) : Disk :=
  { disk with directories := disk.directories ++ (placeOf path).withAbove }

def ofFiles (directory : String) (files : List (String × List UInt8)) : Disk :=
  let files := files.map fun (path, bytes) => (placeOf directory ++ placeOf path, bytes)
  let directories := files.flatMap fun (place, _) => Place.withAbove place.dropLast
  (⟨directories, files⟩ : Disk).withDirectory directory

def world (directory : String) (now : DateTime) (identifier : Identifier) :
    World (StateM Disk) where
  directory
  read := fun path => do return (← get).read (placeOf directory) path
  write := fun path bytes => do
    match (← get).write (placeOf directory) path bytes with
    | .ok disk =>
        set disk
        return .ok ()
    | .error error => return .error error
  now := return now
  newIdentifier := return identifier

end Disk

end ReactiveForm.CommandLine
