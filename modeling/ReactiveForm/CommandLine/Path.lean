namespace ReactiveForm.CommandLine

/-! Paths of files, as text. -/

/-- The extension of a file name, without its point. A point in front of
everything else does not begin one. -/
def extension? (path : String) : Option String :=
  let backwards := path.toList.reverse.takeWhile (· != '/')
  let extension := (backwards.takeWhile (· != '.')).reverse
  if extension.length + 1 < backwards.length then some (String.ofList extension) else none

def withExtension (path extension : String) : String :=
  let length :=
    match extension? path with
    | none => path.length
    | some other => path.length - (other.length + 1)
  String.ofList (path.toList.take length) ++ "." ++ extension

def ancestors : List String → List (List String)
  | [] => [[]]
  | name :: above => (name :: above) :: ancestors above

def placesAbove (directory name : String) : List String :=
  let names := (directory.splitOn "/").filter (!·.isEmpty)
  (ancestors names.reverse).map fun names =>
    String.join ((name :: names).reverse.map ("/" ++ ·))

example : extension? "forms.d/visit.json" = some "json" ∧ extension? "forms.d/visit" = none ∧
    extension? ".fdf" = none ∧ withExtension "a.b.json" "fdf" = "a.b.fdf" ∧
    withExtension "a.b/c" "fdf" = "a.b/c.fdf" := by
  decide

example : ancestors ["b", "a"] = [["b", "a"], ["a"], []] := rfl

end ReactiveForm.CommandLine
