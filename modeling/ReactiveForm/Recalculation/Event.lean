import ReactiveForm.Reference.Syntax

namespace ReactiveForm

/-! What a form tells while it recalculates. -/

inductive SeriesChange where
  | created
  | shifted
  | deleted
  deriving DecidableEq, Repr

def SeriesChange.word : SeriesChange → String
  | .created => "Created"
  | .shifted => "Shifted"
  | .deleted => "Deleted"

inductive Event where
  /-- A rule wrote an answer. The text is that of its result before conversion
  to the node's type, if there is an answer now. -/
  | recalculated (reference : Reference) (shown : Option String)
  /-- An answer was dropped because its node is hidden. -/
  | cleared (reference : Reference)
  /-- So many rules have fired for a node of a series that changed. -/
  | summary (change : SeriesChange) (reference : Reference) (fired : Nat)
  deriving DecidableEq, Repr

namespace Event

def name : Event → String
  | .recalculated _ _ => "Recalculate"
  | .cleared _ => "Clear"
  | .summary change reference fired =>
      change.word ++ ": " ++ reference.brief ++ ": " ++ toString fired ++
        " triggerables were fired."

def node? : Event → Option Reference
  | .recalculated reference _ => some reference
  | .cleared reference => some reference
  | .summary _ _ _ => none

def shown? : Event → Option String
  | .recalculated _ shown => shown
  | _ => none

def message (event : Event) : String :=
  let node := (event.node?.map Reference.brief).getD ""
  let shown :=
    match event.shown? with
    | none => ""
    | some text => " (" ++ text ++ ")"
  "Processing '" ++ event.name ++ "' for " ++ node ++ shown

def isSummary : Event → Bool
  | .summary _ _ _ => true
  | _ => false

end Event

end ReactiveForm
