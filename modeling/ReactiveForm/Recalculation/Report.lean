import ReactiveForm.Tree.Node

namespace ReactiveForm

/-! What a recalculation did, step by step. -/

inductive Change where
  | answer (previous current : Option Value)
  | relevance (relevant : Bool)
  | required (required : Bool)
  | validity (validity : Validity)
  /-- The answer was dropped because the node is hidden. -/
  | cleared

/-- A change, where it happened, and the rule that made it. An edit from
outside has no rule. -/
structure Update where
  rule : Option Nat
  target : Reference
  change : Change

structure Failure where
  rule : Nat
  target : Reference
  reason : String
  deriving DecidableEq, Repr

structure Report where
  updates : List Update
  fired : List Nat
  failures : List Failure

namespace Report

def empty : Report := ⟨[], [], []⟩

def isEmpty (report : Report) : Bool :=
  report.updates.isEmpty && report.fired.isEmpty && report.failures.isEmpty

def answerUpdates (report : Report) : List Update :=
  report.updates.filter fun update =>
    match update.change with
    | .answer _ _ => true
    | _ => false

def append (first second : Report) : Report :=
  ⟨first.updates ++ second.updates, first.fired ++ second.fired,
    first.failures ++ second.failures⟩

instance : Append Report := ⟨append⟩

end Report

end ReactiveForm
