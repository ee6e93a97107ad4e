import ReactiveForm.Tree.AnswerTree

namespace ReactiveForm.AnswerTree

/-! The nodes that a reference denotes, in document order. An unbound step
matches every member of a series but never its template. -/

structure Place where
  reference : Reference
  node : Node

def Place.below (place : Place) (step : Step) : List Place :=
  match step.multiplicity with
  | .unbound =>
      (place.node.members step.name).map fun child =>
        ⟨place.reference.child step.name child.facts.multiplicity, child⟩
  | bound =>
      (place.node.child? step.name bound).toList.map fun child =>
        ⟨place.reference.child step.name bound, child⟩

def follow (whole : Reference) : List Step → List Place → Except TreeError (List Place)
  | [], places => .ok places
  | step :: rest, places => do
      let next ← places.mapM fun place =>
        if place.node.hasChildNamed step.name then .ok (place.below step)
        -- Where nothing has the name, the last step matches nothing, and any other is an error.
        else if rest.isEmpty then .ok []
        else .error (.unresolvable whole step.name place.reference)
      follow whole rest next.flatten

def expandAbsolute (tree : AnswerTree) (reference : Reference) :
    Except TreeError (List Reference) :=
  match reference.steps with
  | [] => .ok []
  | first :: rest =>
      if first.overlaps ⟨tree.root.facts.name, .index 0⟩ then
        (follow reference rest [⟨tree.rootReference, tree.root⟩]).map
          (·.map (·.reference))
      else .error (.nodeMissing reference)

def expand (tree : AnswerTree) (reference : Reference) (context : Option Reference) :
    Except TreeError (List Reference) :=
  if reference.isAbsolute then tree.expandAbsolute reference
  else
    match context with
    | none => .error (.badReference (.lacksContext reference))
    | some context =>
        match reference.anchor context with
        | .error error => .error (.badReference error)
        | .ok absolute => tree.expandAbsolute absolute

end ReactiveForm.AnswerTree
