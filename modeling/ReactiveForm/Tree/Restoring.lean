import ReactiveForm.Tree.Series

namespace ReactiveForm.Node

/-! Restoring saved answers onto a tree of the same form. -/

/-- Make sure that a member stands where a saved one stood, with a copy of the
template if need be. Without a template nothing is done. -/
def provide (node : Node) (name : String) (multiplicity : Multiplicity) : Node :=
  if (node.child? name multiplicity).isSome then node
  else
    match node.template? name with
    | none => node
    | some template => (node.append (template.copy multiplicity)).renumber name

def takeOver (saved : Facts) (facts : Facts) : Facts :=
  { facts with
    answer := saved.answer.or facts.answer
    attributes :=
      saved.attributes.foldl (fun entries entry => entry.putInto entries)
        facts.attributes }

mutual

def restore : (saved target : Node) → Node
  | ⟨facts, children⟩, target => restoreChildren children (target.withFacts (takeOver facts))

def restoreChildren : (saved : List Node) → (target : Node) → Node
  | [], target => target
  | child :: rest, target =>
      restoreChildren rest
        (if child.isTemplate then target
        else
          -- A child that has no counterpart and no template is passed over.
          (target.provide child.facts.name child.facts.multiplicity).changeChild
            child.facts.name child.facts.multiplicity child.restore)

end

end ReactiveForm.Node
