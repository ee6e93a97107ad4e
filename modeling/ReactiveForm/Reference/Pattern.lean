import ReactiveForm.Reference.Basic

namespace ReactiveForm.Reference

/-! References as patterns: which nodes two of them can have in common. -/

def stepsOverlap : List Step → List Step → Bool
  | left :: lefts, right :: rights => left.overlaps right && stepsOverlap lefts rights
  | _, _ => true

def intersects (left right : Reference) : Bool :=
  left.origin == right.origin && left.steps.length == right.steps.length &&
    stepsOverlap left.steps right.steps

/-- Can `below` denote the node that this one denotes, or one inside it? -/
def covers (above below : Reference) : Bool :=
  above.origin == below.origin && above.steps.length ≤ below.steps.length &&
    stepsOverlap above.steps below.steps

end ReactiveForm.Reference
