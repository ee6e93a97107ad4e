import ReactiveForm.Tree.Node

namespace ReactiveForm

/-! Series of children. All operations work on the list of a node's children,
in which the members of several series may alternate. -/

def changeFirst {α : Type} (holds : α → Bool) (change : α → α) : List α → List α
  | [] => []
  | head :: tail =>
      if holds head then change head :: tail else head :: changeFirst holds change tail

def takeFirst? {α : Type} (holds : α → Bool) : List α → Option (α × List α)
  | [] => none
  | head :: tail =>
      if holds head then some (head, tail)
      else (takeFirst? holds tail).map fun (taken, rest) => (taken, head :: rest)

def insertAfterLast? {α : Type} (holds : α → Bool) (element : α) :
    List α → Option (List α)
  | [] => none
  | head :: tail =>
      match insertAfterLast? holds element tail with
      | some tail => some (head :: tail)
      | none => if holds head then some (head :: element :: tail) else none

def insertBeforeFirst {α : Type} (holds : α → Bool) (element : α) : List α → List α
  | [] => [element]
  | head :: tail =>
      if holds head then element :: head :: tail
      else head :: insertBeforeFirst holds element tail

namespace Node

def child? (node : Node) (name : String) (multiplicity : Multiplicity) : Option Node :=
  node.children.find? (isAt name multiplicity)

def members (node : Node) (name : String) : List Node :=
  node.children.filter (isMember name)

def memberCount (node : Node) (name : String) : Nat :=
  (node.members name).length

def template? (node : Node) (name : String) : Option Node :=
  node.child? name .template

def hasChildNamed (node : Node) (name : String) : Bool :=
  node.children.any (·.facts.name == name)

def changeChild (node : Node) (name : String) (multiplicity : Multiplicity)
    (change : Node → Node) : Node :=
  { node with children := changeFirst (isAt name multiplicity) change node.children }

def placed (node : Node) (multiplicity : Multiplicity) : Node :=
  node.withFacts ({ · with multiplicity })

/-- Put a child at the end. A member takes the next number of its series. -/
def append (node child : Node) : Node :=
  let child :=
    if child.isTemplate then child
    else child.placed (.index (node.memberCount child.facts.name))
  { node with children := node.children ++ [child.inherit node.isRelevant] }

def shift (name : String) (position : Nat) (sibling : Node) : Node :=
  if sibling.facts.name = name then
    match sibling.facts.multiplicity with
    | .index number =>
        if position ≤ number then sibling.placed (.index (number + 1)) else sibling
    | _ => sibling
  else sibling

def precedes (name : String) (position : Nat) (sibling : Node) : Bool :=
  sibling.facts.name == name &&
    match sibling.facts.multiplicity with
    | .index number => number < position
    | _ => true

def insertMember (node child : Node) (position : Nat) : Node :=
  let name := child.facts.name
  let position := min position (node.memberCount name)
  let member := (child.placed (.index position)).inherit node.isRelevant
  let siblings := node.children.map (shift name position)
  -- It stands behind the siblings that precede it, or else before the first of the series.
  let children :=
    match insertAfterLast? (precedes name position) member siblings with
    | some children => children
    | none => insertBeforeFirst (·.facts.name == name) member siblings
  { node with children }

def renumberFrom (name : String) (next : Nat) : List Node → List Node
  | [] => []
  | node :: rest =>
      if node.isMember name then
        node.placed (.index next) :: renumberFrom name (next + 1) rest
      else node :: renumberFrom name next rest

def renumber (node : Node) (name : String) : Node :=
  { node with children := renumberFrom name 0 node.children }

def removeMember? (node : Node) (name : String) (position : Nat) :
    Option (Node × Node) :=
  (takeFirst? (isAt name (.index position)) node.children).map
    fun (removed, children) => (removed, { node with children }.renumber name)

/-! Nodes further down. -/

def descendant? : List Step → Node → Option Node
  | [], node => some node
  | step :: rest, node =>
      (node.child? step.name step.multiplicity).bind (descendant? rest)

def changeDescendant (change : Node → Node) : List Step → Node → Node
  | [], node => change node
  | step :: rest, node =>
      node.changeChild step.name step.multiplicity (changeDescendant change rest)

end Node

end ReactiveForm
