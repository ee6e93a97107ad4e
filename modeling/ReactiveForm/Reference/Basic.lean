namespace ReactiveForm

/-! References: paths that address the nodes of a document. A path begins at
the root, or climbs some levels from a context first. Every step names a child
and says which member of its series is meant. -/

inductive Multiplicity where
  /-- Every member but the template. Only a reference says so. -/
  | unbound
  /-- The blueprint of the series. -/
  | template
  /-- One member, counted from zero. -/
  | index (position : Nat)
  deriving DecidableEq, Repr

namespace Multiplicity

def isBound : Multiplicity → Bool
  | .unbound => false
  | _ => true

def position? : Multiplicity → Option Nat
  | .index position => some position
  | _ => none

def overlaps : Multiplicity → Multiplicity → Bool
  | .unbound, _ => true
  | _, .unbound => true
  | left, right => left == right

def order : Multiplicity → Multiplicity → Ordering
  | .unbound, .unbound => .eq
  | .unbound, _ => .lt
  | _, .unbound => .gt
  | .template, .template => .eq
  | .template, _ => .lt
  | _, .template => .gt
  | .index left, .index right => compare left right

end Multiplicity

structure Step where
  name : String
  multiplicity : Multiplicity
  deriving DecidableEq, Repr

namespace Step

def unbound (name : String) : Step := ⟨name, .unbound⟩

def overlaps (left right : Step) : Bool :=
  left.name == right.name && left.multiplicity.overlaps right.multiplicity

def order (left right : Step) : Ordering :=
  (compare left.name right.name).then
    (Multiplicity.order left.multiplicity right.multiplicity)

end Step

inductive Origin where
  | absolute
  /-- At the context, or `climb` levels above it. -/
  | relative (climb : Nat)
  deriving DecidableEq, Repr

/-- Absolute paths come before relative ones, and those that climb less come
before those that climb more. -/
def Origin.order : Origin → Origin → Ordering
  | .absolute, .absolute => .eq
  | .absolute, .relative _ => .lt
  | .relative _, .absolute => .gt
  | .relative left, .relative right => compare left right

structure Reference where
  origin : Origin
  steps : List Step
  deriving DecidableEq, Repr

namespace Reference

def absolute (steps : List Step) : Reference := ⟨.absolute, steps⟩

/-- A path from the context, `climb` levels up and then down. -/
def relative (climb : Nat) (steps : List Step) : Reference := ⟨.relative climb, steps⟩

def root (name : String) : Reference := absolute [⟨name, .index 0⟩]

def isAbsolute (reference : Reference) : Bool :=
  reference.origin == .absolute

def isGeneric (reference : Reference) : Bool :=
  reference.steps.any fun step => !step.multiplicity.isBound

def entersTemplate (reference : Reference) : Bool :=
  reference.steps.any fun step => step.multiplicity == .template

def lastName? (reference : Reference) : Option String :=
  reference.steps.getLast?.map (·.name)

def lastMultiplicity? (reference : Reference) : Option Multiplicity :=
  reference.steps.getLast?.map (·.multiplicity)

def child (reference : Reference) (name : String) (multiplicity : Multiplicity) :
    Reference :=
  { reference with steps := reference.steps ++ [⟨name, multiplicity⟩] }

def parent? (reference : Reference) : Option Reference :=
  match reference.origin with
  | .absolute =>
      -- A path from the root has at least one step.
      if reference.steps.length ≤ 1 then none
      else some (absolute reference.steps.dropLast)
  | .relative climb =>
      if reference.steps.isEmpty then some (relative (climb + 1) [])
      else some (relative climb reference.steps.dropLast)

def genericize (reference : Reference) : Reference :=
  { reference with steps := reference.steps.map fun step => .unbound step.name }

def orderSteps : List Step → List Step → Ordering
  | [], [] => .eq
  | [], _ :: _ => .lt
  | _ :: _, [] => .gt
  | left :: lefts, right :: rights =>
      (Step.order left right).then (orderSteps lefts rights)

def order (left right : Reference) : Ordering :=
  (Origin.order left.origin right.origin).then (orderSteps left.steps right.steps)

end Reference

end ReactiveForm
