import ReactiveForm.Reference.Basic
import ReactiveForm.Value.Basic

namespace ReactiveForm

/-! The nodes of a form's answers. Nodes of one name under one parent form a
series: members counted from zero, and beside them, where the series may grow,
a template that new members are copied from. -/

structure Attribute where
  space : Option String
  name : String
  value : String
  deriving DecidableEq, Repr

inductive Validity where
  | unchecked
  | valid
  | invalid (message : Option String)
  /-- The constraint itself could not be evaluated. -/
  | failed (message : String)
  deriving DecidableEq, Repr

structure Facts where
  name : String
  multiplicity : Multiplicity
  attributes : List Attribute
  type : ValueType
  answer : Option Value
  relevant : Bool
  /-- All nodes above it are relevant. -/
  underRelevant : Bool
  required : Bool
  validity : Validity
  deriving DecidableEq

structure Node where
  facts : Facts
  children : List Node

def Facts.blank (name : String) (multiplicity : Multiplicity) : Facts :=
  { name, multiplicity, attributes := [], type := .unspecified, answer := none,
    relevant := true, underRelevant := true, required := false,
    validity := .unchecked }

def Facts.same (left right : Facts) : Bool :=
  sameAnswer left.answer right.answer &&
    decide ({ left with answer := none } = { right with answer := none })

def Facts.attribute? (facts : Facts) (space : Option String) (name : String) :
    Option String :=
  (facts.attributes.find? fun entry =>
    entry.space == space && entry.name == name).map (·.value)

def Attribute.putInto (entry : Attribute) : List Attribute → List Attribute
  | [] => [entry]
  | first :: rest =>
      if first.space = entry.space ∧ first.name = entry.name then
        { first with value := entry.value } :: rest
      else first :: entry.putInto rest

namespace Node

def leaf (facts : Facts) : Node := ⟨facts, []⟩

abbrev name (node : Node) : String := node.facts.name

abbrev multiplicity (node : Node) : Multiplicity := node.facts.multiplicity

def isTemplate (node : Node) : Bool :=
  node.facts.multiplicity == .template

def isRelevant (node : Node) : Bool :=
  node.facts.relevant && node.facts.underRelevant

def isAt (name : String) (multiplicity : Multiplicity) (node : Node) : Bool :=
  node.facts.name == name && node.facts.multiplicity == multiplicity

def isMember (name : String) (node : Node) : Bool :=
  node.facts.name == name && !node.isTemplate

def withFacts (node : Node) (change : Facts → Facts) : Node :=
  { node with facts := change node.facts }

def setAttribute (node : Node) (entry : Attribute) : Node :=
  node.withFacts fun facts =>
    { facts with attributes := entry.putInto facts.attributes }

mutual

def same : Node → Node → Bool
  | ⟨leftFacts, leftChildren⟩, ⟨rightFacts, rightChildren⟩ =>
      leftFacts.same rightFacts && allSame leftChildren rightChildren

def allSame : List Node → List Node → Bool
  | [], [] => true
  | left :: lefts, right :: rights => left.same right && allSame lefts rights
  | _, _ => false

end

/-! Relevance flows down. -/

mutual

/-- Tell a node whether all above it are relevant, and through it everything
below. -/
def inherit (above : Bool) : Node → Node
  | ⟨facts, children⟩ =>
      ⟨{ facts with underRelevant := above },
        inheritAll (facts.relevant && above) children⟩

def inheritAll (above : Bool) : List Node → List Node
  | [] => []
  | node :: rest => node.inherit above :: inheritAll above rest

end

def setRelevant (node : Node) (relevant : Bool) : Node :=
  (node.withFacts ({ · with relevant })).inherit node.facts.underRelevant

/-! Copies of a template. -/

def Facts.reset (facts : Facts) : Facts :=
  { facts with
    relevant := true
    underRelevant := true
    required := false
    validity := .unchecked }

mutual

def reset : Node → Node
  | ⟨facts, children⟩ => ⟨Facts.reset facts, resetAll children⟩

def resetAll : List Node → List Node
  | [] => []
  | node :: rest => node.reset :: resetAll rest

end

/-- A fresh copy for another place in the series. Templates below are kept. -/
def copy (node : Node) (multiplicity : Multiplicity) : Node :=
  node.reset.withFacts ({ · with multiplicity })

/-! Whole subtrees. -/

mutual

def size : Node → Nat
  | ⟨_, children⟩ => 1 + sizeOfAll children

def sizeOfAll : List Node → Nat
  | [] => 0
  | node :: rest => node.size + sizeOfAll rest

end

mutual

def references (place : Reference) : Node → List Reference
  | ⟨_, children⟩ => place :: referencesUnder place children

def referencesUnder (place : Reference) : List Node → List Reference
  | [] => []
  | node :: rest =>
      if node.isTemplate then referencesUnder place rest
      else
        node.references (place.child node.facts.name node.facts.multiplicity) ++
          referencesUnder place rest

end

mutual

/-- Drop the answers of a node and of everything below it, except in
templates. -/
def clearAnswers : Node → Node
  | ⟨facts, children⟩ => ⟨{ facts with answer := none }, clearAllAnswers children⟩

def clearAllAnswers : List Node → List Node
  | [] => []
  | node :: rest =>
      (if node.isTemplate then node else node.clearAnswers) :: clearAllAnswers rest

end

mutual

def answerCount : Node → Nat
  | ⟨facts, children⟩ => (if facts.answer.isSome then 1 else 0) + answerCountOfAll children

def answerCountOfAll : List Node → Nat
  | [] => 0
  | node :: rest =>
      (if node.isTemplate then 0 else node.answerCount) + answerCountOfAll rest

end

end Node

end ReactiveForm
