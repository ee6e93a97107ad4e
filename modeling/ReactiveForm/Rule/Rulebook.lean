import ReactiveForm.Rule.Basic

namespace ReactiveForm

/-! The rules of a form. A rule is known by its number in the order of entry.
Two indexes find rules by what they act on and by what they read. -/

abbrev Register := List (Reference × List Nat)

namespace Register

def file (reference : Reference) (number : Nat) : Register → Register
  | [] => [(reference, [number])]
  | (other, numbers) :: rest =>
      if other = reference then (other, numbers ++ [number]) :: rest
      else (other, numbers) :: file reference number rest

def filed (register : Register) (reference : Reference) : List Nat :=
  ((register.find? (·.1 == reference)).map (·.2)).getD []

/-- The numbers filed under any reference that intersects `reference`, in
ascending order and each once. -/
def intersecting (register : Register) (reference : Reference) : List Nat :=
  ascending compare
    ((register.filter (·.1.intersects reference)).flatMap (·.2))

end Register

structure Rulebook where
  rules : List Rule
  byTarget : Register
  byTrigger : Register

namespace Rulebook

def empty : Rulebook := ⟨[], [], []⟩

def size (book : Rulebook) : Nat := book.rules.length

def rule? (book : Rulebook) (number : Nat) : Option Rule := book.rules[number]?

def numbers (book : Rulebook) : List Nat := List.range book.size

/-- Enter a rule and say its number. A rule that is entered again keeps the
number it has. -/
def enter (book : Rulebook) (rule : Rule) : Rulebook × Nat :=
  match book.rules.findIdx? (·.same rule) with
  | some number => (book, number)
  | none =>
      let number := book.size
      ({ rules := book.rules ++ [rule]
         byTarget := book.byTarget.file rule.target number
         byTrigger :=
          rule.triggers.foldl (fun register trigger => register.file trigger number)
            book.byTrigger },
        number)

def ofRules (rules : List Rule) : Rulebook :=
  rules.foldl (fun book rule => (book.enter rule).1) empty

def targeting (book : Rulebook) (reference : Reference) : List Nat :=
  book.byTarget.filed reference.genericize

def triggeredBy (book : Rulebook) (reference : Reference) : List Nat :=
  book.byTrigger.intersecting reference

end Rulebook

end ReactiveForm
