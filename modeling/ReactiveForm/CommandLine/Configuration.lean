import ReactiveForm.Recalculation.Settings
import ReactiveForm.Toml.Reader

namespace ReactiveForm

/-! Settings in configuration files. The table `engine` holds them; whatever else
is in the file is passed over, and so is whatever else is in the table. -/

def Toml.isEmpty : Toml → Bool
  | .array items => items.isEmpty
  | .table _ entries => entries.isEmpty
  | .tables members => members.isEmpty
  | _ => false

def HiddenAnswers.ofToml? : Toml → Option HiddenAnswers
  | .text name => ofName? name
  | .table _ [(name, content)] => if content.isEmpty then ofName? name else none
  | _ => none

def Toml.boolean? : Toml → Option Bool
  | .boolean truth => some truth
  | _ => none

namespace Settings

def ofParts? (hiddenAnswers publishSummaries : Option Toml) : Option Settings := do
  let hiddenAnswers ←
    match hiddenAnswers with
    | none => some standard.hiddenAnswers
    | some value => HiddenAnswers.ofToml? value
  let publishSummaries ←
    match publishSummaries with
    | none => some standard.publishSummaries
    | some value => value.boolean?
  return ⟨hiddenAnswers, publishSummaries⟩

/-- Settings from a value: a table, or a list in which they come in order. A
moment says nothing about them. -/
def ofToml? : Toml → Option Settings
  | .table _ entries =>
      ofParts? (entries.lookup "non_relevant") (entries.lookup "publish_summaries")
  | .moment _ => some standard
  | value => do
      let items ← value.items?
      ofParts? items[0]? items[1]?

def ofConfiguration? (document : String) : Option Settings := do
  let entries ← Toml.read? document
  match entries.lookup "engine" with
  | none => some standard
  | some engine => ofToml? engine

example : (ofConfiguration? "[engine]\nnon_relevant = 'clear' # for good\n") =
    some ⟨.clear, true⟩ := by
  decide +kernel

end Settings

end ReactiveForm
