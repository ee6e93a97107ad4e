import ReactiveForm.Storage.StoredForm

namespace ReactiveForm

/-! What commands show, line by line. -/

namespace CommandLine

def rightAligned (width number : Nat) : String :=
  let digits := Number.digits number
  String.ofList (List.replicate (width - digits.length) ' ' ++ digits)

example : rightAligned 3 7 = "  7" ∧ rightAligned 3 1234 = "1234" := by decide

end CommandLine

open CommandLine

def CommandLine.underTitle (title : String) (lines : List String) : List String :=
  "" :: (title ++ ":") :: lines

def AnswerTree.answerTexts (tree : AnswerTree) : List (String × String) :=
  ascending (fun left right => compare left.1 right.1)
    (tree.answers.map fun (reference, value) => (reference.text, value.display))

def AnswerTree.answerLines (tree : AnswerTree) : List String :=
  tree.answerTexts.map fun (reference, value) => "  " ++ reference ++ " = " ++ value

def AnswerTree.answerDocument (tree : AnswerTree) : Json :=
  .object (tree.answerTexts.map fun (reference, value) => (reference, .text value))

def Rule.positionLine (rule : Rule) (position number : Nat) : String :=
  let line :=
    "  " ++ rightAligned 3 position ++ ". #" ++ toString number ++ " " ++ rule.title
  if rule.triggers.isEmpty then line
  else line ++ "  <- " ++ ", ".intercalate (rule.triggers.map Reference.text)

def Form.orderLines (form : Form) : List String :=
  let rulebook := form.engine.rulebook
  let dependencies := form.engine.dependencies
  let lines := dependencies.order.zipIdx.filterMap fun (number, place) =>
    (rulebook.rule? number).map fun rule => rule.positionLine (place + 1) number
  [form.title ++ " (" ++ form.id.text ++ ")",
    "  " ++ toString rulebook.size ++ " triggerables, " ++
      toString dependencies.edgeCount ++ " dependencies"] ++
    underTitle "Evaluation order" lines

def Report.countLine (report : Report) : String :=
  toString report.fired.length ++ " evaluations, " ++
    toString report.updates.length ++ " updates, " ++
    toString report.failures.length ++ " failures"

def Failure.line (failure : Failure) : String :=
  "#" ++ toString failure.rule ++ " at " ++ failure.target.text ++ ": " ++ failure.reason

def HiddenAnswers.title : HiddenAnswers → String
  | .retain => "Retain"
  | .clear => "Clear"

def Settings.line (settings : Settings) : String :=
  "non_relevant=" ++ settings.hiddenAnswers.title ++ " publish_summaries=" ++
    (if settings.publishSummaries then "true" else "false")

def Section.line (part : Section) : String :=
  "  " ++ Text.Utf8.decodeLossy part.tag.bytes ++ " " ++
    rightAligned 8 part.body.length ++ " bytes  " ++
    ((Part.ofTag? part.tag).map Part.name).getD "unknown"

def StoredForm.lines (stored : StoredForm) (path : String) (parts : List Section) :
    List String :=
  let rules := stored.rules.zipIdx.map fun (rule, number) =>
    "  #" ++ toString number ++ " " ++ rule.title
  let answers := stored.tree.answerLines
  ["--- " ++ path ++ " ---",
    "  Title:        " ++ stored.title,
    "  Id:           " ++ stored.id.text,
    "  Nodes:        " ++ toString stored.tree.root.size,
    "  Triggerables: " ++ toString stored.rules.length,
    "  Engine:       " ++ stored.settings.line] ++
    underTitle "Sections" (parts.map Section.line) ++
    underTitle "Binds" rules ++
    (if answers.isEmpty then [] else underTitle "Answers" answers)

end ReactiveForm
