import ReactiveForm.Recalculation.Firing

namespace ReactiveForm

/-! A change spreads. Everything that depends on the nodes that changed is
looked at in the order of dependencies; a rule fires near the changed nodes that
it reads, and what it changes counts for the rules after it. -/

structure Spread where
  pass : Pass
  /-- The rules that have fired. None fires twice. -/
  fired : List Nat
  touched : List Touch

/-- The changed nodes that make a rule fire. One that waits for an answer is
moved by nothing else. -/
def anchorsFor (rule : Rule) (touched : List Touch) : List Reference :=
  (touched.filter fun touch =>
    (touch.isAnswer || !rule.waitsForAnswer) && rule.isTriggeredBy touch.reference).map
      Touch.reference

namespace Engine

def turn (engine : Engine) (origin : Reference) (spread : Spread) (number : Nat) :
    Spread :=
  if spread.fired.contains number then spread
  else
    match engine.rulebook.rule? number with
    | none => spread
    | some rule =>
        let anchors := anchorsFor rule spread.touched
        if anchors.isEmpty && rule.waitsForAnswer then spread
        else
          -- If nothing that it reads has changed after all, a rule fires where the change began.
          let (pass, touched) :=
            engine.fire number rule (if anchors.isEmpty then [origin] else anchors)
              spread.pass
          ⟨pass, spread.fired ++ [number], spread.touched ++ touched⟩

def directlyTriggered (engine : Engine) (touched : List Touch) : List Nat :=
  ascending compare
    (touched.flatMap fun touch => engine.rulebook.triggeredBy touch.reference)

def propagate (engine : Engine) (changes : List Touch) (fired : List Nat)
    (pass : Pass) : Pass × List Nat :=
  match changes with
  | [] => (pass, fired)
  | first :: _ =>
      let affected := engine.dependencies.affectedBy (engine.directlyTriggered changes)
      let spread := affected.foldl (engine.turn first.reference) ⟨pass, fired, changes⟩
      (spread.pass, spread.fired)

def summarize (engine : Engine) (change : SeriesChange) (reference : Reference)
    (fired : Nat) (pass : Pass) : Pass :=
  if engine.settings.publishSummaries then pass.tell (.summary change reference fired)
  else pass

def childReferences (tree : AnswerTree) (reference : Reference) : List Reference :=
  match tree.find? reference with
  | none => []
  | some node =>
      (node.children.filter (!·.isTemplate)).map fun child =>
        reference.child child.facts.name child.facts.multiplicity

def repairNode (engine : Engine) (change : SeriesChange)
    (progress : Pass × List Nat) (reference : Reference) : Pass × List Nat :=
  let (pass, fired) := engine.propagate [.state reference] progress.2 progress.1
  (engine.summarize change reference fired.length pass, fired)

/-- A member of a series got another number: first what reads the member is
brought up to date, then what reads each of its children. -/
def repairMember (engine : Engine) (change : SeriesChange) (pass : Pass)
    (member : Reference) : Pass :=
  let progress := engine.repairNode change (pass, []) member
  ((childReferences progress.1.tree member).foldl (engine.repairNode change)
    progress).1

def repairMembers (engine : Engine) (change : SeriesChange) (parent : Reference)
    (name : String) (first beyond : Nat) (pass : Pass) : Pass :=
  (List.range' first (beyond - first)).foldl
    (fun pass position =>
      engine.repairMember change pass (parent.child name (.index position)))
    pass

end Engine

end ReactiveForm
