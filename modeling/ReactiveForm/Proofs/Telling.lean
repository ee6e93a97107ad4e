import ReactiveForm.Proofs.Keeping

/-! Observers are told of what a pass does while it does it. What they are told,
summaries apart, can be read off the report afterwards: event by event, it is the
updates that wrote or dropped an answer, but for the edit that came from outside. -/

namespace ReactiveForm

/-- Of which updates observers are told: of answers that rules wrote, and of answers
that were dropped. -/
def Update.isTold (update : Update) : Bool :=
  match update.change with
  | .answer _ _ => update.rule.isSome
  | .cleared => true
  | _ => false

/-- What an event tells of an update: its node, and whether there is an answer now. -/
inductive Event.Tells : Event → Update → Prop where
  | recalculated {number : Nat} {target : Reference} {previous current : Option Value}
      {shown : Option String} (shows : shown.isSome = current.isSome) :
      Tells (.recalculated target shown) ⟨some number, target, .answer previous current⟩
  | cleared {number : Nat} {target : Reference} :
      Tells (.cleared target) ⟨some number, target, .cleared⟩

theorem Event.Tells.isTold {event : Event} {update : Update} (tells : event.Tells update) :
    event.isSummary = false ∧ update.isTold = true := by
  cases tells <;> exact ⟨rfl, rfl⟩

/-- The events but the summaries tell of the updates that are to be told, one of each
and in the same order. -/
def Pass.IsTold (pass : Pass) : Prop :=
  List.Forall₂ Event.Tells (pass.events.filter (!·.isSummary))
    (pass.report.updates.filter Update.isTold)

namespace Pass.IsTold

variable {pass : Pass}

theorem start (tree : AnswerTree) : (Pass.start tree).IsTold := .nil

theorem noteUpdate (told : pass.IsTold) {rule : Option Nat} {target : Reference}
    {change : Change} (silent : Update.isTold ⟨rule, target, change⟩ = false) :
    (pass.noteUpdate rule target change).IsTold := by
  have same : (pass.noteUpdate rule target change).report.updates.filter Update.isTold =
      pass.report.updates.filter Update.isTold := by
    simp [Pass.noteUpdate, silent]
  rw [IsTold, same]
  exact told

theorem tell_noteUpdate (told : pass.IsTold) {event : Event} {number : Nat} {target : Reference}
    {change : Change} (tells : event.Tells ⟨some number, target, change⟩) :
    ((pass.tell event).noteUpdate (some number) target change).IsTold := by
  rcases tells.isTold with ⟨noSummary, isTold⟩
  have events : ((pass.tell event).noteUpdate (some number) target change).events.filter
      (!·.isSummary) = pass.events.filter (!·.isSummary) ++ [event] := by
    simp [Pass.tell, Pass.noteUpdate, noSummary]
  have updates : ((pass.tell event).noteUpdate (some number) target change).report.updates.filter
      Update.isTold = pass.report.updates.filter Update.isTold ++ [⟨some number, target, change⟩] := by
    simp [Pass.tell, Pass.noteUpdate, isTold]
  rw [IsTold, events, updates]
  exact List.rel_append told (.cons tells .nil)

theorem foldl_noteCleared (told : pass.IsTold) (number : Nat) (cleared : List Reference) :
    (cleared.foldl (noteCleared number) pass).IsTold := by
  induction cleared generalizing pass with
  | nil => exact told
  | cons reference cleared induction => exact induction (told.tell_noteUpdate .cleared)

theorem tell_summary (told : pass.IsTold) (change : SeriesChange) (reference : Reference)
    (fired : Nat) : (pass.tell (.summary change reference fired)).IsTold := by
  have events : (pass.tell (.summary change reference fired)).events.filter (!·.isSummary) =
      pass.events.filter (!·.isSummary) := by
    simp [Pass.tell, Event.isSummary]
  rw [IsTold, events]
  exact told

theorem deed {settings : Settings} {number : Nat} {target : Reference} {node : Node}
    {effect : Effect} {outcome : Except EvaluationError Value} {after : Pass} {more : List Touch}
    (told : pass.IsTold)
    (deed : Deed settings number target node pass effect outcome after more) :
    after.IsTold := by
  -- What happens to the tree does not matter here.
  have elsewhere (tree : AnswerTree) : Pass.IsTold { pass with tree } := told
  cases deed with
  | idles => exact told
  | repeats => exact elsewhere _
  | writes => exact (elsewhere _).tell_noteUpdate (.recalculated Option.isSome_map)
  | hides => exact ((elsewhere _).foldl_noteCleared number _).noteUpdate rfl
  | relates | requires | judges => exact (elsewhere _).noteUpdate rfl

end Pass.IsTold

theorem Engine.sustains_isTold (engine : Engine) :
    engine.Sustains (fun _ => True) Pass.IsTold (fun _ => True) fun _ _ => True := by
  refine ⟨fun _ told => told, fun _ _ _ told => told, fun _ _ _ _ _ _ _ _ => trivial,
    fun told _ _ _ applied => ?_⟩
  rcases apply_deed applied with ⟨node, -, deed⟩
  exact ⟨told.deed deed, fun _ _ => trivial⟩

/-- What observers are told by an operation on a form agrees with what it reports, in
whatever state the form is. That goes for all requests, and for the repair after a
member has left its series in another way. -/
theorem Form.events_tell_updates {form : Form} {outcome : Outcome}
    (done : (∃ request, form.perform request = .ok outcome) ∨
      ∃ reference parent removed, form.afterRemoval reference parent removed = .ok outcome) :
    List.Forall₂ Event.Tells (outcome.events.filter (!·.isSummary))
      (outcome.report.updates.filter Update.isTold) := by
  have summarized : ∀ {pass : Pass} (change : SeriesChange) (reference : Reference) (fired : Nat),
      pass.IsTold → (pass.tell (.summary change reference fired)).IsTold :=
    fun change reference fired told => told.tell_summary change reference fired
  rcases done with ⟨request, done⟩ | ⟨reference, parent, removed, done⟩
  · rcases perform_sustains form.engine.sustains_isTold summarized done with ⟨base, -, told⟩
    -- The edit itself comes from outside.
    exact told (.start base) fun _ _ _ _ _ => (Pass.IsTold.start _).noteUpdate rfl
  · rw [Form.afterRemoval] at done
    split at done
    · cases done
    next pass removing =>
      cases done
      exact form.engine.sustains_isTold.afterRemoval summarized (fun _ _ _ _ => trivial)
        (.start form.tree) trivial (fun _ _ => trivial) removing

/-- A price that is set to zero hides its share, whose answer is dropped. That is the
last thing told, after three answers that rules wrote. -/
theorem order_events_tell_updates : ∃ form outcome,
    Order.definition.form .standard ⟨.clear, true⟩ .startOf2020 none = .ok form ∧
    form.initial.form.perform (.setAnswer (Order.ofItem 0 "price") (some (.int 0))) =
      .ok outcome ∧
    outcome.events.length = 4 ∧
    outcome.events.getLast? = some (.cleared (Order.ofItem 0 "share")) ∧
    outcome.report.updates.length = 6 ∧
    List.Forall₂ Event.Tells (outcome.events.filter (!·.isSummary))
      (outcome.report.updates.filter Update.isTold) := by
  have ready : (Order.definition.form .standard ⟨.clear, true⟩ .startOf2020 none).toOption.any
      (fun form =>
        (form.initial.form.perform
          (.setAnswer (Order.ofItem 0 "price") (some (.int 0)))).toOption.any fun outcome =>
            decide (outcome.events.length = 4 ∧
              outcome.events.getLast? = some (.cleared (Order.ofItem 0 "share")) ∧
              outcome.report.updates.length = 6)) = true := by
    decide +kernel
  rcases exists_ok_of_any ready with ⟨form, built, ready⟩
  rcases exists_ok_of_any ready with ⟨outcome, done, ready⟩
  rcases decide_eq_true_eq.mp ready with ⟨many, last, updates⟩
  exact ⟨form, outcome, built, done, many, last, updates,
    Form.events_tell_updates (.inl ⟨_, done⟩)⟩

end ReactiveForm
