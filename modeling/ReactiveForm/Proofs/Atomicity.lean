import ReactiveForm.Proofs.Blueprints

/-! Requests done in place. A form is then a state that is written step by step, with
observers who are told of things at once, and a step that fails takes nothing back. Yet a
request that fails has changed nothing: whatever can fail comes before the first write, and
what is still checked after a member has been taken out holds by then. -/

namespace ReactiveForm

namespace Form

def attempt (form : Form) : Request → Except FormError (Outcome × Option Reference)
  | .initial => .ok (form.initial, none)
  | .setAnswer reference value => (form.setAnswer reference value).map (·, none)
  | .insertMember parent name position =>
      (form.insertMember parent name position).map fun (outcome, inserted) =>
        (outcome, some inserted)
  | .removeMember reference => (form.removeMember reference).map (·, none)

theorem perform_eq_attempt (form : Form) (request : Request) :
    form.perform request = (form.attempt request).map (·.1) := by
  cases request with
  | initial => rfl
  | setAnswer reference value =>
      rw [perform, attempt]
      cases form.setAnswer reference value <;> rfl
  | insertMember parent name position =>
      rw [perform, attempt]
      cases form.insertMember parent name position <;> rfl
  | removeMember reference =>
      rw [perform, attempt]
      cases form.removeMember reference <;> rfl

end Form

/-! Work in place. -/

structure Live where
  form : Form
  told : List Event

/-- Work on a form in place. It may fail at any time, and what has been done by then
stays done. -/
abbrev Live.Work := ExceptT FormError (StateM Live)

namespace Live

def tree : Work AnswerTree := return (← get).form.tree

def writeTree (tree : AnswerTree) : Work Unit :=
  modify fun live => { live with form := { live.form with tree } }

def recalculate (work : Engine → Pass → Pass) : Work Report := do
  let live ← get
  let pass := work live.form.engine (.start live.form.tree)
  set ({ form := { live.form with tree := pass.tree }, told := live.told ++ pass.events } : Live)
  return pass.report

def refresh : Work Unit := modify fun live => { live with form := live.form.refreshed }

def initial : Work Report := do
  let report ← recalculate fun engine pass =>
    engine.dependencies.order.foldl engine.fireInitially pass
  refresh
  return report

def setAnswer (reference : Reference) (value : Option Value) : Work Report := do
  if reference.entersTemplate then throw (.edit (.insideTemplate reference))
  else
    match (← tree).find? reference with
    | none => throw (.edit (.nodeMissing reference))
    | some node =>
        match Engine.editedAnswer value node.facts.type with
        | .error error => throw (.edit (.value error))
        | .ok current =>
            if sameAnswer node.facts.answer current then return .empty
            else
              writeTree ((← tree).changeFacts reference ({ · with answer := current }))
              recalculate fun engine pass =>
                (engine.propagate [.answer reference] []
                  (pass.noteUpdate none reference (.answer node.facts.answer current))).1

def insertMember (parent : Reference) (name : String) (position : Nat) :
    Work (Reference × Report) := do
  if parent.entersTemplate then throw (.edit (.insideTemplate parent))
  else
    match (← tree).insert parent name position with
    | .error error => throw (.edit (.tree error))
    | .ok (grown, inserted) =>
        writeTree grown
        let report ← recalculate fun engine pass =>
          let (pass, fired) :=
            engine.dependencies.order.foldl (engine.fireForMember inserted) (pass, [])
          let pass := engine.summarize .created inserted fired.length pass
          let index := (inserted.lastMultiplicity?.bind Multiplicity.position?).getD 0
          let count := ((pass.tree.find? parent).map (·.memberCount name)).getD 0
          let pass := engine.repairMembers .shifted parent name (index + 1) count pass
          (engine.propagate ((pass.tree.referencesFrom inserted).map .state) [] pass).1
        refresh
        return (inserted, report)

def removeMember (reference : Reference) : Work Report := do
  match reference.parent? with
  | none => throw (.tree (.notMember reference))
  | some parent =>
      match (← tree).remove reference with
      | .error error => throw (.tree error)
      | .ok (shrunk, removed) =>
          writeTree shrunk
          match removed.facts.multiplicity with
          | .index position =>
              match (← tree).find? parent with
              | none => throw (.edit (.nodeMissing parent))
              | some node =>
                  let name := removed.facts.name
                  let report ← recalculate fun engine pass =>
                    let pass := engine.repairMembers .deleted parent name position
                      (node.memberCount name) pass
                    (engine.propagate ((removed.references reference).map .state) [] pass).1
                  refresh
                  return report
          | multiplicity =>
              throw (.edit (.notMember (parent.child removed.facts.name multiplicity)))

def perform : Request → Work (Report × Option Reference)
  | .initial => return (← initial, none)
  | .setAnswer reference value => return (← setAnswer reference value, none)
  | .insertMember parent name position => do
      let (inserted, report) ← insertMember parent name position
      return (report, some inserted)
  | .removeMember reference => return (← removeMember reference, none)

/-! What the work comes to. -/

section Run

variable {α β : Type} (live : Live)

theorem run_bind (work : Work α) (next : α → Work β) : (work >>= next).run live =
    match work.run live with
    | (.ok value, later) => (next value).run later
    | (.error error, later) => (.error error, later) := by
  change ExceptT.bindCont next (work.run live).1 (work.run live).2 = _
  rcases work.run live with ⟨result, later⟩
  cases result <;> rfl

theorem run_pure (value : α) : (pure value : Work α).run live = (.ok value, live) := rfl

theorem run_tree : tree.run live = (.ok live.form.tree, live) := rfl

theorem run_writeTree (tree : AnswerTree) :
    (writeTree tree).run live = (.ok (), { live with form := { live.form with tree } }) := rfl

end Run

def settle (live : Live) :
    Except FormError (Outcome × Option Reference) →
    Except FormError (Report × Option Reference) × Live
  | .ok (outcome, inserted) =>
      (.ok (outcome.report, inserted), ⟨outcome.form, live.told ++ outcome.events⟩)
  | .error error => (.error error, live)

variable (live : Live)

theorem run_initial : (perform .initial).run live = live.settle (live.form.attempt .initial) := rfl

theorem run_setAnswer (reference : Reference) (value : Option Value) :
    (perform (.setAnswer reference value)).run live =
      live.settle (live.form.attempt (.setAnswer reference value)) := by
  rw [perform, setAnswer, Form.attempt, Form.setAnswer, Engine.setAnswer]
  cases reference.entersTemplate with
  | true => rfl
  | false =>
      simp only [Bool.false_eq_true, if_false, run_bind, run_tree]
      cases live.form.tree.find? reference with
      | none => rfl
      | some node =>
          dsimp only
          cases Engine.editedAnswer value node.facts.type with
          | error error => rfl
          | ok current =>
              dsimp only
              cases sameAnswer node.facts.answer current with
              | true => simp [settle, run_pure, Form.after, Except.map, Pass.start]
              | false => rfl

theorem run_insertMember (parent : Reference) (name : String) (position : Nat) :
    (perform (.insertMember parent name position)).run live =
      live.settle (live.form.attempt (.insertMember parent name position)) := by
  rw [perform, insertMember, Form.attempt, Form.insertMember, Engine.insertMember]
  cases parent.entersTemplate with
  | true => rfl
  | false =>
      simp only [Bool.false_eq_true, if_false, run_bind, run_tree]
      cases live.form.tree.insert parent name position with
      | error error => rfl
      | ok grown => rfl

/-- A member that has been taken out had a number, and its parent is still there. -/
theorem run_removeMember (reference : Reference) :
    (perform (.removeMember reference)).run live =
      live.settle (live.form.attempt (.removeMember reference)) := by
  rw [perform, removeMember, Form.attempt, Form.removeMember]
  cases isParent : reference.parent? with
  | none => rfl
  | some parent =>
      simp only [run_bind, run_tree]
      cases taken : live.form.tree.remove reference with
      | error error => rfl
      | ok result =>
          rcases result with ⟨shrunk, removed⟩
          rcases AnswerTree.remove_changesSeries taken with
            ⟨other, position, name, node, changed, again, index, -, changes⟩
          cases isParent.symm.trans again
          simp only [run_bind, run_writeTree, index, run_tree, changes.foundAfter, Form.afterRemoval,
            Engine.afterRemoval]
          rfl

/-- Work in place comes to the same as an attempt on the form as it was. Where that fails,
all is left as it was: the answers, what the rules act on, and the rest of the form, and
observers have been told of nothing. -/
theorem run_perform (request : Request) : (perform request).run live =
    match live.form.attempt request with
    | .ok (outcome, inserted) =>
        (.ok (outcome.report, inserted), ⟨outcome.form, live.told ++ outcome.events⟩)
    | .error error => (.error error, live) := by
  cases request with
  | initial => exact run_initial live
  | setAnswer reference value => exact run_setAnswer live reference value
  | insertMember parent name position => exact run_insertMember live parent name position
  | removeMember reference => exact run_removeMember live reference

end Live

end ReactiveForm
