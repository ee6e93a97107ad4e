import ReactiveForm.Proofs.Aggregates
import ReactiveForm.Proofs.Atomicity
import ReactiveForm.Proofs.Keeping

/-! The nodes that rules act on, as a form keeps them. They are looked up anew when the
form is filled in and when a series changes. No other operation looks them up: it would
find the same, as it leaves the shape of the tree. -/

namespace ReactiveForm

theorem Engine.currentTargets_congr (engine : Engine) {left right : AnswerTree}
    (shape : left.SameShape right) : engine.currentTargets left = engine.currentTargets right := by
  rw [currentTargets, currentTargets]
  refine List.map_congr_left fun rule _ => ?_
  rw [shape.expand]

namespace Form

def IsCurrent (form : Form) : Prop := form.targets = form.engine.currentTargets form.tree

variable {form : Form} {request : Request} {outcome : Outcome}

theorem reshaped_isCurrent (form : Form) (pass : Pass) : (form.reshaped pass).form.IsCurrent := rfl

theorem IsCurrent.after (isCurrent : form.IsCurrent) {pass : Pass}
    (shape : pass.tree.SameShape form.tree) : (form.after pass).form.IsCurrent :=
  isCurrent.trans (form.engine.currentTargets_congr shape.symm)

theorem IsCurrent.perform (isCurrent : form.IsCurrent)
    (done : form.perform request = .ok outcome) : outcome.form.IsCurrent := by
  cases request with
  | initial =>
      cases done
      exact form.reshaped_isCurrent _
  | setAnswer reference value =>
      rcases setAnswer_ok done with ⟨pass, set, rfl⟩
      exact isCurrent.after
        ((form.engine.keeps_sameShape form.tree).setAnswer (.refl _) trivial set)
  | insertMember parent name position =>
      rcases map_eq_ok.mp done with ⟨⟨made, inserted⟩, insert, rfl⟩
      rcases insertMember_ok insert with ⟨pass, -, rfl⟩
      exact form.reshaped_isCurrent pass
  | removeMember reference =>
      rcases removeMember_ok done with ⟨parent, shrunk, removed, pass, -, -, -, rfl⟩
      exact reshaped_isCurrent _ pass

theorem IsCurrent.targets_eq (isCurrent : form.IsCurrent) {number : Nat} {rule : Rule}
    (entered : form.engine.rulebook.rule? number = some rule) :
    form.targets[number]? = some ((form.tree.expand rule.target none).toOption.getD []) := by
  rw [IsCurrent, Engine.currentTargets] at isCurrent
  rw [isCurrent, List.getElem?_map,
    show form.engine.rulebook.rules[number]? = some rule from entered, Option.map_some]
  cases form.tree.expand rule.target none <;> rfl

end Form

namespace Live

variable {live current : Live}

theorem settle_isCurrent (isCurrent : live.form.IsCurrent) (request : Request) :
    (live.settle (live.form.attempt request)).2.form.IsCurrent := by
  cases attempted : live.form.attempt request with
  | error _ => exact isCurrent
  | ok result =>
      have done : live.form.perform request = .ok result.1 := by
        rw [Form.perform_eq_attempt, attempted]
        rfl
      exact isCurrent.perform done

/-- What was looked up stays right while a request is worked on in place, be it done or
given up. -/
theorem run_isCurrent (isCurrent : live.form.IsCurrent) (request : Request) :
    ((perform request).run live).2.form.IsCurrent := by
  have settled := settle_isCurrent isCurrent request
  cases request with
  | initial => exact settled
  | setAnswer reference value => rwa [run_setAnswer]
  | insertMember parent name position => rwa [run_insertMember]
  | removeMember reference => rwa [run_removeMember]

/-- A form that has been filled in and is worked on since then. What is asked may be done
or may fail, and may be evaluated at times of its own. -/
inductive Continues (live : Live) : Live → Prop where
  | initial : Continues live ((perform .initial).run live).2
  | perform {current : Live} (continues : Continues live current) (request : Request) :
      Continues live ((perform request).run current).2
  | evaluate {current : Live} (continues : Continues live current) (evaluator : Evaluator) :
      Continues live { current with form := current.form.withEvaluator evaluator }

theorem Continues.isCurrent (continues : live.Continues current) : current.form.IsCurrent := by
  induction continues with
  | initial => exact Form.reshaped_isCurrent _ _
  | perform _ request induction => exact run_isCurrent induction request
  | evaluate _ _ induction => exact induction

/-- From the time that a form has been filled in, the nodes that it keeps for a rule are
those that the rule acts on now. They are none if its target cannot be followed. It does
not matter what was asked since then, nor what of it failed. -/
theorem Continues.targets_current (continues : live.Continues current) {number : Nat}
    {rule : Rule} (entered : current.form.engine.rulebook.rule? number = some rule) :
    current.form.targets[number]? =
      some ((current.form.tree.expand rule.target none).toOption.getD []) :=
  continues.isCurrent.targets_eq entered

end Live

/-- An item is put before the others, and then the price of one is asked for that does not
exist. The shares of all three items are at hand. -/
theorem receipt_targets_current : ∃ form rule filled grown last error,
    Order.receipt.form .standard .standard .startOf2020 none = .ok form ∧
    filled = ((Live.perform .initial).run ⟨form, []⟩).2 ∧
    grown = ((Live.perform (.insertMember Order.place "item" 0)).run filled).2 ∧
    (Live.perform (.setAnswer (Order.ofItem 3 "price") none)).run grown = (.error error, last) ∧
    last.form.engine.rulebook.rule? 0 = some rule ∧
    last.form.targets[0]? = some ((List.range 3).map (Order.ofItem · "share")) := by
  have ready : (Order.receipt.form .standard .standard .startOf2020 none).toOption.any
      (fun form =>
        let filled := ((Live.perform .initial).run ⟨form, []⟩).2
        let grown := ((Live.perform (.insertMember Order.place "item" 0)).run filled).2
        let attempt := (Live.perform (.setAnswer (Order.ofItem 3 "price") none)).run grown
        attempt.1.toOption.isNone && (attempt.2.form.engine.rulebook.rule? 0).any fun rule =>
          decide ((attempt.2.form.tree.expand rule.target none).toOption =
            some ((List.range 3).map (Order.ofItem · "share")))) = true := by
    decide +kernel
  rcases exists_ok_of_any ready with ⟨form, built, ready⟩
  rcases Bool.and_eq_true_iff.mp ready with ⟨fails, ready⟩
  rcases (Option.any_eq_true _ _).mp ready with ⟨rule, entered, expands⟩
  generalize isFilled : ((Live.perform .initial).run ⟨form, []⟩).2 = filled at *
  generalize isGrown :
    ((Live.perform (.insertMember Order.place "item" 0)).run filled).2 = grown at *
  have continues : (⟨form, []⟩ : Live).Continues
      ((Live.perform (.setAnswer (Order.ofItem 3 "price") none)).run grown).2 := by
    rw [← isGrown, ← isFilled]
    exact (Live.Continues.initial.perform _).perform _
  have targets := continues.targets_current entered
  rw [of_decide_eq_true expands] at targets
  cases attempt : (Live.perform (.setAnswer (Order.ofItem 3 "price") none)).run grown with
  | mk result last =>
      rw [attempt] at fails entered targets
      cases result with
      | ok _ => cases fails
      | error error =>
          exact ⟨form, rule, filled, grown, last, error, built, isFilled.symm, isGrown.symm,
            attempt, entered, targets⟩

end ReactiveForm
