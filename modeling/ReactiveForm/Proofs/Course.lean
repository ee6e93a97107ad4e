import ReactiveForm.Proofs.Firing

/-! Rules that fire one after the other. If each stands before the rules that it
feeds, and no two rules set one field of one node, then what a rule has settled
stays settled. -/

namespace ReactiveForm

namespace Dependencies

theorem Orders.pairwise {dependencies : Dependencies} {book : Rulebook}
    (orders : dependencies.Orders book) :
    dependencies.order.Pairwise fun earlier later =>
      earlier ≠ later ∧ ¬ book.Feeds later earlier := by
  have apart : ∀ {order : List Nat}, Forward dependencies.successorsOf order →
      order.Pairwise fun earlier later => earlier ≠ later ∧ ¬ book.Feeds later earlier := by
    intro order forward
    induction forward with
    | nil => exact .nil
    | @cons node rest _ fresh forward induction =>
        refine .cons (fun later member => ⟨?_, fun feeds => ?_⟩) induction
        · rintro rfl
          exact fresh member
        · exact fresh (forward.mem_of_mem member (orders.mem_successorsOf.mpr feeds))
  exact apart orders.forward

end Dependencies

/-- No two rules set this field of one node. -/
def Rulebook.Sole (book : Rulebook) (field : Field) : Prop :=
  ∀ {number other : Nat} {rule another : Rule}, book.rule? number = some rule →
    book.rule? other = some another → rule.effect.field = field → another.effect.field = field →
    rule.target = another.target → number = other

theorem Rulebook.sole_iff {book : Rulebook} {field : Field} :
    book.Sole field ↔ book.rules.Pairwise fun earlier later =>
      earlier.effect.field = field → later.effect.field = field → earlier.target ≠ later.target := by
  rw [List.pairwise_iff_getElem]
  constructor
  · intro sole number other inRange otherInRange smaller sets setsToo same
    have equal := sole (List.getElem?_eq_getElem inRange) (List.getElem?_eq_getElem otherInRange)
      sets setsToo same
    omega
  · intro apart number other rule another entered enteredToo sets setsToo same
    rcases List.getElem?_eq_some_iff.mp entered with ⟨inRange, rfl⟩
    rcases List.getElem?_eq_some_iff.mp enteredToo with ⟨otherInRange, rfl⟩
    rcases Nat.lt_trichotomy number other with smaller | equal | greater
    · exact absurd same (apart number other inRange otherInRange smaller sets setsToo)
    · exact equal
    · exact absurd same.symm (apart other number otherInRange inRange greater setsToo sets)

instance (book : Rulebook) (field : Field) : Decidable (book.Sole field) :=
  decidable_of_iff _ Rulebook.sole_iff.symm

namespace Engine

inductive Course (engine : Engine) : Pass → List Firing → Pass → Prop where
  | nil (pass : Pass) : Course engine pass [] pass
  | cons {before between after : Pass} {firing : Firing} {rest : List Firing}
      (first : engine.Fires before firing between) (later : Course engine between rest after) :
      Course engine before (firing :: rest) after

def Ordered (engine : Engine) (firings : List Firing) : Prop :=
  firings.Pairwise fun earlier later =>
    earlier.number ≠ later.number ∧ ¬ engine.rulebook.Feeds later.number earlier.number

namespace Course

variable {engine : Engine} {now : DateTime} {before after : Pass} {firings : List Firing}

theorem entered (course : engine.Course before firings after) {firing : Firing}
    (member : firing ∈ firings) : engine.rulebook.rule? firing.number = some firing.rule := by
  induction course with
  | nil => cases member
  | cons fires _ induction =>
      rcases List.mem_cons.mp member with rfl | member
      · exact fires.entered
      · exact induction member

theorem rule_eq (course : engine.Course before firings after) {firing : Firing}
    (member : firing ∈ firings) {rule : Rule}
    (entered : engine.rulebook.rule? firing.number = some rule) : rule = firing.rule := by
  rw [course.entered member] at entered
  exact (Option.some.inj entered).symm

theorem shape (course : engine.Course before firings after) :
    after.tree.SameShape before.tree := by
  induction course with
  | nil => exact .refl _
  | cons fires _ induction => exact induction.trans fires.worked.shape

theorem fired (course : engine.Course before firings after) :
    after.report.fired = before.report.fired ++ firings.map (·.number) := by
  induction course with
  | nil => simp
  | cons fires _ induction =>
      rw [induction, fires.worked.fired, Pass.noteFired, List.map_cons, List.append_assoc]
      rfl

theorem updates (course : engine.Course before firings after) :
    after.report.updates.map Update.touch =
      before.report.updates.map Update.touch ++ firings.flatMap (·.touched) := by
  induction course with
  | nil => simp
  | cons fires _ induction =>
      rw [induction, fires.worked.updates, Pass.noteFired, List.flatMap_cons, List.append_assoc]

theorem located (course : engine.Course before firings after) {firing : Firing}
    (member : firing ∈ firings) :
    targets before.tree firing.rule firing.anchors = .ok firing.found := by
  induction course with
  | nil => cases member
  | cons fires later induction =>
      rcases List.mem_cons.mp member with rfl | member
      · exact fires.located
      · rw [← targets_sameShape fires.shape]
        exact induction member

theorem belongs (course : engine.Course before firings after) (sound : engine.IsSound now)
    {firing : Firing} (member : firing ∈ firings) :
    ∀ place ∈ firing.found, place.genericize = firing.rule.target :=
  genericize_of_mem_targets (sound.bound (course.entered member)) (course.located member)

theorem touches (course : engine.Course before firings after) {firing : Firing}
    (member : firing ∈ firings) {touch : Touch} (touched : touch ∈ firing.touched) :
    ∃ place ∈ firing.found, touch = firing.rule.effect.touch place := by
  induction course with
  | nil => cases member
  | cons fires _ induction =>
      rcases List.mem_cons.mp member with rfl | member
      · exact fires.worked.touches touch touched
      · exact induction member

theorem held (course : engine.Course before firings after) (field : Field) (place : Reference) :
    after.tree.held field place = before.tree.held field place ∨
      ∃ firing ∈ firings, firing.rule.effect.field = field ∧ place ∈ firing.found ∧
        firing.rule.effect.touch place ∈ firing.touched := by
  induction course with
  | nil => exact .inl rfl
  | @cons before between after firing rest fires _ induction =>
      rcases induction with same | ⟨later, member, changes⟩
      · rw [same]
        by_cases here : firing.rule.effect.field = field ∧ place ∈ firing.found
        · rcases here with ⟨rfl, inFound⟩
          rcases fires.worked.recorded place with touched | stays
          · exact .inr ⟨firing, List.mem_cons_self, rfl, inFound, touched⟩
          · exact .inl stays
        · left
          refine fires.worked.frame field place ?_
          by_cases field' : field = firing.rule.effect.field
          · exact .inr fun inFound => here ⟨field'.symm, inFound⟩
          · exact .inl field'
      · exact .inr ⟨later, List.mem_cons_of_mem _ member, changes⟩

theorem held_type (course : engine.Course before firings after) (place : Reference) :
    after.tree.held .type place = before.tree.held .type place := by
  refine (course.held .type place).resolve_right ?_
  rintro ⟨firing, -, field, -⟩
  revert field
  cases firing.rule.effect <;> exact fun field => nomatch field

/-- If nothing fires that feeds a rule or sets the same field, the field stays,
and so does what the rule says. -/
theorem stays_of_apart (course : engine.Course before firings after) (sound : engine.IsSound now)
    {number : Nat} {rule : Rule} (entered : engine.rulebook.rule? number = some rule)
    (noAction : ∀ occasion, rule.effect ≠ .setValue occasion)
    (sole : engine.rulebook.Sole rule.effect.field)
    (apart : ∀ firing ∈ firings,
      number ≠ firing.number ∧ ¬ engine.rulebook.Feeds firing.number number)
    {place : Reference} (target : place.genericize = rule.target) :
    after.tree.held rule.effect.field place = before.tree.held rule.effect.field place ∧
      engine.evaluator after.tree rule.expression place =
        engine.evaluator before.tree rule.expression place ∧
      (rule.isTriggeredBy place = true →
        after.tree.held .answer place = before.tree.held .answer place) := by
  have bound := sound.bound entered
  -- An answer that triggers the rule is not written.
  have answer : ∀ read, rule.isTriggeredBy read = true →
      after.tree.held .answer read = before.tree.held .answer read := by
    intro read triggered
    refine (course.held _ read).resolve_right ?_
    rintro ⟨firing, member, field, inFound, -⟩
    rcases bound.feeds_of_isTriggeredBy (course.belongs sound member read inFound) triggered with
      ⟨trigger, inTriggers, feeds⟩
    exact (apart firing member).2 ⟨firing.rule, rule, course.entered member, entered,
      ⟨trigger, inTriggers, feeds⟩, fun _ => field_eq_answer_iff.mp field⟩
  refine ⟨(course.held _ place).resolve_right ?_, ?_, answer place⟩
  · rintro ⟨firing, member, field, inFound, -⟩
    have same : rule.target = firing.rule.target :=
      target.symm.trans (course.belongs sound member place inFound)
    exact (apart firing member).1 (sole entered (course.entered member) rfl field same)
  · exact sound.outcome_congr course.shape fun read reads =>
      answer read (bound.isTriggeredBy_of_reads noAction target reads)

theorem current_of_current (course : engine.Course before firings after)
    (sound : engine.IsSound now) {number : Nat} {rule : Rule}
    (entered : engine.rulebook.rule? number = some rule)
    (noAction : ∀ occasion, rule.effect ≠ .setValue occasion)
    (sole : engine.rulebook.Sole rule.effect.field)
    (apart : ∀ firing ∈ firings,
      number ≠ firing.number ∧ ¬ engine.rulebook.Feeds firing.number number)
    {place : Reference} (target : place.genericize = rule.target)
    (answers : rule.effect.isKept = true ∨ rule.isTriggeredBy place = true)
    (current : engine.Current before.tree rule place) : engine.Current after.tree rule place := by
  rcases course.stays_of_apart sound entered noAction sole apart target with
    ⟨field, outcome, answer⟩
  exact current.congr (course.held_type place) field (answers.imp_right answer) outcome

/-- In an orderly course nothing fires after a rule that feeds it. -/
theorem exists_fires (course : engine.Course before firings after) (ordered : engine.Ordered firings)
    {firing : Firing} (member : firing ∈ firings) : ∃ earlier between late,
      engine.Fires earlier firing between ∧ engine.Course between late after ∧
      ∀ later ∈ late, firing.number ≠ later.number ∧
        ¬ engine.rulebook.Feeds later.number firing.number := by
  induction course with
  | nil => cases member
  | cons fires later induction =>
      rcases List.pairwise_cons.mp ordered with ⟨ahead, ordered⟩
      rcases List.mem_cons.mp member with rfl | member
      · exact ⟨_, _, _, fires, later, ahead⟩
      · exact induction ordered member

theorem current (course : engine.Course before firings after) (sound : engine.IsSound now)
    (ordered : engine.Ordered firings) {firing : Firing} (member : firing ∈ firings)
    (kept : firing.rule.effect.isKept = true) (sole : engine.rulebook.Sole firing.rule.effect.field)
    {place : Reference} (inFound : place ∈ firing.found) :
    engine.Current after.tree firing.rule place := by
  have noAction := Effect.ne_setValue_of_isKept kept
  rcases course.exists_fires ordered member with ⟨earlier, between, late, fires, later, apart⟩
  exact later.current_of_current sound fires.entered noAction sole apart
    (fires.belongs sound place inFound) (.inl kept) (fires.worked.current noAction place inFound)

end Course

end Engine

end ReactiveForm
