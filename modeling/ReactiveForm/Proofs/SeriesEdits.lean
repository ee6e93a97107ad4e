import ReactiveForm.Proofs.Layout
import ReactiveForm.Proofs.Repair
import ReactiveForm.Proofs.ValueEdits

/-! Inserting members into series and removing them. A calculation that is not
overlooked while members with new numbers are repaired holds at every node. -/

namespace ReactiveForm

theorem Reference.IsPlace.isLive {reference : Reference} (isPlace : reference.IsPlace)
    (outside : reference.entersTemplate = false) : reference.IsLive := by
  refine ⟨isPlace.absolute, fun step member => ?_⟩
  have bound := isPlace.bound step member
  have live : step.multiplicity ≠ .template := by
    simp only [entersTemplate, List.any_eq_false, beq_iff_eq] at outside
    exact outside step member
  cases multiplicity : step.multiplicity with
  | unbound =>
      rw [multiplicity] at bound
      cases bound
  | template => exact absurd multiplicity live
  | index number => exact ⟨number, rfl⟩

namespace Engine

variable {engine : Engine} {now : DateTime} {change : SeriesChange} {number : Nat} {rule : Rule}
  {place : Reference}

def membersBetween (parent : Reference) (name : String) (first beyond : Nat) : List Reference :=
  (List.range' first (beyond - first)).map fun position => parent.child name (.index position)

theorem repairMembers_eq (parent : Reference) (name : String) (first beyond : Nat) (pass : Pass) :
    engine.repairMembers change parent name first beyond pass =
      (membersBetween parent name first beyond).foldl (engine.repairMember change) pass := by
  rw [repairMembers, membersBetween, List.foldl_map]

theorem mem_membersBetween {parent : Reference} {name : String} {first beyond other : Nat}
    (behind : first ≤ other) (before : other < beyond) :
    parent.child name (.index other) ∈ membersBetween parent name first beyond :=
  List.mem_map_of_mem (List.mem_range'_1.mpr ⟨behind, by omega⟩)

def membersFrom (tree : AnswerTree) (parent : Reference) (name : String) (first : Nat) :
    List Reference :=
  membersBetween parent name first (((tree.find? parent).map (·.memberCount name)).getD 0)

theorem mem_membersFrom {tree : AnswerTree} (orderly : tree.root.IsOrderly) {parent : Reference}
    (nonempty : parent.steps ≠ []) (isPlace : parent.IsPlace) {name : String} {first other : Nat}
    (behind : first ≤ other) (member : parent.child name (.index other) ∈ tree.references) :
    parent.child name (.index other) ∈ membersFrom tree parent name first := by
  rcases AnswerTree.lt_memberCount orderly nonempty isPlace member with ⟨node, found, smaller⟩
  refine mem_membersBetween behind ?_
  rw [found]
  exact smaller

def Follows (tree : AnswerTree) (rule : Rule) (place : Reference) : Prop :=
  ∀ look ∈ rule.expression.looks, ∃ found, look.nodes tree place = .ok found

theorem Follows.sameShape {tree other : AnswerTree} (follows : Follows tree rule place)
    (shape : other.SameShape tree) : Follows other rule place := by
  intro look member
  rcases follows look member with ⟨found, finds⟩
  exact ⟨found, (Expression.nodes_sameShape shape look place).trans finds⟩

/-! Insertion. -/

def filledIn (engine : Engine) (grown : AnswerTree) (inserted : Reference) : Pass :=
  let progress := engine.dependencies.order.foldl (engine.fireForMember inserted) (.start grown, [])
  engine.summarize .created inserted progress.2.length progress.1

def membersBehind (engine : Engine) (grown : AnswerTree) (parent : Reference) (name : String)
    (inserted : Reference) : List Reference :=
  membersFrom (engine.filledIn grown inserted).tree parent name
    ((inserted.lastMultiplicity?.bind Multiplicity.position?).getD 0 + 1)

theorem mem_membersBehind {gap : Gap} {small grown : AnswerTree} (grows : small.Grows gap grown)
    (orderly : grown.root.IsOrderly)
    (shape : (engine.filledIn grown gap.member).tree.SameShape grown) {other : Nat}
    (behind : gap.position < other) (inGrown : gap.sibling other ∈ grown.references) :
    gap.sibling other ∈ engine.membersBehind grown gap.parent gap.name gap.member := by
  rw [← shape.references] at inGrown
  refine mem_membersFrom (shape.isOrderly orderly) grows.nonempty grows.parent ?_ inGrown
  simpa [Gap.member, Reference.child, Reference.lastMultiplicity?, Multiplicity.position?,
    Nat.succ_le_iff] using behind

/-- An insertion overlooks a rule at a node while it repairs the members behind,
at a time when the tree is `earlier`. -/
def InsertionOverlooks (engine : Engine) (tree : AnswerTree) (parent : Reference)
    (name : String) (position number : Nat) (rule : Rule) (place : Reference)
    (earlier : AnswerTree) : Prop :=
  ∃ grown inserted, tree.insert parent name position = .ok (grown, inserted) ∧
    engine.OverlooksAmong .shifted number rule place
      (engine.membersBehind grown parent name inserted) (engine.filledIn grown inserted) earlier

theorem insertMember_ok {tree : AnswerTree} {parent inserted : Reference} {name : String}
    {position : Nat} {after : Pass}
    (done : engine.insertMember tree parent name position = .ok (after, inserted)) :
    ∃ grown repaired, parent.entersTemplate = false ∧
      tree.insert parent name position = .ok (grown, inserted) ∧
      repaired = (engine.membersBehind grown parent name inserted).foldl
        (engine.repairMember .shifted) (engine.filledIn grown inserted) ∧
      after = (engine.propagate ((repaired.tree.referencesFrom inserted).map .state) []
        repaired).1 := by
  rw [insertMember] at done
  split at done
  · cases done
  next outside =>
    split at done
    · cases done
    next grown there insert =>
      cases done
      refine ⟨grown, _, by simpa using outside, insert, rfl, ?_⟩
      rw [membersBehind, membersFrom, ← repairMembers_eq]
      rfl

theorem IsSound.filledIn_round (sound : engine.IsSound now) {grown : AnswerTree}
    {inserted : Reference} (clean : (engine.filledIn grown inserted).report.failures = []) :
    ∃ filled firings, engine.Round (fillsIn inserted) [inserted] engine.dependencies.order
      (.start grown) firings filled ∧ (engine.filledIn grown inserted).tree = filled.tree := by
  rw [filledIn, report_summarize, foldl_fireForMember] at clean
  rcases sound.foldl_round clean with ⟨-, firings, round⟩
  refine ⟨_, firings, round, ?_⟩
  rw [filledIn, tree_summarize, foldl_fireForMember]

theorem IsSound.insertMember_current_or (sound : engine.IsSound now) {tree : AnswerTree}
    (orderly : tree.root.IsOrderly) {parent inserted : Reference} {name : String} {position : Nat}
    {after : Pass} (done : engine.insertMember tree parent name position = .ok (after, inserted))
    (clean : after.report.failures = []) :
    after.tree.root.IsOrderly ∧
      (∀ {layout : Layout}, tree.IsLaidOut layout → after.tree.IsLaidOut layout) ∧
      ∀ {number : Nat} {rule : Rule} {place : Reference},
      engine.Duty number rule place → place ∈ after.tree.references →
      Follows after.tree rule place →
      (∀ old ∈ tree.references, old.genericize = rule.target →
        Follows tree rule old ∧ engine.Current tree rule old) →
      engine.Current after.tree rule place ∨ ∃ earlier,
        engine.InsertionOverlooks tree parent name position number rule place earlier ∧
        after.tree.held rule.effect.field place = earlier.held rule.effect.field place := by
  rcases insertMember_ok done with ⟨grown, repaired, outside, insert, isRepaired, rfl⟩
  rcases AnswerTree.insert_grows orderly insert with ⟨gap, rfl, rfl, rfl, grows, grownOrderly⟩
  rcases sound.propagate_spreads clean with ⟨cleanRepaired, firings, spreads, -⟩
  rw [isRepaired] at cleanRepaired
  rcases sound.foldl_repairMember _ cleanRepaired with ⟨cleanFilled, repairedShape⟩
  rcases sound.filledIn_round cleanFilled with ⟨filled, filling, round, filledTree⟩
  rw [← isRepaired] at repairedShape
  have filledShape : (engine.filledIn grown gap.member).tree.SameShape grown := by
    rw [filledTree]
    exact round.course.shape
  have repairedToo := repairedShape.trans filledShape
  have afterShape := spreads.course.shape.trans repairedToo
  refine ⟨afterShape.isOrderly grownOrderly, fun laidOut =>
    afterShape.isLaidOut (AnswerTree.insert_isLaidOut laidOut insert), ?_⟩
  intro number rule place duty inAfter follows before
  rw [afterShape.references] at inAfter
  have live : gap.member.IsLive := Gap.isLive_member (grows.parent.isLive outside)
  let new := repaired.tree.referencesFrom gap.member
  have inside : ∀ read ∈ grown.references, (∃ below, read.steps = gap.member.steps ++ below) →
      read ∈ new := by
    rintro read inGrown ⟨below, steps⟩
    rw [← repairedToo.references] at inGrown
    exact AnswerTree.mem_referencesFrom (repairedToo.numbered grownOrderly.numbered) inGrown
      live.absolute (by simp [Gap.member, Reference.child]) steps
  have shifted : ∀ other, gap.position < other → gap.sibling other ∈ grown.references →
      gap.sibling other ∈ engine.membersBehind grown gap.parent gap.name gap.member :=
    fun _ behind inGrown => mem_membersBehind grows grownOrderly filledShape behind inGrown
  -- Filling in the member settles all that is inside it.
  have filledIn : engine.IsAccounted filled.tree rule place
      (engine.membersBehind grown gap.parent gap.name gap.member ++ new) :=
    sound.filled_isAccounted live round grownOrderly.numbered duty inAfter
      (fun read inGrown inMember => List.mem_append_right _ (inside read inGrown inMember)) (by
      rcases grows.mem_cases inAfter with ⟨counterpart, inTree, rfl⟩ | inMember
      · have target : counterpart.genericize = rule.target := by
          rw [← duty.target, Gap.genericize_move]
        rcases before counterpart inTree target with ⟨followsBefore, current⟩
        have dutyBefore : engine.Duty number rule counterpart := { duty with target := target }
        exact .inr (dutyBefore.isAccounted_of_grown sound grows inTree followsBefore
          (follows.sameShape afterShape.symm)
          (fun read inGrown inMember => List.mem_append_right _ (inside read inGrown inMember))
          (fun other behind inGrown => List.mem_append_left _ (shifted other behind inGrown))
          current)
      · exact .inl inMember)
  rw [← filledTree] at filledIn
  -- Each repair keeps the rule settled or overlooks it.
  have traced : engine.IsTraced repaired.tree rule place new
      (engine.InsertionOverlooks tree gap.parent gap.name position number rule place) := by
    rw [isRepaired]
    exact sound.foldl_repairMember_isTraced cleanRepaired duty
      (filledShape.numbered grownOrderly.numbered) (by rwa [filledShape.references])
      (fun earlier overlooked => ⟨grown, gap.member, insert, overlooked⟩) (.inl filledIn)
  exact spreads.current_or_missed sound duty (repairedToo.numbered grownOrderly.numbered)
    (by rwa [repairedToo.references]) traced

/-! Removal. -/

/-- A removal overlooks a rule at a node while it repairs the members behind, at a
time when the tree is `earlier`. -/
def RemovalOverlooks (engine : Engine) (tree : AnswerTree) (reference : Reference) (number : Nat)
    (rule : Rule) (place : Reference) (earlier : AnswerTree) : Prop :=
  ∃ shrunk removed parent position, tree.remove reference = .ok (shrunk, removed) ∧
    reference.parent? = some parent ∧ removed.facts.multiplicity = .index position ∧
    engine.OverlooksAmong .deleted number rule place
      (membersFrom shrunk parent removed.facts.name position) (.start shrunk) earlier

theorem afterRemoval_ok {tree : AnswerTree} {reference parent : Reference} {removed : Node}
    {after : Pass} (done : engine.afterRemoval tree (some reference) parent removed = .ok after) :
    ∃ position repaired, removed.facts.multiplicity = .index position ∧
      repaired = (membersFrom tree parent removed.facts.name position).foldl
        (engine.repairMember .deleted) (.start tree) ∧
      after = (engine.propagate ((removed.references reference).map .state) [] repaired).1 := by
  rw [afterRemoval] at done
  split at done
  next position index =>
    split at done
    · cases done
    next node found =>
      cases done
      refine ⟨position, _, index, rfl, ?_⟩
      rw [membersFrom, found, ← repairMembers_eq]
      rfl
  next => cases done

theorem IsSound.afterRemoval_current_or (sound : engine.IsSound now) {tree shrunk : AnswerTree}
    (orderly : tree.root.IsOrderly) {reference parent : Reference} {removed : Node} {after : Pass}
    (taken : tree.remove reference = .ok (shrunk, removed))
    (isParent : reference.parent? = some parent)
    (done : engine.afterRemoval shrunk (some reference) parent removed = .ok after)
    (clean : after.report.failures = []) :
    after.tree.root.IsOrderly ∧
      (∀ {layout : Layout}, tree.IsLaidOut layout → after.tree.IsLaidOut layout) ∧
      ∀ {number : Nat} {rule : Rule} {place : Reference},
      engine.Duty number rule place → place ∈ after.tree.references →
      Follows after.tree rule place →
      (∀ old ∈ tree.references, old.genericize = rule.target →
        Follows tree rule old ∧ engine.Current tree rule old) →
      engine.Current after.tree rule place ∨ ∃ earlier,
        engine.RemovalOverlooks tree reference number rule place earlier ∧
        after.tree.held rule.effect.field place = earlier.held rule.effect.field place := by
  rcases afterRemoval_ok done with ⟨position, repaired, index, isRepaired, rfl⟩
  rcases AnswerTree.remove_grows orderly taken with
    ⟨gap, rfl, hasParent, named, placed, found, grows, shrunkOrderly⟩
  rw [isParent] at hasParent
  cases hasParent
  rw [placed] at index
  cases index
  rcases sound.propagate_spreads clean with ⟨cleanRepaired, firings, spreads, -⟩
  rw [isRepaired] at cleanRepaired
  rcases sound.foldl_repairMember _ cleanRepaired with ⟨-, repairedShape⟩
  rw [← isRepaired] at repairedShape
  have afterShape := spreads.course.shape.trans repairedShape
  refine ⟨afterShape.isOrderly shrunkOrderly, fun laidOut =>
    afterShape.isLaidOut (AnswerTree.remove_isLaidOut laidOut taken), ?_⟩
  intro number rule place duty inAfter follows before
  rw [afterShape.references] at inAfter
  have references : removed.references gap.member = tree.referencesFrom gap.member := by
    rw [AnswerTree.referencesFrom, found]
  rcases before (gap.move place) (grows.move_mem inAfter)
    (Gap.genericize_move.trans duty.target) with ⟨followsBefore, current⟩
  have inside : ∀ read ∈ tree.references, (∃ below, read.steps = gap.member.steps ++ below) →
      read ∈ removed.references gap.member := by
    rintro read inTree ⟨below, steps⟩
    rw [references]
    exact AnswerTree.mem_referencesFrom orderly.numbered inTree grows.parent.absolute
      (by simp [Gap.member, Reference.child]) steps
  have shifted : ∀ other, gap.position ≤ other → gap.sibling other ∈ shrunk.references →
      gap.sibling other ∈ membersFrom shrunk gap.parent removed.facts.name gap.position := by
    intro other behind inShrunk
    rw [named]
    exact mem_membersFrom shrunkOrderly grows.nonempty grows.parent behind inShrunk
  -- The removed member and those behind it are still to be looked at.
  have accounted : engine.IsAccounted shrunk rule place
      (membersFrom shrunk gap.parent removed.facts.name gap.position ++
        removed.references gap.member) :=
    duty.isAccounted_of_shrunk sound grows inAfter (follows.sameShape afterShape.symm)
      followsBefore
      (fun read inTree inMember => List.mem_append_right _ (inside read inTree inMember))
      (fun other behind inShrunk => List.mem_append_left _ (shifted other behind inShrunk)) current
  have traced : engine.IsTraced repaired.tree rule place (removed.references gap.member)
      (engine.RemovalOverlooks tree gap.member number rule place) := by
    rw [isRepaired]
    exact sound.foldl_repairMember_isTraced cleanRepaired duty shrunkOrderly.numbered inAfter
      (fun earlier overlooked =>
        ⟨shrunk, removed, gap.parent, gap.position, taken, isParent, placed, overlooked⟩)
      (.inl accounted)
  exact spreads.current_or_missed sound duty (repairedShape.numbered shrunkOrderly.numbered)
    (by rwa [repairedShape.references]) traced

/-! Where the answer was left behind. -/

def Expects (engine : Engine) (tree : AnswerTree) (rule : Rule) (place : Reference)
    (answer : Option Value) : Prop :=
  ∃ node, tree.find? place = some node ∧
    rule.effect.Settled { node.facts with answer } (engine.evaluator tree rule.expression place)

theorem expects_answer?_iff {tree : AnswerTree} :
    engine.Expects tree rule place (tree.answer? place) ↔ engine.Current tree rule place := by
  have same : ∀ node, tree.find? place = some node →
      ({ node.facts with answer := tree.answer? place } : Facts) = node.facts := by
    intro node found
    rw [AnswerTree.answer?, found]
    rfl
  constructor
  · rintro ⟨node, found, settled⟩
    rw [same node found] at settled
    exact ⟨node, found, settled⟩
  · rintro ⟨node, found, settled⟩
    refine ⟨node, found, ?_⟩
    rwa [same node found]

/-- If a node still has the answer that it had when a rule was passed over in one
of some trees, then this answer is what the rule says. -/
def StillAgrees (engine : Engine) (tree : AnswerTree) (rule : Rule) (place : Reference)
    (missed : AnswerTree → Prop) : Prop :=
  ∀ earlier, missed earlier → tree.answer? place = earlier.answer? place →
    engine.Expects tree rule place (earlier.answer? place)

theorem current_iff_stillAgrees {tree : AnswerTree} {missed : AnswerTree → Prop}
    (calculates : rule.effect = .calculate)
    (settled : engine.Current tree rule place ∨ ∃ earlier, missed earlier ∧
      tree.held rule.effect.field place = earlier.held rule.effect.field place) :
    engine.Current tree rule place ↔ engine.StillAgrees tree rule place missed := by
  constructor
  · intro current earlier _ same
    rw [← same]
    exact expects_answer?_iff.mpr current
  · intro agrees
    rcases settled with current | ⟨earlier, isMissed, kept⟩
    · exact current
    · rw [calculates] at kept
      have same : tree.answer? place = earlier.answer? place := by
        rw [AnswerTree.answer?_eq_held, AnswerTree.answer?_eq_held]
        exact congrArg _ kept
      have expected := agrees earlier isMissed same
      rw [← same] at expected
      exact expects_answer?_iff.mp expected

end Engine

/-! Runs of a form. -/

namespace Form

/-- A form after it has been filled in and edited any number of times without any
failure: answers that no calculation sets have been changed, and members have
been inserted into series and removed. No edit has left the calculation of that
number behind. -/
inductive Edited (form : Form) (number : Nat) (rule : Rule) : Form → Prop where
  | initial (clean : form.initial.report.failures = []) : Edited form number rule form.initial.form
  | setAnswer {current : Form} {reference : Reference} {value : Option Value} {outcome : Outcome}
      (edited : Edited form number rule current) (free : form.IsFree reference)
      (done : current.setAnswer reference value = .ok outcome)
      (clean : outcome.report.failures = []) : Edited form number rule outcome.form
  | insertMember {current : Form} {parent inserted : Reference} {name : String} {position : Nat}
      {outcome : Outcome} (edited : Edited form number rule current)
      (done : current.insertMember parent name position = .ok (outcome, inserted))
      (clean : outcome.report.failures = [])
      (agrees : rule.Everywhere outcome.form.tree fun place =>
        form.engine.StillAgrees outcome.form.tree rule place
          (form.engine.InsertionOverlooks current.tree parent name position number rule place)) :
      Edited form number rule outcome.form
  | removeMember {current : Form} {reference : Reference} {outcome : Outcome}
      (edited : Edited form number rule current)
      (done : current.removeMember reference = .ok outcome)
      (clean : outcome.report.failures = [])
      (agrees : rule.Everywhere outcome.form.tree fun place =>
        form.engine.StillAgrees outcome.form.tree rule place
          (form.engine.RemovalOverlooks current.tree reference number rule place)) :
      Edited form number rule outcome.form

theorem insertMember_ok {form : Form} {parent inserted : Reference} {name : String}
    {position : Nat} {outcome : Outcome}
    (done : form.insertMember parent name position = .ok (outcome, inserted)) :
    ∃ pass, form.engine.insertMember form.tree parent name position = .ok (pass, inserted) ∧
      outcome = form.reshaped pass := by
  rw [Form.insertMember] at done
  split at done
  · cases done
  next pass there insert =>
    cases done
    exact ⟨pass, insert, rfl⟩

theorem removeMember_ok {form : Form} {reference : Reference} {outcome : Outcome}
    (done : form.removeMember reference = .ok outcome) :
    ∃ parent shrunk removed pass, reference.parent? = some parent ∧
      form.tree.remove reference = .ok (shrunk, removed) ∧
      form.engine.afterRemoval shrunk (some reference) parent removed = .ok pass ∧
      outcome = ({ form with tree := shrunk } : Form).reshaped pass := by
  rw [Form.removeMember] at done
  split at done
  · cases done
  next parent isParent =>
    split at done
    · cases done
    next shrunk removed taken =>
      rw [Form.afterRemoval] at done
      split at done
      · cases done
      next pass repaired =>
        cases done
        exact ⟨parent, shrunk, removed, pass, isParent, taken, repaired, rfl⟩

theorem Edited.engine_eq {form current : Form} {number : Nat} {rule : Rule}
    (edited : form.Edited number rule current) : current.engine = form.engine := by
  induction edited with
  | initial => rfl
  | setAnswer _ _ done _ induction =>
      rcases setAnswer_ok done with ⟨pass, -, rfl⟩
      exact induction
  | insertMember _ done _ _ induction =>
      rcases insertMember_ok done with ⟨pass, -, rfl⟩
      exact induction
  | removeMember _ done _ _ induction =>
      rcases removeMember_ok done with ⟨parent, shrunk, removed, pass, -, -, -, rfl⟩
      exact induction

/-- What is assumed of a form that is edited and of one of its calculations: no
two rules set one answer, the calculation is narrow, and the layout of the form
declares all that it mentions. -/
structure Calculates (form : Form) (now : DateTime) (layout : Layout) (number : Nat)
    (rule : Rule) : Prop where
  built : form.IsBuilt now
  sole : form.engine.rulebook.Sole .answer
  entered : form.engine.rulebook.rule? number = some rule
  effect : rule.effect = .calculate
  narrow : rule.IsNarrow
  declares : ∀ look ∈ rule.expression.looks, layout.Declares (look.reference.steps.map (·.name))

structure IsUpToDate (form : Form) (layout : Layout) (rule : Rule) (tree : AnswerTree) :
    Prop where
  orderly : tree.root.IsOrderly
  laidOut : tree.IsLaidOut layout
  current : rule.Everywhere tree fun place => form.engine.Current tree rule place

namespace Calculates

variable {form current : Form} {now : DateTime} {layout : Layout} {number : Nat} {rule : Rule}
  {place : Reference}

theorem duty (calculates : form.Calculates now layout number rule)
    (target : place.genericize = rule.target) : form.engine.Duty number rule place :=
  ⟨calculates.entered, by rw [calculates.effect]; rfl, calculates.narrow,
    by rw [calculates.effect]; exact calculates.sole, target⟩

theorem follows (calculates : form.Calculates now layout number rule) {tree : AnswerTree}
    (orderly : tree.root.IsOrderly) (laidOut : tree.IsLaidOut layout)
    (member : place ∈ tree.references) : Engine.Follows tree rule place := fun look isLook =>
  look.exists_nodes laidOut orderly.numbered (calculates.narrow look isLook).isPattern
    (calculates.declares look isLook) member

theorem stillAgrees_iff (calculates : form.Calculates now layout number rule)
    {tree after : AnswerTree} (upToDate : form.IsUpToDate layout rule tree)
    (orderly : after.root.IsOrderly) (laidOut : after.IsLaidOut layout)
    {overlooked : Reference → AnswerTree → Prop}
    (settled : ∀ place, form.engine.Duty number rule place → place ∈ after.references →
      Engine.Follows after rule place →
      (∀ old ∈ tree.references, old.genericize = rule.target →
        Engine.Follows tree rule old ∧ form.engine.Current tree rule old) →
      form.engine.Current after rule place ∨ ∃ earlier, overlooked place earlier ∧
        after.held rule.effect.field place = earlier.held rule.effect.field place) :
    rule.Everywhere after fun place => (form.engine.Current after rule place ↔
      form.engine.StillAgrees after rule place (overlooked place)) := by
  intro place member target
  refine Engine.current_iff_stillAgrees calculates.effect
    (settled place (calculates.duty target) member (calculates.follows orderly laidOut member) ?_)
  intro old inTree oldTarget
  exact ⟨calculates.follows upToDate.orderly upToDate.laidOut inTree,
    upToDate.current old inTree oldTarget⟩

theorem insertMember_iff (calculates : form.Calculates now layout number rule)
    (upToDate : form.IsUpToDate layout rule current.tree) (engine : current.engine = form.engine)
    {parent inserted : Reference} {name : String} {position : Nat} {outcome : Outcome}
    (done : current.insertMember parent name position = .ok (outcome, inserted))
    (clean : outcome.report.failures = []) :
    outcome.form.tree.root.IsOrderly ∧ outcome.form.tree.IsLaidOut layout ∧
      rule.Everywhere outcome.form.tree fun place =>
        (form.engine.Current outcome.form.tree rule place ↔
          form.engine.StillAgrees outcome.form.tree rule place
            (form.engine.InsertionOverlooks current.tree parent name position number rule
              place)) := by
  rcases insertMember_ok done with ⟨pass, insert, rfl⟩
  rw [engine] at insert
  rcases calculates.built.sound.insertMember_current_or upToDate.orderly insert clean with
    ⟨orderly, laidOut, settled⟩
  have laidOut := laidOut upToDate.laidOut
  exact ⟨orderly, laidOut, calculates.stillAgrees_iff upToDate orderly laidOut fun _ => settled⟩

theorem removeMember_iff (calculates : form.Calculates now layout number rule)
    (upToDate : form.IsUpToDate layout rule current.tree) (engine : current.engine = form.engine)
    {reference : Reference} {outcome : Outcome}
    (done : current.removeMember reference = .ok outcome)
    (clean : outcome.report.failures = []) :
    outcome.form.tree.root.IsOrderly ∧ outcome.form.tree.IsLaidOut layout ∧
      rule.Everywhere outcome.form.tree fun place =>
        (form.engine.Current outcome.form.tree rule place ↔
          form.engine.StillAgrees outcome.form.tree rule place
            (form.engine.RemovalOverlooks current.tree reference number rule place)) := by
  rcases removeMember_ok done with ⟨parent, shrunk, removed, pass, isParent, taken, repaired, rfl⟩
  rw [engine] at repaired
  rcases calculates.built.sound.afterRemoval_current_or upToDate.orderly taken isParent repaired
    clean
    with ⟨orderly, laidOut, settled⟩
  have laidOut := laidOut upToDate.laidOut
  exact ⟨orderly, laidOut, calculates.stillAgrees_iff upToDate orderly laidOut fun _ => settled⟩

theorem isUpToDate (calculates : form.Calculates now layout number rule)
    (orderly : form.tree.root.IsOrderly) (laidOut : form.tree.IsLaidOut layout)
    (edited : form.Edited number rule current) : form.IsUpToDate layout rule current.tree := by
  have sound := calculates.built.sound
  induction edited with
  | initial clean =>
      have shape := (FilledIn.initial clean).sameShape sound
      refine ⟨shape.isOrderly orderly, shape.isLaidOut laidOut, fun place member target => ?_⟩
      have duty := calculates.duty target
      rw [shape.references] at member
      exact sound.initial_current orderly.numbered clean duty.entered duty.kept duty.sole member
        target
  | @setAnswer current reference value outcome edited free done clean upToDate =>
      rcases setAnswer_ok done with ⟨pass, set, rfl⟩
      rw [edited.engine_eq] at set
      have shape := sound.setAnswer_sameShape set clean
      refine ⟨shape.isOrderly upToDate.orderly, shape.isLaidOut upToDate.laidOut, ?_⟩
      intro place member target
      have duty := calculates.duty target
      have inTree : place ∈ current.tree.references := by rwa [← shape.references]
      have apart := free rule (List.mem_of_getElem? calculates.entered) calculates.effect
      exact sound.setAnswer_current upToDate.orderly.numbered set clean duty.entered duty.kept
        duty.narrow duty.sole (fun _ => apart) inTree target (upToDate.current place inTree target)
  | insertMember edited done clean agrees upToDate =>
      rcases calculates.insertMember_iff upToDate edited.engine_eq done clean with
        ⟨orderly, laidOut, holds⟩
      refine ⟨orderly, laidOut, fun place member target => ?_⟩
      exact (holds place member target).mpr (agrees place member target)
  | removeMember edited done clean agrees upToDate =>
      rcases calculates.removeMember_iff upToDate edited.engine_eq done clean with
        ⟨orderly, laidOut, holds⟩
      refine ⟨orderly, laidOut, fun place member target => ?_⟩
      exact (holds place member target).mpr (agrees place member target)

end Calculates

end Form

/-- While a form is edited, a calculation holds wherever it acts. After a member
has been inserted into a series or removed from it, the calculation holds at a
node exactly if, whenever it was overlooked there while the members behind were
repaired and the node has had the same answer since, this answer is what its
expression says. -/
theorem Definition.edited_calculation_iff {definition : Definition} {constructors : Constructors}
    {settings : Settings} {now : DateTime} {saved : Option AnswerTree} {form : Form}
    (built : definition.form constructors settings now saved = .ok form)
    (retain : settings.hiddenAnswers = .retain) (lead : form.tree.root.TemplatesLead)
    (uniform : form.tree.root.IsUniform) (soleAnswers : form.engine.rulebook.Sole .answer)
    {number : Nat} {rule : Rule} (entered : form.engine.rulebook.rule? number = some rule)
    (calculates : rule.effect = .calculate) (narrow : rule.IsNarrow)
    (declared : ∀ mention ∈ rule.expression.mentions, form.tree.declares mention = true)
    {current : Form} (edited : form.Edited number rule current) :
    (rule.Everywhere current.tree fun place => form.engine.Current current.tree rule place) ∧
    (∀ parent name position outcome inserted,
      current.insertMember parent name position = .ok (outcome, inserted) →
      outcome.report.failures = [] →
      rule.Everywhere outcome.form.tree fun place =>
        (form.engine.Current outcome.form.tree rule place ↔
          form.engine.StillAgrees outcome.form.tree rule place
            (form.engine.InsertionOverlooks current.tree parent name position number rule
              place))) ∧
    ∀ reference outcome, current.removeMember reference = .ok outcome →
      outcome.report.failures = [] →
      rule.Everywhere outcome.form.tree fun place =>
        (form.engine.Current outcome.form.tree rule place ↔
          form.engine.StillAgrees outcome.form.tree rule place
            (form.engine.RemovalOverlooks current.tree reference number rule place)) := by
  have isBuilt := Definition.form_isBuilt retain built
  rcases AnswerTree.exists_layout uniform with ⟨layout, laidOut⟩
  have regular : form.Calculates now layout number rule := by
    refine ⟨isBuilt, soleAnswers, entered, calculates, narrow, fun look isLook => ?_⟩
    refine laidOut.declares (declared look.reference ?_)
    rw [Expression.mentions_eq_looks]
    exact List.mem_map_of_mem isLook
  have upToDate := regular.isUpToDate ⟨isBuilt.numbered, lead⟩ laidOut edited
  refine ⟨upToDate.current, ?_, ?_⟩
  · intro parent name position outcome inserted done clean
    exact (regular.insertMember_iff upToDate edited.engine_eq done clean).2.2
  · intro reference outcome done clean
    exact (regular.removeMember_iff upToDate edited.engine_eq done clean).2.2

def Order.place : Reference := .absolute [⟨"data", .index 0⟩]

/-- When an item is put before the others, the share of the next one is
overlooked. -/
theorem order_calculation_iff : ∃ form outcome inserted rule,
    Order.definition.form .standard .standard .startOf2020 none = .ok form ∧
    form.engine.rulebook.rule? 2 = some rule ∧ rule.effect = .calculate ∧
    form.initial.form.insertMember Order.place "item" 0 = .ok (outcome, inserted) ∧
    ¬ form.engine.StillAgrees outcome.form.tree rule (Order.ofItem 1 "share")
      (form.engine.InsertionOverlooks form.initial.form.tree Order.place "item" 0 2 rule
        (Order.ofItem 1 "share")) := by
  have ready : (Order.definition.form .standard .standard .startOf2020 none).toOption.any
      (fun form => decide (form.initial.report.failures = [] ∧ form.tree.root.TemplatesLead ∧
          form.tree.root.IsUniform ∧ form.engine.rulebook.Sole .answer) &&
        (form.engine.rulebook.rule? 2).any fun rule => decide (rule.effect = .calculate ∧
          rule.IsNarrow ∧
          (∀ mention ∈ rule.expression.mentions, form.tree.declares mention = true) ∧
          (Order.ofItem 1 "share").genericize = rule.target) &&
        (form.initial.form.insertMember Order.place "item" 0).toOption.any fun grown =>
          decide (grown.1.report.failures = [] ∧
            Order.ofItem 1 "share" ∈ grown.1.form.tree.references ∧
            ¬ form.engine.Current grown.1.form.tree rule (Order.ofItem 1 "share"))) = true := by
    decide +kernel
  rcases exists_ok_of_any ready with ⟨form, built, ready⟩
  rcases Bool.and_eq_true_iff.mp ready with ⟨isReady, ready⟩
  rcases decide_eq_true_eq.mp isReady with ⟨clean, lead, uniform, answers⟩
  rcases (Option.any_eq_true _ _).mp ready with ⟨rule, entered, ready⟩
  rcases Bool.and_eq_true_iff.mp ready with ⟨isRule, grows⟩
  rcases decide_eq_true_eq.mp isRule with ⟨calculates, narrow, declared, target⟩
  rcases exists_ok_of_any grows with ⟨⟨outcome, inserted⟩, done, grows⟩
  rcases decide_eq_true_eq.mp grows with ⟨cleanToo, member, stale⟩
  refine ⟨form, outcome, inserted, rule, built, entered, calculates, done, fun agrees => stale ?_⟩
  exact ((Definition.edited_calculation_iff built rfl lead uniform answers entered calculates narrow
    declared (.initial clean)).2.1 _ _ _ _ _ done cleanToo _ member target).mpr agrees

/-- Its share is still that of the total from before. -/
theorem order_stale : ∃ form outcome inserted rule,
    Order.definition.form .standard .standard .startOf2020 none = .ok form ∧
    form.tree.root.TemplatesLead ∧ form.tree.root.IsUniform ∧
    form.engine.rulebook.Sole .answer ∧
    (∀ rule ∈ form.engine.rulebook.rules, rule.effect = .calculate → rule.IsNarrow) ∧
    form.initial.report.failures = [] ∧
    form.initial.form.insertMember Order.place "item" 0 = .ok (outcome, inserted) ∧
    outcome.report.failures = [] ∧
    form.engine.rulebook.rule? 2 = some rule ∧ rule.effect = .calculate ∧
    Order.ofItem 1 "share" ∈ outcome.form.tree.references ∧
    (Order.ofItem 1 "share").genericize = rule.target ∧
    outcome.form.answer? (Order.ofItem 1 "share") = some (.int 32) ∧
    ∃ result, Expression.evaluate .startOf2020 outcome.form.tree (Order.ofItem 1 "share")
      rule.expression = .ok result ∧ answerFrom result .int = .ok (some (.int 37)) := by
  have stale : (Order.definition.form .standard .standard .startOf2020 none).toOption.any
      (fun form => decide (form.tree.root.TemplatesLead ∧ form.tree.root.IsUniform ∧
          form.engine.rulebook.Sole .answer ∧
          (∀ rule ∈ form.engine.rulebook.rules, rule.effect = .calculate → rule.IsNarrow) ∧
          form.initial.report.failures = []) &&
        (form.initial.form.insertMember Order.place "item" 0).toOption.any fun grown =>
          decide (grown.1.report.failures = []) &&
            (form.engine.rulebook.rule? 2).any fun rule => decide (rule.effect = .calculate ∧
              Order.ofItem 1 "share" ∈ grown.1.form.tree.references ∧
              (Order.ofItem 1 "share").genericize = rule.target ∧
              grown.1.form.answer? (Order.ofItem 1 "share") = some (.int 32)) &&
              (Expression.evaluate .startOf2020 grown.1.form.tree (Order.ofItem 1 "share")
                rule.expression).toOption.any fun result =>
                  decide (answerFrom result .int = .ok (some (.int 37)))) = true := by
    decide +kernel
  rcases exists_ok_of_any stale with ⟨form, built, stale⟩
  rcases Bool.and_eq_true_iff.mp stale with ⟨isReady, grows⟩
  rcases decide_eq_true_eq.mp isReady with ⟨lead, uniform, answers, narrow, clean⟩
  rcases exists_ok_of_any grows with ⟨⟨outcome, inserted⟩, done, grows⟩
  rcases Bool.and_eq_true_iff.mp grows with ⟨isClean, isRule⟩
  rcases (Option.any_eq_true _ _).mp isRule with ⟨rule, entered, isRule⟩
  rcases Bool.and_eq_true_iff.mp isRule with ⟨isKept, evaluates⟩
  rcases decide_eq_true_eq.mp isKept with ⟨calculates, member, target, kept⟩
  rcases exists_ok_of_any evaluates with ⟨result, evaluated, isNew⟩
  exact ⟨form, outcome, inserted, rule, built, lead, uniform, answers, narrow, clean, done,
    decide_eq_true_eq.mp isClean, entered, calculates, member, target, kept, result, evaluated,
    decide_eq_true_eq.mp isNew⟩

end ReactiveForm
