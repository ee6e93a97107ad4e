import ReactiveForm.Proofs.Accounting
import ReactiveForm.Recalculation.Propagation

/-! Repairs of the members of a series whose numbers have changed. What reads a
member fires anew, and then what reads one of its children. All these passes
share the rules that have fired, so that none fires twice for one member: a rule
may be overlooked. -/

namespace ReactiveForm.Engine

/-! What is overlooked. -/

def writtenBetween (before after : Pass) : List Reference :=
  let new := after.report.updates.drop before.report.updates.length
  (new.filter (·.touch.isAnswer)).map (·.target)

section Overlooks

variable (engine : Engine) (change : SeriesChange) (number : Nat) (rule : Rule) (place : Reference)

/-- The repair of one more node writes an answer that the rule reads at `place`,
but the rule has fired before. This is the tree in which it is passed over. -/
def Overlooks (progress : Pass × List Nat) (reference : Reference) (tree : AnswerTree) : Prop :=
  tree = progress.1.tree ∧ number ∈ progress.2 ∧
    ∃ read ∈ writtenBetween progress.1 (engine.repairNode change progress reference).1,
      rule.expression.Reads tree place read

def OverlooksAlong : List Reference → Pass × List Nat → AnswerTree → Prop
  | [], _, _ => False
  | reference :: rest, progress, tree =>
      engine.Overlooks change number rule place progress reference tree ∨
        OverlooksAlong rest (engine.repairNode change progress reference) tree

def OverlooksIn (pass : Pass) (member : Reference) (tree : AnswerTree) : Prop :=
  engine.OverlooksAlong change number rule place
    (childReferences (engine.repairNode change (pass, []) member).1.tree member)
    (engine.repairNode change (pass, []) member) tree

def OverlooksAmong : List Reference → Pass → AnswerTree → Prop
  | [], _, _ => False
  | member :: rest, pass, tree =>
      engine.OverlooksIn change number rule place pass member tree ∨
        OverlooksAmong rest (engine.repairMember change pass member) tree

end Overlooks

variable {engine : Engine} {now : DateTime} {change : SeriesChange} {number : Nat} {rule : Rule}
  {place : Reference} {awaited : List Reference} {missed : AnswerTree → Prop}

/-! One node. -/

@[simp] theorem tree_summarize (reference : Reference) (fired : Nat) (pass : Pass) :
    (engine.summarize change reference fired pass).tree = pass.tree := by
  rw [summarize]
  split <;> rfl

@[simp] theorem report_summarize (reference : Reference) (fired : Nat) (pass : Pass) :
    (engine.summarize change reference fired pass).report = pass.report := by
  rw [summarize]
  split <;> rfl

theorem Course.mem_writtenBetween {before after : Pass} {firings : List Firing}
    (course : engine.Course before firings after) {read : Reference}
    (written : .answer read ∈ firings.flatMap (·.touched)) :
    read ∈ writtenBetween before after := by
  have touches : (after.report.updates.drop before.report.updates.length).map Update.touch =
      firings.flatMap (·.touched) := by
    rw [List.map_drop, course.updates, List.drop_left' (by simp)]
  rw [← touches] at written
  rcases List.mem_map.mp written with ⟨update, isNew, touch⟩
  refine List.mem_map.mpr ⟨update, List.mem_filter.mpr ⟨isNew, by rw [touch]; rfl⟩, ?_⟩
  rw [← update.reference_touch, touch]
  rfl

structure Repaired (engine : Engine) (reference : Reference) (before : Pass) (fired : List Nat)
    (after : Pass) : Prop where
  clean : before.report.failures = []
  spreads : ∃ firings spread, engine.Spreads [.state reference] fired before firings spread ∧
    after.tree = spread.tree ∧ after.report = spread.report

theorem IsSound.repairNode_repaired (sound : engine.IsSound now) {progress : Pass × List Nat}
    {reference : Reference}
    (clean : (engine.repairNode change progress reference).1.report.failures = []) :
    engine.Repaired reference progress.1 progress.2
      (engine.repairNode change progress reference).1 := by
  rw [repairNode, report_summarize] at clean
  rcases sound.propagate_spreads clean with ⟨cleanBefore, firings, spreads, -⟩
  exact ⟨cleanBefore, firings, _, spreads, by simp [repairNode], by simp [repairNode]⟩

theorem Repaired.shape {reference : Reference} {before after : Pass} {fired : List Nat}
    (repaired : engine.Repaired reference before fired after) :
    after.tree.SameShape before.tree := by
  rcases repaired.spreads with ⟨firings, spread, spreads, tree, -⟩
  rw [tree]
  exact spreads.course.shape

theorem Repaired.isTraced {reference : Reference} {before after : Pass} {fired : List Nat}
    (repaired : engine.Repaired reference before fired after) (sound : engine.IsSound now)
    (duty : engine.Duty number rule place) (numbered : before.tree.root.Numbered)
    (member : place ∈ before.tree.references) (fresh : number ∉ fired)
    (traced : engine.IsTraced before.tree rule place (reference :: awaited) missed) :
    engine.IsTraced after.tree rule place awaited missed := by
  rcases repaired.spreads with ⟨firings, spread, spreads, tree, -⟩
  rw [tree]
  exact spreads.isTraced sound duty numbered member fresh traced

theorem IsSound.repairNode_isTraced (sound : engine.IsSound now) {progress : Pass × List Nat}
    {reference : Reference}
    (clean : (engine.repairNode change progress reference).1.report.failures = [])
    (duty : engine.Duty number rule place) (numbered : progress.1.tree.root.Numbered)
    (member : place ∈ progress.1.tree.references)
    (overlooked : ∀ tree, engine.Overlooks change number rule place progress reference tree →
      missed tree)
    (traced : engine.IsTraced progress.1.tree rule place awaited missed) :
    engine.IsTraced (engine.repairNode change progress reference).1.tree rule place awaited
      missed := by
  have repaired := sound.repairNode_repaired clean
  by_cases isFired : number ∈ progress.2
  · rcases repaired.spreads with ⟨firings, spread, spreads, tree, report⟩
    rw [tree]
    refine spreads.isTraced_of_fired sound duty isFired (fun read written reads => ?_) traced
    have isWritten := spreads.course.mem_writtenBetween written
    rw [writtenBetween, ← report] at isWritten
    exact overlooked _ ⟨rfl, isFired, read, isWritten, reads⟩
  · exact repaired.isTraced sound duty numbered member isFired
      (traced.mono (List.subset_cons_self _ _))

theorem Spreads.current_or_missed {references : List Reference} {before after : Pass}
    {firings : List Firing}
    (spreads : engine.Spreads (references.map .state) [] before firings after)
    (sound : engine.IsSound now) (duty : engine.Duty number rule place)
    (numbered : before.tree.root.Numbered) (member : place ∈ before.tree.references)
    (traced : engine.IsTraced before.tree rule place references missed) :
    engine.Current after.tree rule place ∨ ∃ earlier, missed earlier ∧
      after.tree.held rule.effect.field place = earlier.held rule.effect.field place := by
  have settled : engine.IsTraced after.tree rule place [] missed :=
    spreads.isTraced sound duty numbered member List.not_mem_nil
      (traced.mono (by simp [Function.comp_def, Touch.reference]))
  exact settled.imp_left fun accounted =>
    accounted.resolve_right fun ⟨_, waits, _⟩ => List.not_mem_nil waits

/-! Some nodes, and members. -/

theorem IsSound.foldl_repairNode (sound : engine.IsSound now) (references : List Reference)
    {progress : Pass × List Nat}
    (clean : (references.foldl (engine.repairNode change) progress).1.report.failures = []) :
    progress.1.report.failures = [] ∧
      (references.foldl (engine.repairNode change) progress).1.tree.SameShape progress.1.tree := by
  induction references generalizing progress with
  | nil => exact ⟨clean, .refl _⟩
  | cons reference rest induction =>
      rcases induction clean with ⟨cleanNext, shape⟩
      have repaired := sound.repairNode_repaired cleanNext
      exact ⟨repaired.clean, shape.trans repaired.shape⟩

theorem IsSound.foldl_repairNode_isTraced (sound : engine.IsSound now)
    {references : List Reference} {progress : Pass × List Nat}
    (clean : (references.foldl (engine.repairNode change) progress).1.report.failures = [])
    (duty : engine.Duty number rule place) (numbered : progress.1.tree.root.Numbered)
    (member : place ∈ progress.1.tree.references)
    (overlooked : ∀ tree, engine.OverlooksAlong change number rule place references progress tree →
      missed tree)
    (traced : engine.IsTraced progress.1.tree rule place awaited missed) :
    engine.IsTraced (references.foldl (engine.repairNode change) progress).1.tree rule place
      awaited missed := by
  induction references generalizing progress with
  | nil => exact traced
  | cons reference rest induction =>
      have cleanNext := (sound.foldl_repairNode rest clean).1
      have shape := (sound.repairNode_repaired cleanNext).shape
      have next := sound.repairNode_isTraced cleanNext duty numbered member
        (fun tree isMissed => overlooked tree (.inl isMissed)) traced
      exact induction clean (shape.numbered numbered) (by rwa [shape.references])
        (fun tree isMissed => overlooked tree (.inr isMissed)) next

theorem IsSound.repairMember_sameShape (sound : engine.IsSound now) {pass : Pass}
    {member : Reference} (clean : (engine.repairMember change pass member).report.failures = []) :
    pass.report.failures = [] ∧
      (engine.repairMember change pass member).tree.SameShape pass.tree := by
  rcases sound.foldl_repairNode _ clean with ⟨cleanNext, shape⟩
  have repaired := sound.repairNode_repaired cleanNext
  exact ⟨repaired.clean, shape.trans repaired.shape⟩

/-- The repair of a member settles what reads the member, and may overlook a rule
while the children are repaired. -/
theorem IsSound.repairMember_isTraced (sound : engine.IsSound now) {pass : Pass}
    {member : Reference} (clean : (engine.repairMember change pass member).report.failures = [])
    (duty : engine.Duty number rule place) (numbered : pass.tree.root.Numbered)
    (inTree : place ∈ pass.tree.references)
    (overlooked : ∀ tree, engine.OverlooksIn change number rule place pass member tree →
      missed tree)
    (traced : engine.IsTraced pass.tree rule place (member :: awaited) missed) :
    engine.IsTraced (engine.repairMember change pass member).tree rule place awaited missed := by
  have repaired := sound.repairNode_repaired (sound.foldl_repairNode _ clean).1
  exact sound.foldl_repairNode_isTraced clean duty (repaired.shape.numbered numbered)
    (by rwa [repaired.shape.references]) overlooked
    (repaired.isTraced sound duty numbered inTree List.not_mem_nil traced)

theorem IsSound.foldl_repairMember (sound : engine.IsSound now) (members : List Reference)
    {pass : Pass} (clean : (members.foldl (engine.repairMember change) pass).report.failures = []) :
    pass.report.failures = [] ∧
      (members.foldl (engine.repairMember change) pass).tree.SameShape pass.tree := by
  induction members generalizing pass with
  | nil => exact ⟨clean, .refl _⟩
  | cons member rest induction =>
      rcases induction clean with ⟨cleanNext, shape⟩
      rcases sound.repairMember_sameShape cleanNext with ⟨cleanBefore, first⟩
      exact ⟨cleanBefore, shape.trans first⟩

theorem IsSound.foldl_repairMember_isTraced (sound : engine.IsSound now)
    {members : List Reference} {pass : Pass}
    (clean : (members.foldl (engine.repairMember change) pass).report.failures = [])
    (duty : engine.Duty number rule place) (numbered : pass.tree.root.Numbered)
    (inTree : place ∈ pass.tree.references)
    (overlooked : ∀ tree, engine.OverlooksAmong change number rule place members pass tree →
      missed tree)
    (traced : engine.IsTraced pass.tree rule place (members ++ awaited) missed) :
    engine.IsTraced (members.foldl (engine.repairMember change) pass).tree rule place awaited
      missed := by
  induction members generalizing pass with
  | nil => exact traced
  | cons member rest induction =>
      have cleanNext := (sound.foldl_repairMember rest clean).1
      have shape := (sound.repairMember_sameShape cleanNext).2
      have next := sound.repairMember_isTraced cleanNext duty numbered inTree
        (fun tree isMissed => overlooked tree (.inl isMissed)) traced
      exact induction clean (shape.numbered numbered) (by rwa [shape.references])
        (fun tree isMissed => overlooked tree (.inr isMissed)) next

end ReactiveForm.Engine
