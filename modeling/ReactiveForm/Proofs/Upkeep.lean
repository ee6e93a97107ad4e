import ReactiveForm.Proofs.Spreading

/-! What becomes of one rule at one node when changes spread: either the rule is
evaluated anew there, or nothing that it reads has changed. This needs rules
that read only nodes near the one they set. -/

namespace ReactiveForm

/-- All that a rule reads is written as patterns, and what it counts or sums up
has only the root in common with its target. -/
def Rule.IsNarrow (rule : Rule) : Prop :=
  ∀ look ∈ rule.expression.looks, look.IsNarrow rule.target

instance (rule : Rule) : Decidable rule.IsNarrow :=
  inferInstanceAs (Decidable (∀ look ∈ rule.expression.looks, look.IsNarrow rule.target))

theorem Look.nodes_subset {tree : AnswerTree} (numbered : tree.root.Numbered) {look : Look}
    (isPattern : look.reference.IsPattern) {context : Reference} (live : context.IsLive)
    {nodes : List Reference} (found : look.nodes tree context = .ok nodes) :
    ∃ followed, look.followed context = .ok followed ∧
      nodes = tree.references.filter (followed.intersects ·) := by
  rcases Look.nodes_eq_ok.mp found with ⟨followed, follows, expanded⟩
  refine ⟨followed, follows, ?_⟩
  refine AnswerTree.expand_ok numbered (look.followed_origin follows) ?_ expanded
  rw [Look.followed] at follows
  split at follows
  · cases follows
    exact isPattern.not_template
  · exact isPattern.not_template_of_anchor live follows

theorem Rule.IsNarrow.near_of_reads {tree : AnswerTree} (numbered : tree.root.Numbered)
    {rule : Rule} (narrow : rule.IsNarrow) {place : Reference} (member : place ∈ tree.references)
    (target : place.genericize = rule.target) {read : Reference}
    (reads : rule.expression.Reads tree place read) :
    read ∈ tree.references ∧ read.IsNear place := by
  rcases reads with ⟨look, inLooks, nodes, found, inNodes⟩
  have isNarrow := narrow look inLooks
  rcases AnswerTree.isLive_of_mem numbered member with ⟨live, placeRest, placeSteps⟩
  rcases look.nodes_subset numbered isNarrow.isPattern live found with ⟨followed, follows, rfl⟩
  rcases List.mem_filter.mp inNodes with ⟨inTree, overlap⟩
  rcases AnswerTree.isLive_of_mem numbered inTree with ⟨readLive, readRest, readSteps⟩
  rw [← target] at isNarrow
  have sees : look.Sees place read := ⟨followed, follows, overlap⟩
  exact ⟨inTree, (Reference.isNear_comm _ _).mp
    (sees.isNear isNarrow placeSteps readSteps live.isPlace readLive.isPlace)⟩

namespace Engine

variable {engine : Engine} {now : DateTime}

theorem Course.mem_found {before after : Pass} {firings : List Firing}
    (course : engine.Course before firings after) (sound : engine.IsSound now)
    (numbered : before.tree.root.Numbered) {firing : Firing} (inFirings : firing ∈ firings)
    {anchor : Reference} (inAnchors : anchor ∈ firing.anchors) (live : anchor.IsLive)
    {place : Reference} (member : place ∈ before.tree.references)
    (target : place.genericize = firing.rule.target) (near : anchor.IsNear place) :
    place ∈ firing.found := by
  have nonempty : firing.anchors ≠ [] := List.ne_nil_of_mem inAnchors
  rcases (mem_targets nonempty (course.located inFirings)).1 anchor inAnchors with
    ⟨found, located, subset⟩
  have bound := sound.bound (course.entered inFirings)
  exact subset ((mem_targetsNear numbered bound live located).mpr ⟨member, target, near⟩)

section Spreads

variable {changes : List Touch} {fired : List Nat} {before after : Pass} {firings : List Firing}
  {number : Nat} {rule : Rule} {place : Reference}

/-- Nothing that a rule sets or reads at a node has changed. -/
structure Untouched (rule : Rule) (place : Reference) (before after : AnswerTree) : Prop where
  field : after.held rule.effect.field place = before.held rule.effect.field place
  answers : ∀ read, rule.expression.Reads before place read →
    after.held .answer read = before.held .answer read

theorem Untouched.current (untouched : Untouched rule place before.tree after.tree)
    (course : engine.Course before firings after) (sound : engine.IsSound now)
    (kept : rule.effect.isKept = true) (current : engine.Current before.tree rule place) :
    engine.Current after.tree rule place :=
  current.congr (course.held_type place) untouched.field (.inl kept)
    (sound.outcome_congr course.shape untouched.answers)

theorem Spreads.fires_or_silent
    (spreads : engine.Spreads changes fired before firings after) (sound : engine.IsSound now)
    (numbered : before.tree.root.Numbered) (entered : engine.rulebook.rule? number = some rule)
    (noAction : ∀ occasion, rule.effect ≠ .setValue occasion)
    (sole : engine.rulebook.Sole rule.effect.field) (fresh : number ∉ fired)
    (member : place ∈ before.tree.references) (target : place.genericize = rule.target) :
    (∃ firing ∈ firings, firing.number = number ∧ place ∈ firing.found) ∨
      after.tree.held rule.effect.field place = before.tree.held rule.effect.field place ∧
      ∀ read, read.IsLive → rule.isTriggeredBy read = true → read.IsNear place →
        after.tree.held .answer read = before.tree.held .answer read ∧
          ∀ touch ∈ changes, touch.reference ≠ read := by
  have course := spreads.course
  by_cases fires : ∃ firing ∈ firings, firing.number = number ∧ place ∈ firing.found
  · exact .inl fires
  · -- A touch near the node would have made the rule fire there.
    have apart : ∀ touch ∈ changes ++ firings.flatMap (·.touched),
        touch ∈ changes ∨ touch.isAnswer = true → touch.reference.IsLive →
        rule.isTriggeredBy touch.reference = true → ¬ touch.reference.IsNear place := by
      intro touch inTouched cause live triggered near
      rcases spreads.reached entered (Rule.waitsForAnswer_eq_false noAction) fresh touch inTouched
        triggered (cause.imp_right .inl) with ⟨firing, inFirings, rfl, inAnchors⟩
      cases course.rule_eq inFirings entered
      exact fires ⟨firing, inFirings, rfl,
        course.mem_found sound numbered inFirings inAnchors live member target near⟩
    refine .inr ⟨(course.held _ place).resolve_right ?_, fun read live triggered near =>
      ⟨(course.held .answer read).resolve_right ?_, ?_⟩⟩
    · rintro ⟨firing, inFirings, field, inFound, -⟩
      have same := target.symm.trans (course.belongs sound inFirings place inFound)
      exact fires ⟨firing, inFirings,
        (sole entered (course.entered inFirings) rfl field same).symm, inFound⟩
    · rintro ⟨firing, inFirings, field, -, touched⟩
      rw [Effect.touch, if_pos (field_eq_answer_iff.mp field)] at touched
      exact apart (.answer read)
        (List.mem_append_right _ (List.mem_flatMap.mpr ⟨firing, inFirings, touched⟩)) (.inr rfl)
        live triggered near
    · rintro touch inChanges rfl
      exact apart touch (List.mem_append_left _ inChanges) (.inl inChanges) live triggered near

/-- What a spread leaves of a rule that has not fired before: it holds in the
end, or nothing has changed for it, not even near it. -/
theorem Spreads.current_or_untouched
    (spreads : engine.Spreads changes fired before firings after) (sound : engine.IsSound now)
    (numbered : before.tree.root.Numbered) (entered : engine.rulebook.rule? number = some rule)
    (kept : rule.effect.isKept = true) (narrow : rule.IsNarrow)
    (sole : engine.rulebook.Sole rule.effect.field) (fresh : number ∉ fired)
    (member : place ∈ before.tree.references) (target : place.genericize = rule.target) :
    engine.Current after.tree rule place ∨ Untouched rule place before.tree after.tree ∧
      ∀ touch ∈ changes, touch.reference.IsLive → rule.isTriggeredBy touch.reference = true →
        ¬ touch.reference.IsNear place := by
  have noAction := Effect.ne_setValue_of_isKept kept
  rcases spreads.fires_or_silent sound numbered entered noAction sole fresh member target with
    ⟨firing, inFirings, rfl, inFound⟩ | ⟨field, silent⟩
  · cases spreads.course.rule_eq inFirings entered
    exact .inl (spreads.course.current sound spreads.ordered inFirings kept sole inFound)
  · refine .inr ⟨⟨field, fun read reads => ?_⟩, fun touch inChanges live triggered near => ?_⟩
    · rcases narrow.near_of_reads numbered member target reads with ⟨inTree, near⟩
      exact (silent read (AnswerTree.isLive_of_mem numbered inTree).1
        ((sound.bound entered).isTriggeredBy_of_reads noAction target reads) near).1
    · exact (silent touch.reference live triggered near).2 touch inChanges rfl

theorem Spreads.held_of_fired (spreads : engine.Spreads changes fired before firings after)
    (sound : engine.IsSound now) (entered : engine.rulebook.rule? number = some rule)
    (sole : engine.rulebook.Sole rule.effect.field)
    (isFired : number ∈ fired) (target : place.genericize = rule.target) :
    after.tree.held rule.effect.field place = before.tree.held rule.effect.field place := by
  have course := spreads.course
  refine (course.held _ place).resolve_right ?_
  rintro ⟨firing, inFirings, field, inFound, -⟩
  have same := target.symm.trans (course.belongs sound inFirings place inFound)
  have equal := sole entered (course.entered inFirings) rfl field same
  exact spreads.fresh firing inFirings (equal ▸ isFired)

theorem Spreads.untouched_of_fired (spreads : engine.Spreads changes fired before firings after)
    (sound : engine.IsSound now) (entered : engine.rulebook.rule? number = some rule)
    (sole : engine.rulebook.Sole rule.effect.field)
    (isFired : number ∈ fired) (target : place.genericize = rule.target)
    (silent : ∀ read, .answer read ∈ firings.flatMap (·.touched) →
      ¬ rule.expression.Reads before.tree place read) :
    Untouched rule place before.tree after.tree := by
  refine ⟨spreads.held_of_fired sound entered sole isFired target, fun read reads =>
    (spreads.course.held .answer read).resolve_right ?_⟩
  rintro ⟨firing, inFirings, field, -, touched⟩
  rw [Effect.touch, if_pos (field_eq_answer_iff.mp field)] at touched
  exact silent read (List.mem_flatMap.mpr ⟨firing, inFirings, touched⟩) reads

end Spreads

end Engine

end ReactiveForm
