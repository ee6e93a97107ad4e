import ReactiveForm.Proofs.Counterparts

/-! Rules that hold, and places that are still to be looked at. When a series
gets a member more or less, a rule still holds at a node, or something that it
reads there is new, gone or has got another number. Changes that spread from
such places settle it. -/

namespace ReactiveForm.Engine

/-- A rule that has to hold at a node, reads only near nodes, and shares what it
sets with no other rule. -/
structure Duty (engine : Engine) (number : Nat) (rule : Rule) (place : Reference) : Prop where
  entered : engine.rulebook.rule? number = some rule
  kept : rule.effect.isKept = true
  narrow : rule.IsNarrow
  sole : engine.rulebook.Sole rule.effect.field
  target : place.genericize = rule.target

def IsAccounted (engine : Engine) (tree : AnswerTree) (rule : Rule) (place : Reference)
    (awaited : List Reference) : Prop :=
  engine.Current tree rule place ∨
    ∃ read ∈ awaited, read.IsLive ∧ rule.isTriggeredBy read = true ∧ read.IsNear place

/-- A rule is accounted for at a node, or the node still holds what it held in one
of the trees in which the rule was passed over. -/
def IsTraced (engine : Engine) (tree : AnswerTree) (rule : Rule) (place : Reference)
    (awaited : List Reference) (missed : AnswerTree → Prop) : Prop :=
  engine.IsAccounted tree rule place awaited ∨ ∃ earlier, missed earlier ∧
    tree.held rule.effect.field place = earlier.held rule.effect.field place

variable {engine : Engine} {now : DateTime} {number : Nat} {rule : Rule} {place : Reference}

theorem IsAccounted.mono {tree : AnswerTree} {awaited more : List Reference}
    (accounted : engine.IsAccounted tree rule place awaited) (subset : awaited ⊆ more) :
    engine.IsAccounted tree rule place more :=
  accounted.imp_right fun ⟨read, member, reads⟩ => ⟨read, subset member, reads⟩

theorem IsTraced.mono {tree : AnswerTree} {awaited more : List Reference}
    {missed : AnswerTree → Prop} (traced : engine.IsTraced tree rule place awaited missed)
    (subset : awaited ⊆ more) : engine.IsTraced tree rule place more missed :=
  traced.imp_left fun accounted => accounted.mono subset

namespace Duty

theorem awaits (duty : engine.Duty number rule place) (sound : engine.IsSound now)
    {tree : AnswerTree} (numbered : tree.root.Numbered) (member : place ∈ tree.references)
    {read : Reference} (reads : rule.expression.Reads tree place read) :
    read ∈ tree.references ∧ read.IsLive ∧ rule.isTriggeredBy read = true ∧ read.IsNear place := by
  rcases duty.narrow.near_of_reads numbered member duty.target reads with ⟨inTree, near⟩
  exact ⟨inTree, (AnswerTree.isLive_of_mem numbered inTree).1,
    (sound.bound duty.entered).isTriggeredBy_of_reads
      (Effect.ne_setValue_of_isKept duty.kept) duty.target reads, near⟩

/-! Growth. -/

section Growth

variable {gap : Gap} {small big : AnswerTree}

theorem target_move (duty : engine.Duty number rule place) :
    engine.Duty number rule (gap.move place) :=
  ⟨duty.entered, duty.kept, duty.narrow, duty.sole, Gap.genericize_move.trans duty.target⟩

theorem evaluate_move_or (duty : engine.Duty number rule place) (sound : engine.IsSound now)
    (grows : small.Grows gap big) (member : place ∈ small.references)
    (follows : ∀ look ∈ rule.expression.looks, ∃ found, look.nodes small place = .ok found)
    (followsThere : ∀ look ∈ rule.expression.looks, ∃ found,
      look.nodes big (gap.move place) = .ok found) :
    engine.evaluator big rule.expression (gap.move place) =
        engine.evaluator small rule.expression place ∨
      (∃ read ∈ big.references, (∃ below, read.steps = gap.member.steps ++ below) ∧
        read.IsLive ∧ rule.isTriggeredBy read = true ∧ read.IsNear (gap.move place)) ∨
      ∃ other, gap.position ≤ other ∧ gap.sibling other ∈ small.references ∧
        (gap.sibling other).IsLive ∧ rule.isTriggeredBy (gap.sibling other) = true ∧
        (gap.sibling other).IsNear place := by
  by_cases new : ∃ read, rule.expression.Reads big (gap.move place) read ∧
      ∃ below, read.steps = gap.member.steps ++ below
  · rcases new with ⟨read, reads, inside⟩
    rcases duty.target_move.awaits sound grows.bigNumbered (grows.move_mem member) reads with
      ⟨inBig, live, triggered, near⟩
    exact .inr (.inl ⟨read, inBig, inside, live, triggered, near⟩)
  by_cases shifted : ∃ other, gap.position ≤ other ∧
      rule.expression.Reads small place (gap.sibling other)
  · rcases shifted with ⟨other, behind, reads⟩
    exact .inr (.inr ⟨other, behind, duty.awaits sound grows.smallNumbered member reads⟩)
  · left
    rw [sound.evaluator]
    exact duty.narrow.evaluate_move grows now member follows followsThere
      (fun read reads inside => new ⟨read, reads, inside⟩)
      fun other behind reads => shifted ⟨other, behind, reads⟩

theorem isAccounted_of_grown (duty : engine.Duty number rule place) (sound : engine.IsSound now)
    (grows : small.Grows gap big) (member : place ∈ small.references)
    (follows : ∀ look ∈ rule.expression.looks, ∃ found, look.nodes small place = .ok found)
    (followsThere : ∀ look ∈ rule.expression.looks, ∃ found,
      look.nodes big (gap.move place) = .ok found)
    {awaited : List Reference}
    (inside : ∀ read ∈ big.references, (∃ below, read.steps = gap.member.steps ++ below) →
      read ∈ awaited)
    (shifted : ∀ other, gap.position < other → gap.sibling other ∈ big.references →
      gap.sibling other ∈ awaited)
    (current : engine.Current small rule place) :
    engine.IsAccounted big rule (gap.move place) awaited := by
  rcases duty.evaluate_move_or sound grows member follows followsThere with
    same | ⟨read, inBig, new, reads⟩ | ⟨other, behind, inSmall, live, triggered, near⟩
  · exact .inl (current.congr (grows.held _ _ member) (grows.held _ _ member) (.inl duty.kept) same)
  · exact .inr ⟨read, inside read inBig new, reads⟩
  · have moved : gap.move (gap.sibling other) = gap.sibling (other + 1) := Gap.move_sibling behind
    refine .inr ⟨gap.move (gap.sibling other), ?_, Gap.isLive_move live, ?_,
      Gap.isNear_move.mpr near⟩
    · have inBig := grows.move_mem inSmall
      rw [moved] at inBig ⊢
      exact shifted (other + 1) (by omega) inBig
    · rw [← triggered]
      exact (sound.bound duty.entered).isTriggeredBy_congr Gap.genericize_move

theorem isAccounted_of_shrunk (duty : engine.Duty number rule place) (sound : engine.IsSound now)
    (grows : small.Grows gap big) (member : place ∈ small.references)
    (follows : ∀ look ∈ rule.expression.looks, ∃ found, look.nodes small place = .ok found)
    (followsThere : ∀ look ∈ rule.expression.looks, ∃ found,
      look.nodes big (gap.move place) = .ok found)
    {awaited : List Reference}
    (inside : ∀ read ∈ big.references, (∃ below, read.steps = gap.member.steps ++ below) →
      read ∈ awaited)
    (shifted : ∀ other, gap.position ≤ other → gap.sibling other ∈ small.references →
      gap.sibling other ∈ awaited)
    (current : engine.Current big rule (gap.move place)) :
    engine.IsAccounted small rule place awaited := by
  rcases duty.evaluate_move_or sound grows member follows followsThere with
    same | ⟨read, inBig, ⟨below, new⟩, live, triggered, near⟩ | ⟨other, behind, inSmall, reads⟩
  · exact .inl (current.congr (grows.held _ _ member).symm (grows.held _ _ member).symm
      (.inl duty.kept) same.symm)
  · -- A node near what was removed has not moved.
    rw [Gap.move_eq_self new near] at near
    exact .inr ⟨read, inside read inBig ⟨below, new⟩, live, triggered, near⟩
  · exact .inr ⟨gap.sibling other, shifted other behind inSmall, reads⟩

end Growth

end Duty

/-! Spreading. -/

section Spreads

variable {changes : List Touch} {fired : List Nat} {before after : Pass} {firings : List Firing}
  {awaited : List Reference} {missed : AnswerTree → Prop}

theorem Spreads.isAccounted (spreads : engine.Spreads changes fired before firings after)
    (sound : engine.IsSound now) (duty : engine.Duty number rule place)
    (numbered : before.tree.root.Numbered) (member : place ∈ before.tree.references)
    (fresh : number ∉ fired)
    (accounted : engine.IsAccounted before.tree rule place
      (changes.map Touch.reference ++ awaited)) :
    engine.IsAccounted after.tree rule place awaited := by
  rcases spreads.current_or_untouched sound numbered duty.entered duty.kept duty.narrow duty.sole
    fresh member duty.target with current | ⟨untouched, apart⟩
  · exact .inl current
  · rcases accounted with current | ⟨read, inAwaited, live, triggered, near⟩
    · exact .inl (untouched.current spreads.course sound duty.kept current)
    · rcases List.mem_append.mp inAwaited with inChanges | inRest
      · rcases List.mem_map.mp inChanges with ⟨touch, isChange, rfl⟩
        exact absurd near (apart touch isChange live triggered)
      · exact .inr ⟨read, inRest, live, triggered, near⟩

theorem Spreads.isTraced (spreads : engine.Spreads changes fired before firings after)
    (sound : engine.IsSound now) (duty : engine.Duty number rule place)
    (numbered : before.tree.root.Numbered) (member : place ∈ before.tree.references)
    (fresh : number ∉ fired)
    (traced : engine.IsTraced before.tree rule place (changes.map Touch.reference ++ awaited)
      missed) :
    engine.IsTraced after.tree rule place awaited missed := by
  rcases traced with accounted | ⟨earlier, isMissed, kept⟩
  · exact .inl (spreads.isAccounted sound duty numbered member fresh accounted)
  · rcases spreads.current_or_untouched sound numbered duty.entered duty.kept duty.narrow duty.sole
      fresh member duty.target with current | ⟨untouched, -⟩
    · exact .inl (.inl current)
    · exact .inr ⟨earlier, isMissed, untouched.field.trans kept⟩

theorem Spreads.isTraced_of_fired (spreads : engine.Spreads changes fired before firings after)
    (sound : engine.IsSound now) (duty : engine.Duty number rule place) (isFired : number ∈ fired)
    (passedOver : ∀ read, .answer read ∈ firings.flatMap (·.touched) →
      rule.expression.Reads before.tree place read → missed before.tree)
    (traced : engine.IsTraced before.tree rule place awaited missed) :
    engine.IsTraced after.tree rule place awaited missed := by
  have kept := spreads.held_of_fired sound duty.entered duty.sole isFired duty.target
  rcases traced with accounted | ⟨earlier, isMissed, same⟩
  · by_cases isMissed : missed before.tree
    · exact .inr ⟨before.tree, isMissed, kept⟩
    · have untouched := spreads.untouched_of_fired sound duty.entered duty.sole isFired duty.target
        fun read written reads => isMissed (passedOver read written reads)
      exact .inl (accounted.imp_left (untouched.current spreads.course sound duty.kept))
  · exact .inr ⟨earlier, isMissed, kept.trans same⟩

end Spreads

/-! A new member. -/

def fillsIn (member : Reference) (rule : Rule) : Bool :=
  !rule.waitsForAnswer && member.genericize.covers rule.target

theorem foldl_fireForMember (engine : Engine) (member : Reference) (numbers : List Nat)
    (progress : Pass × List Nat) :
    (numbers.foldl (engine.fireForMember member) progress).1 =
      numbers.foldl (engine.fireIf (fillsIn member) [member]) progress.1 := by
  induction numbers generalizing progress with
  | nil => rfl
  | cons number numbers induction =>
      rw [List.foldl_cons, List.foldl_cons, induction]
      congr 1
      rw [fireForMember, fireIf]
      cases engine.rulebook.rule? number with
      | none => rfl
      | some rule => exact apply_ite Prod.fst _ _ _

theorem IsSound.filled_isAccounted (sound : engine.IsSound now) {member : Reference}
    (live : member.IsLive) {before after : Pass} {firings : List Firing}
    (round : engine.Round (fillsIn member) [member] engine.dependencies.order before firings after)
    (numbered : before.tree.root.Numbered) (duty : engine.Duty number rule place)
    (inTree : place ∈ before.tree.references) {awaited : List Reference}
    (inside : ∀ read ∈ before.tree.references, (∃ below, read.steps = member.steps ++ below) →
      read ∈ awaited)
    (accounted : (∃ below, place.steps = member.steps ++ below) ∨
      engine.IsAccounted before.tree rule place awaited) :
    engine.IsAccounted after.tree rule place awaited := by
  -- Rules fire only inside the member.
  have within : ∀ firing ∈ firings, ∀ other ∈ firing.found,
      other ∈ before.tree.references ∧ ∃ below, other.steps = member.steps ++ below := by
    intro firing inFirings other inFound
    rcases round.anchored firing inFirings with ⟨anchors, chosen⟩
    have located := round.course.located inFirings
    rw [anchors] at located
    rcases (mem_targets (by simp) located).2 other inFound with
      ⟨anchor, isMember, near, locatedNear, inNear⟩
    cases List.mem_singleton.mp isMember
    rcases (mem_targetsNear numbered
      (sound.bound (round.course.entered inFirings)) live locatedNear).mp inNear with
      ⟨otherInTree, target, isNear⟩
    rw [fillsIn, Bool.and_eq_true, ← target] at chosen
    exact ⟨otherInTree, Reference.inside_of_covers chosen.2 isNear⟩
  by_cases inMember : ∃ below, place.steps = member.steps ++ below
  · rcases inMember with ⟨below, steps⟩
    have absolute := (AnswerTree.isLive_of_mem numbered inTree).1.absolute
    have chosen : fillsIn member rule = true := by
      rw [fillsIn, Effect.waitsForAnswer_of_isKept duty.kept, ← duty.target,
        Reference.covers_of_inside live.absolute absolute steps]
      rfl
    rcases round.complete number
      (sound.orders.mem_order.mpr (Rulebook.rule?_eq_some_lt duty.entered)) rule duty.entered chosen
      with ⟨firing, inFirings, rfl⟩
    cases round.course.rule_eq inFirings duty.entered
    have anchored : member ∈ firing.anchors := by simp [(round.anchored firing inFirings).1]
    have inFound := round.course.mem_found sound numbered inFirings anchored live inTree duty.target
      (Reference.near_of_inside steps)
    exact .inl (round.course.current sound (ordered_of_sublist sound round.ordered) inFirings
      duty.kept duty.sole inFound)
  · -- Outside, only what is read inside may have changed.
    rcases accounted.resolve_left inMember with current | awaits
    · by_cases reads : ∃ read, rule.expression.Reads before.tree place read ∧
          ∃ below, read.steps = member.steps ++ below
      · rcases reads with ⟨read, reads, isInside⟩
        rcases duty.awaits sound numbered inTree reads with ⟨readInTree, others⟩
        exact .inr ⟨read, inside read readInTree isInside, others⟩
      · have untouched : Untouched rule place before.tree after.tree := by
          refine ⟨(round.course.held _ place).resolve_right ?_, fun read isRead =>
            (round.course.held .answer read).resolve_right ?_⟩
          · rintro ⟨firing, inFirings, -, inFound, -⟩
            exact inMember (within firing inFirings place inFound).2
          · rintro ⟨firing, inFirings, -, inFound, -⟩
            exact reads ⟨read, isRead, (within firing inFirings read inFound).2⟩
        exact .inl (untouched.current round.course sound duty.kept current)
    · exact .inr awaits

end ReactiveForm.Engine
