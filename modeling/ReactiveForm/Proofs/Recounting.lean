import ReactiveForm.Proofs.Tallies
import ReactiveForm.Proofs.Upholding

/-! Tallies while a form is edited. Once a node shows the right amount in a tree of some
shape, no rule that fires spoils it; and it does show the right amount as soon as the
tally has fired near it. After a change of a series the tally fires wherever the amount
may have changed: in the new member, near the members with new numbers, and near what was
added or taken away. Other rules may fail on the way. -/

namespace ReactiveForm

theorem foldl_of_mem {σ α : Type} {step : σ → α → σ} (before after : σ → Prop) {list : List α}
    {element : α} (member : element ∈ list)
    (keeps : ∀ state, before state → ∀ other ∈ list, other ≠ element → before (step state other))
    (hits : ∀ state, before state → after (step state element))
    (stays : ∀ state, after state → ∀ other ∈ list, after (step state other)) {state : σ}
    (held : before state) : after (list.foldl step state) := by
  rcases List.eq_append_cons_of_mem member with ⟨early, late, rfl, first⟩
  rw [List.foldl_append, List.foldl_cons]
  apply List.foldlRecOn late step
  · apply hits
    refine List.foldlRecOn early step held fun state held other inEarly => ?_
    exact keeps state held other (List.mem_append_left _ inEarly) fun same =>
      first (same ▸ inEarly)
  · intro state settled other inLate
    exact stays state settled other (List.mem_append_right _ (List.mem_cons_of_mem _ inLate))

def Report.Spares (number : Nat) (report : Report) : Prop :=
  ∀ failure ∈ report.failures, failure.rule ≠ number

instance (number : Nat) (report : Report) : Decidable (report.Spares number) :=
  inferInstanceAs (Decidable (∀ failure ∈ report.failures, failure.rule ≠ number))

theorem Pass.spares_noteFailure {pass : Pass} {number other : Nat} {target : Reference}
    {reason : String} : (pass.noteFailure other target reason).report.Spares number ↔
      pass.report.Spares number ∧ other ≠ number := by
  simp [Report.Spares, Pass.noteFailure, or_imp, forall_and]

namespace Engine

/-! What is left by every rule that fires. -/

def Bears (engine : Engine) (holds : Pass → Prop) : Prop :=
  ∀ ⦃pass : Pass⦄ ⦃number : Nat⦄ ⦃rule : Rule⦄ (anchors : List Reference),
    engine.rulebook.rule? number = some rule → holds pass →
    holds (engine.fire number rule anchors pass).1

namespace Bears

variable {engine : Engine} {holds : Pass → Prop}

theorem fireInitially (bears : engine.Bears holds) {pass : Pass} (held : holds pass)
    (number : Nat) : holds (engine.fireInitially pass number) :=
  @foldl_fireInitially engine holds [number] (fun _ entered held => bears [] entered held) pass held

theorem confines (bears : engine.Bears holds) :
    engine.Confines (fun _ => True) holds fun _ => True :=
  fun _ _ _ _ _ entered _ _ held => ⟨bears _ entered held, fun _ _ => trivial⟩

theorem turn (bears : engine.Bears holds) (origin : Reference) {spread : Spread}
    (held : holds spread.pass) (number : Nat) : holds (engine.turn origin spread number).pass :=
  (bears.confines.turn trivial trivial held fun _ _ => trivial).1

theorem propagate (bears : engine.Bears holds) (changes : List Touch) (fired : List Nat)
    {pass : Pass} (held : holds pass) : holds (engine.propagate changes fired pass).1 :=
  bears.confines.propagate (fun _ _ => trivial) (fun _ _ => trivial) fired held

theorem carries (bears : engine.Bears holds)
    (told : ∀ {pass : Pass} (event : Event), holds pass → holds (pass.tell event)) :
    engine.Carries holds fun _ => True :=
  bears.confines.carries (fun _ _ _ held => told _ held) fun _ _ _ _ => trivial

end Bears

variable {engine : Engine} {number : Nat} {rule : Rule} {tally : Tally} {base : AnswerTree}
  {place : Reference}

theorem bears_sameShape (engine : Engine) (base : AnswerTree) :
    engine.Bears (·.tree.SameShape base) := by
  intro pass number rule anchors entered held
  exact ((engine.keeps_sameShape base).sustains.fire trivial entered held fun _ _ _ _ =>
    trivial).1

/-- A calculation that notes a tally: hidden answers are kept, and no other rule writes
what it writes. -/
structure Tallies (engine : Engine) (number : Nat) (rule : Rule) (tally : Tally) : Prop where
  wired : engine.IsWired
  retain : engine.settings.hiddenAnswers = .retain
  evaluator : ∃ now, engine.evaluator = Expression.evaluator now
  entered : engine.rulebook.rule? number = some rule
  calculates : rule.effect = .calculate
  notes : rule.expression = tally.expression
  apart : tally.IsApart rule.target
  alone : ∀ {other : Nat} {another : Rule}, engine.rulebook.rule? other = some another →
    another.effect.writesAnswer = true → another.target = rule.target → other = number

structure IsExact (number : Nat) (tally : Tally) (base : AnswerTree) (place : Reference)
    (pass : Pass) : Prop where
  shape : pass.tree.SameShape base
  shown : pass.report.Spares number → tally.Shown pass.tree place

namespace Tallies

variable (tallies : engine.Tallies number rule tally) (numbered : base.root.Numbered)
  (member : place ∈ base.references) (belongs : place.genericize = rule.target)

include tallies

theorem waitsForAnswer : rule.waitsForAnswer = false :=
  Rule.waitsForAnswer_eq_false (by simp [tallies.calculates])

include numbered member in
theorem fireAt_settles {progress : Pass × List Touch} (shape : progress.1.tree.SameShape base) :
    IsExact number tally base place (engine.fireAt number rule progress place).1 := by
  rw [fireAt]
  split
  next after more applied =>
    have done := apply_done tallies.retain applied
    rcases done.settled with ⟨node, found, settled⟩
    rcases tallies.evaluator with ⟨now, evaluator⟩
    have inTree : place ∈ progress.1.tree.references := by rwa [shape.references]
    rw [tallies.calculates] at settled
    rcases settled with ⟨result, answer, evaluated, settled⟩
    rw [evaluator, tallies.notes] at evaluated
    rcases tally.evaluate_ok (shape.numbered numbered) inTree tallies.apart evaluated with
      ⟨amount, isAmount, rfl⟩
    refine ⟨done.shape.trans shape, fun _ => ⟨amount, ?_, node, found, _, answer, rfl, settled⟩⟩
    rw [Tally.amount?_sameShape done.shape, isAmount]
  next reason _ =>
    refine ⟨shape, fun spared => ?_⟩
    exact absurd rfl (Pass.spares_noteFailure.mp spared).2

include numbered member belongs in
theorem fireAt_exact {other : Nat} {another : Rule}
    (entered : engine.rulebook.rule? other = some another) {progress : Pass × List Touch}
    (exact_ : IsExact number tally base place progress.1) {target : Reference}
    (isTarget : target.genericize = another.target) :
    IsExact number tally base place (engine.fireAt other another progress target).1 := by
  by_cases own : target = place ∧ other = number
  · rcases own with ⟨rfl, rfl⟩
    cases tallies.entered.symm.trans entered
    exact tallies.fireAt_settles numbered member exact_.shape
  rw [fireAt]
  split
  next after more applied =>
    have done := apply_done tallies.retain applied
    have apart : place ≠ target ∨ Field.answer ≠ another.effect.field := by
      by_contra both
      rw [not_or, not_not, not_not] at both
      rcases both with ⟨rfl, writes⟩
      refine own ⟨rfl, tallies.alone entered (field_eq_answer_iff.mp writes.symm) ?_⟩
      rw [← isTarget, belongs]
    refine ⟨done.shape.trans exact_.shape, fun spared => ?_⟩
    rw [Report.Spares, done.failures] at spared
    refine (exact_.shown spared).congr (Tally.amount?_sameShape done.shape)
      (done.frame _ _ (.inr ?_)) (done.frame _ _ apart)
    cases another.effect <;> exact Field.noConfusion
  next reason _ =>
    refine ⟨exact_.shape, fun spared => ?_⟩
    exact exact_.shown (Pass.spares_noteFailure.mp spared).1

include numbered member belongs in
theorem bears_isExact : engine.Bears (IsExact number tally base place) := by
  intro pass other another anchors entered held
  have begun : IsExact number tally base place (pass.noteFired other) := ⟨held.shape, held.shown⟩
  rw [fire]
  split
  next error _ =>
    refine ⟨held.shape, fun spared => ?_⟩
    exact held.shown (Pass.spares_noteFailure.mp spared).1
  next found located =>
    have belong := genericize_of_mem_targets (tallies.wired.bound entered) located
    exact List.foldlRecOn (motive := fun progress : Pass × List Touch =>
      IsExact number tally base place progress.1) _ _ begun fun progress held target inFound =>
        tallies.fireAt_exact numbered member belongs entered held (belong target inFound)

/-! Where the tally fires. -/

include numbered member belongs in
theorem fire_settles {anchors : List Reference} {pass : Pass}
    (shape : pass.tree.SameShape base)
    (near : anchors = [] ∨ ∃ anchor ∈ anchors, anchor.IsLive ∧ anchor.IsNear place) :
    IsExact number tally base place (engine.fire number rule anchors pass).1 := by
  have bound := tallies.wired.bound tallies.entered
  rw [fire]
  split
  next error _ =>
    refine ⟨shape, fun spared => ?_⟩
    exact absurd rfl (Pass.spares_noteFailure.mp spared).2
  next found located =>
    have located : targets pass.tree rule anchors = .ok found := located
    have numberedToo := shape.numbered numbered
    have inTree : place ∈ pass.tree.references := by rwa [shape.references]
    have inFound : place ∈ found := by
      rcases near with rfl | ⟨anchor, inAnchors, live, isNear⟩
      · exact (mem_targets_nil numberedToo bound located).mpr ⟨inTree, belongs⟩
      · rcases (mem_targets (List.ne_nil_of_mem inAnchors) located).1 anchor inAnchors with
          ⟨list, here, subset⟩
        exact subset ((mem_targetsNear numberedToo bound live here).mpr ⟨inTree, belongs, isNear⟩)
    have belong := genericize_of_mem_targets bound located
    have works (progress : Pass × List Touch) (target : Reference)
        (held : progress.1.tree.SameShape base) :
        (engine.fireAt number rule progress target).1.tree.SameShape base :=
      ((engine.keeps_sameShape base).sustains.fireAt trivial tallies.entered held
        (fun _ _ => trivial) trivial).1
    refine foldl_of_mem (fun progress : Pass × List Touch => progress.1.tree.SameShape base)
      (fun progress => IsExact number tally base place progress.1) inFound ?_ ?_ ?_ ?_
    · exact fun progress held target _ _ => works progress target held
    · exact fun progress held => tallies.fireAt_settles numbered member held
    · exact fun progress held target inFound => tallies.fireAt_exact numbered member belongs
        tallies.entered held (belong target inFound)
    · exact shape

include numbered member belongs in
theorem initial_settles : IsExact number tally base place (engine.initial base) := by
  have inOrder := tallies.wired.orders.mem_order.mpr (Rulebook.rule?_eq_some_lt tallies.entered)
  refine foldl_of_mem (fun pass : Pass => pass.tree.SameShape base)
    (IsExact number tally base place) inOrder ?_ ?_ ?_ (.refl base)
  · exact fun pass held other _ _ => (engine.bears_sameShape base).fireInitially held other
  · intro pass held
    rw [fireInitially, tallies.entered]
    dsimp only
    rw [if_neg (by simp [tallies.waitsForAnswer])]
    exact tallies.fire_settles numbered member belongs held (.inl rfl)
  · exact fun pass held other _ =>
      (tallies.bears_isExact numbered member belongs).fireInitially held other

include numbered member belongs in
theorem propagate_settles {changes : List Touch} {fired : List Nat} {pass : Pass}
    (shape : pass.tree.SameShape base) (fresh : number ∉ fired) {touch : Touch}
    (isChange : touch ∈ changes) (triggered : rule.isTriggeredBy touch.reference = true)
    (live : touch.reference.IsLive) (near : touch.reference.IsNear place) :
    IsExact number tally base place (engine.propagate changes fired pass).1 := by
  cases changes with
  | nil => cases isChange
  | cons first changes =>
      have affected := (directlyTriggered_reaches tallies.wired.indexed tallies.wired.orders
        (first :: changes)).seed number ((mem_directlyTriggered tallies.wired.indexed).mpr
          ⟨touch, isChange, rule, tallies.entered, triggered⟩)
      refine foldl_of_mem (fun spread : Spread => spread.pass.tree.SameShape base ∧
          touch ∈ spread.touched ∧ number ∉ spread.fired)
        (fun spread => IsExact number tally base place spread.pass) affected ?_ ?_ ?_
        ⟨shape, isChange, fresh⟩
      · rintro spread ⟨held, touched, unfired⟩ other - apart
        refine ⟨(engine.bears_sameShape base).turn first.reference held other, ?_⟩
        rcases engine.turn_cases first.reference spread other with
          ⟨same, -⟩ | ⟨another, -, -, -, turned⟩
        · rw [same]
          exact ⟨touched, unfired⟩
        · rw [turned]
          exact ⟨List.mem_append_left _ touched, by simp [unfired, Ne.symm apart]⟩
      · rintro spread ⟨held, touched, unfired⟩
        rcases engine.turn_cases first.reference spread number with
          ⟨-, already | idle⟩ | ⟨another, -, entered, -, turned⟩
        · exact absurd already unfired
        · have waits := (idle rule tallies.entered).1
          rw [tallies.waitsForAnswer] at waits
          cases waits
        · cases tallies.entered.symm.trans entered
          rw [turned]
          exact tallies.fire_settles numbered member belongs held (.inr ⟨touch.reference,
            mem_anchorsOr tallies.waitsForAnswer touched triggered, live, near⟩)
      · exact fun spread held other _ =>
          (tallies.bears_isExact numbered member belongs).turn first.reference held other

/-! Changes of series. -/

omit tallies in
theorem carries_sameShape (engine : Engine) (base : AnswerTree) :
    engine.Carries (·.tree.SameShape base) fun _ => True :=
  (engine.bears_sameShape base).carries fun _ held => held

include numbered member belongs in
theorem carries_isExact : engine.Carries (IsExact number tally base place) fun _ => True :=
  (tallies.bears_isExact numbered member belongs).carries fun _ held => ⟨held.shape, held.shown⟩

include numbered member belongs in
theorem filledIn_settles {inserted : Reference} (live : inserted.IsLive) {below : List Step}
    (inside : place.steps = inserted.steps ++ below) :
    IsExact number tally base place (engine.filledIn base inserted) := by
  have inOrder := tallies.wired.orders.mem_order.mpr (Rulebook.rule?_eq_some_lt tallies.entered)
  have absolute := (AnswerTree.isLive_of_mem numbered member).1.absolute
  have chosen : fillsIn inserted rule = true := by
    rw [fillsIn, tallies.waitsForAnswer, ← belongs,
      Reference.covers_of_inside live.absolute absolute inside]
    rfl
  have step (holds : Pass → Prop) (bears : engine.Bears holds) (other : Nat)
      {progress : Pass × List Nat} (held : holds progress.1) :
      holds (engine.fireForMember inserted progress other).1 := by
    rw [fireForMember]
    split
    · exact held
    next entered =>
      split
      · exact bears _ entered held
      · exact held
  apply (tallies.carries_isExact numbered member belongs).summarize
  refine foldl_of_mem (fun progress : Pass × List Nat => progress.1.tree.SameShape base)
    (fun progress => IsExact number tally base place progress.1) inOrder ?_ ?_ ?_ (.refl base)
  · exact fun progress held other _ _ => step _ (engine.bears_sameShape base) other held
  · intro progress held
    rw [fireForMember, tallies.entered]
    dsimp only
    rw [fillsIn] at chosen
    rw [if_pos chosen]
    exact tallies.fire_settles numbered member belongs held
      (.inr ⟨inserted, List.mem_singleton_self _, live, Reference.near_of_inside inside⟩)
  · exact fun progress held other _ =>
      step _ (tallies.bears_isExact numbered member belongs) other held

include numbered member belongs in
theorem repairMembers_settles {change : SeriesChange} {members : List Reference} {pass : Pass}
    (shape : pass.tree.SameShape base) {sibling : Reference} (isMember : sibling ∈ members)
    (triggered : rule.isTriggeredBy sibling = true) (live : sibling.IsLive)
    (near : sibling.IsNear place) :
    IsExact number tally base place (members.foldl (engine.repairMember change) pass) := by
  have carries := tallies.carries_isExact numbered member belongs
  refine foldl_of_mem (fun pass : Pass => pass.tree.SameShape base)
    (IsExact number tally base place) isMember ?_ ?_ ?_ shape
  · exact fun pass held other _ _ =>
      (carries_sameShape engine base).repairMember change held trivial
  · intro pass held
    rw [repairMember]
    apply carries.foldl_repairNode change fun _ _ => trivial
    apply carries.summarize
    exact tallies.propagate_settles numbered member belongs held List.not_mem_nil
      (List.mem_singleton_self _) triggered live near
  · exact fun pass held other _ => carries.repairMember change held trivial

/-! Operations. -/

omit tallies in
theorem everywhere_of_isExact {after : Pass} (shape : after.tree.SameShape base)
    (settled : rule.Everywhere base fun place => IsExact number tally base place after)
    (spared : after.report.Spares number) :
    rule.Everywhere after.tree (tally.Shown after.tree) := by
  intro place member belongs
  rw [shape.references] at member
  exact (settled place member belongs).shown spared

theorem initial_shown {tree : AnswerTree} (numbered : tree.root.Numbered)
    (spared : (engine.initial tree).report.Spares number) :
    rule.Everywhere (engine.initial tree).tree (tally.Shown (engine.initial tree).tree) :=
  everywhere_of_isExact ((engine.keeps_sameShape tree).initial (.refl _))
    (fun _ member belongs => tallies.initial_settles numbered member belongs) spared

theorem setAnswer_shown {tree : AnswerTree} (numbered : tree.root.Numbered)
    (shown : rule.Everywhere tree (tally.Shown tree)) {reference : Reference}
    {value : Option Value} (free : rule.target ≠ reference.genericize) {after : Pass}
    (done : engine.setAnswer tree reference value = .ok after)
    (spared : after.report.Spares number) :
    rule.Everywhere after.tree (tally.Shown after.tree) := by
  refine everywhere_of_isExact ((engine.keeps_sameShape tree).setAnswer (.refl _) trivial done)
    (fun place member belongs => ?_) spared
  have shownHere := shown place member belongs
  rcases exists_of_setAnswer done with ⟨-, node, current, -, -, rfl⟩
  split
  next => exact ⟨.refl _, fun _ => shownHere⟩
  next =>
    apply (tallies.bears_isExact numbered member belongs).propagate
    have shape := edited_sameShape tree reference node.facts.answer current
    have apart : place ≠ reference := fun same => free (by rw [← belongs, same])
    exact ⟨shape, fun _ => shownHere.congr (Tally.amount?_sameShape shape)
      (held_edited _ _ _ _ (.inr apart)) (held_edited _ _ _ _ (.inr apart))⟩

omit tallies in
theorem awaits (tallies : engine.Tallies number rule tally) {tree : AnswerTree}
    (numbered : tree.root.Numbered) (member : place ∈ tree.references)
    (belongs : place.genericize = rule.target) {read : Reference}
    (readMember : read ∈ tree.references) (regards : tally.Regards place read) :
    read.IsLive ∧ rule.isTriggeredBy read = true ∧ read.IsNear place :=
  ⟨(AnswerTree.isLive_of_mem numbered readMember).1,
    Tally.isTriggeredBy_of_regards (tallies.wired.bound tallies.entered) tallies.calculates
      tallies.notes tallies.apart (AnswerTree.isLive_of_mem numbered member).1.absolute belongs
      regards,
    Tally.isNear_of_regards numbered tallies.apart member belongs readMember regards⟩

theorem insertMember_shown {tree : AnswerTree} (orderly : tree.root.IsOrderly)
    (shown : rule.Everywhere tree (tally.Shown tree)) {parent inserted : Reference}
    {name : String} {position : Nat} {after : Pass}
    (done : engine.insertMember tree parent name position = .ok (after, inserted)) :
    after.tree.root.IsOrderly ∧ (after.report.Spares number →
      rule.Everywhere after.tree (tally.Shown after.tree)) := by
  rcases insertMember_ok done with ⟨grown, repaired, outside, insert, isRepaired, rfl⟩
  rcases AnswerTree.insert_grows orderly insert with ⟨gap, rfl, rfl, rfl, grows, grownOrderly⟩
  have numbered := grownOrderly.numbered
  have carriesShape := carries_sameShape engine grown
  have live : gap.member.IsLive := Gap.isLive_member (grows.parent.isLive outside)
  have filledShape : (engine.filledIn grown gap.member).tree.SameShape grown :=
    carriesShape.summarize _ _ _ (carriesShape.foldl_fireForMember trivial _ (.refl grown))
  have repairs {holds : Pass → Prop} (carries : engine.Carries holds fun _ => True)
      (held : holds (engine.filledIn grown gap.member)) : holds repaired := by
    rw [isRepaired]
    exact List.foldlRecOn _ _ held fun pass held place _ => carries.repairMember _ held trivial
  have repairedShape : repaired.tree.SameShape grown := repairs carriesShape filledShape
  have shape := carriesShape.insertMember insert (.refl grown) trivial trivial done
  refine ⟨shape.isOrderly grownOrderly, everywhere_of_isExact shape fun place member belongs => ?_⟩
  have carries := tallies.carries_isExact numbered member belongs
  rcases grows.mem_cases member with ⟨old, inTree, rfl⟩ | ⟨below, inside⟩
  · have target : old.genericize = rule.target := by rw [← belongs, Gap.genericize_move]
    rcases tally.amount?_move_or grows tallies.apart inTree with
      same | ⟨read, inGrown, ⟨below, inside⟩, regards⟩ | ⟨other, behind, inSmall, regards⟩
    · -- The amount is the same, and so is the answer.
      have begun : IsExact number tally grown (gap.move old) (.start grown) :=
        ⟨.refl _, fun _ => (shown old inTree target).congr same (grows.held .type old inTree)
          (grows.held .answer old inTree)⟩
      exact carries.insertMember insert begun trivial trivial done
    · -- Something new is counted, and this is told last.
      rcases tallies.awaits numbered member belongs inGrown regards with
        ⟨readLive, triggered, near⟩
      have isChange := AnswerTree.mem_referencesFrom (repairedShape.numbered numbered)
        (by rwa [repairedShape.references]) live.absolute (by simp [Gap.member, Reference.child])
        inside
      exact tallies.propagate_settles numbered member belongs repairedShape List.not_mem_nil
        (List.mem_map_of_mem isChange) triggered readLive near
    · -- The parent has another number, and is repaired.
      rcases tallies.awaits orderly.numbered inTree target inSmall regards with
        ⟨readLive, triggered, near⟩
      have moved : gap.move (gap.sibling other) = gap.sibling (other + 1) := Gap.move_sibling behind
      have inGrown := grows.move_mem inSmall
      have bound := tallies.wired.bound tallies.entered
      have triggeredToo : rule.isTriggeredBy (gap.move (gap.sibling other)) = true := by
        rw [← triggered]
        exact bound.isTriggeredBy_congr Gap.genericize_move
      have liveToo : (gap.move (gap.sibling other)).IsLive := Gap.isLive_move readLive
      have nearToo : (gap.move (gap.sibling other)).IsNear (gap.move old) :=
        Gap.isNear_move.mpr near
      rw [moved] at inGrown triggeredToo liveToo nearToo
      apply carries.spreads [] fun _ _ => trivial
      rw [isRepaired]
      exact tallies.repairMembers_settles numbered member belongs filledShape
        (mem_membersBehind grows grownOrderly filledShape (by omega) inGrown) triggeredToo liveToo
        nearToo
  · refine carries.spreads [] (fun _ _ => trivial) (repairs carries ?_)
    exact tallies.filledIn_settles numbered member belongs live inside

theorem afterRemoval_shown {tree shrunk : AnswerTree} (orderly : tree.root.IsOrderly)
    (shown : rule.Everywhere tree (tally.Shown tree)) {reference parent : Reference}
    {removed : Node} {after : Pass} (taken : tree.remove reference = .ok (shrunk, removed))
    (isParent : reference.parent? = some parent)
    (done : engine.afterRemoval shrunk (some reference) parent removed = .ok after) :
    after.tree.root.IsOrderly ∧ (after.report.Spares number →
      rule.Everywhere after.tree (tally.Shown after.tree)) := by
  rcases afterRemoval_ok done with ⟨position, repaired, index, isRepaired, rfl⟩
  rcases AnswerTree.remove_grows orderly taken with
    ⟨gap, rfl, hasParent, named, placed, found, grows, shrunkOrderly⟩
  rw [isParent] at hasParent
  cases hasParent
  rw [placed] at index
  cases index
  have numbered := shrunkOrderly.numbered
  have carriesShape := carries_sameShape engine shrunk
  have repairedShape : repaired.tree.SameShape shrunk := by
    rw [isRepaired]
    exact List.foldlRecOn (motive := fun pass : Pass => pass.tree.SameShape shrunk) _ _
      (.refl shrunk) fun pass held place _ => carriesShape.repairMember _ held trivial
  have shape := carriesShape.afterRemoval (.refl shrunk) trivial (fun _ _ => trivial) done
  refine ⟨shape.isOrderly shrunkOrderly, everywhere_of_isExact shape fun place member belongs => ?_⟩
  have carries := tallies.carries_isExact numbered member belongs
  have inTree := grows.move_mem member
  have target : (gap.move place).genericize = rule.target := Gap.genericize_move.trans belongs
  rcases tally.amount?_move_or grows tallies.apart member with
    same | ⟨read, inTreeToo, ⟨below, inside⟩, regards⟩ | ⟨other, behind, inShrunk, regards⟩
  · have begun : IsExact number tally shrunk place (.start shrunk) :=
      ⟨.refl _, fun _ => (shown _ inTree target).congr same.symm
        (grows.held .type place member).symm (grows.held .answer place member).symm⟩
    exact carries.afterRemoval begun trivial (fun _ _ => trivial) done
  · -- Something that was counted is gone, and this is told last.
    rcases tallies.awaits orderly.numbered inTree target inTreeToo regards with
      ⟨readLive, triggered, near⟩
    rw [Gap.move_eq_self inside near] at near
    have isChange : read ∈ tree.referencesFrom gap.member :=
      AnswerTree.mem_referencesFrom orderly.numbered inTreeToo grows.parent.absolute
        (by simp [Gap.member, Reference.child]) inside
    rw [AnswerTree.referencesFrom, found] at isChange
    exact tallies.propagate_settles numbered member belongs repairedShape List.not_mem_nil
      (List.mem_map_of_mem isChange) triggered readLive near
  · -- The parent has another number, and is repaired.
    rcases tallies.awaits numbered member belongs inShrunk regards with
      ⟨readLive, triggered, near⟩
    apply carries.spreads [] fun _ _ => trivial
    rw [isRepaired, named]
    exact tallies.repairMembers_settles numbered member belongs (.refl shrunk)
      (mem_membersFrom shrunkOrderly grows.nonempty grows.parent behind inShrunk) triggered readLive
      near

omit tallies in
theorem withEvaluator (tallies : engine.Tallies number rule tally) (now : DateTime) :
    { engine with evaluator := Expression.evaluator now }.Tallies number rule tally :=
  { tallies with
    wired := ⟨tallies.wired.bound, tallies.wired.indexed, tallies.wired.orders⟩
    evaluator := ⟨now, rfl⟩ }

end Tallies

end Engine

/-! Runs of a form. -/

namespace Form

/-- A form after it has been filled in and after any requests, each at a time of its own.
No answer at a node of the target has been changed, and the rule of that number has not
failed. -/
inductive Tallied (form : Form) (number : Nat) (target : Reference) : Form → Prop where
  | initial (spared : form.initial.report.Spares number) :
      Tallied form number target form.initial.form
  | perform {current : Form} {request : Request} {outcome : Outcome}
      (tallied : Tallied form number target current)
      (free : ∀ reference value, request = .setAnswer reference value →
        target ≠ reference.genericize)
      (done : current.perform request = .ok outcome) (spared : outcome.report.Spares number) :
      Tallied form number target outcome.form
  | evaluate {current : Form} (tallied : Tallied form number target current) (now : DateTime) :
      Tallied form number target (current.withEvaluator (Expression.evaluator now))

structure Notes (form : Form) (number : Nat) (rule : Rule) (tally : Tally) : Prop where
  tallies : form.engine.Tallies number rule tally
  orderly : form.tree.root.IsOrderly
  shown : rule.Everywhere form.tree (tally.Shown form.tree)

variable {form current : Form} {number : Nat} {rule : Rule} {tally : Tally}

theorem Notes.perform (notes : current.Notes number rule tally) {request : Request}
    (free : ∀ reference value, request = .setAnswer reference value →
      rule.target ≠ reference.genericize) {outcome : Outcome}
    (done : current.perform request = .ok outcome) (spared : outcome.report.Spares number) :
    outcome.form.Notes number rule tally := by
  rcases notes with ⟨tallies, orderly, shown⟩
  have engine := perform_engine done
  suffices both : outcome.form.tree.root.IsOrderly ∧
      rule.Everywhere outcome.form.tree (tally.Shown outcome.form.tree) from
    ⟨by rwa [engine], both.1, both.2⟩
  cases request with
  | initial =>
      cases done
      have shape := (current.engine.keeps_sameShape current.tree).initial (.refl _)
      exact ⟨shape.isOrderly orderly, tallies.initial_shown orderly.numbered spared⟩
  | setAnswer reference value =>
      rcases setAnswer_ok done with ⟨pass, set, rfl⟩
      have shape := (current.engine.keeps_sameShape current.tree).setAnswer (.refl _) trivial set
      exact ⟨shape.isOrderly orderly, tallies.setAnswer_shown orderly.numbered shown
        (free reference value rfl) set spared⟩
  | insertMember parent name position =>
      rcases map_eq_ok.mp done with ⟨⟨made, inserted⟩, insert, rfl⟩
      rcases insertMember_ok insert with ⟨pass, inserting, rfl⟩
      rcases tallies.insertMember_shown orderly shown inserting with ⟨grown, shownToo⟩
      exact ⟨grown, shownToo spared⟩
  | removeMember reference =>
      rcases removeMember_ok done with
        ⟨parent, shrunk, removed, pass, isParent, taken, repaired, rfl⟩
      rcases tallies.afterRemoval_shown orderly shown taken isParent repaired with
        ⟨shrunkToo, shownToo⟩
      exact ⟨shrunkToo, shownToo spared⟩

theorem Tallied.notes (tallied : form.Tallied number rule.target current)
    (tallies : form.engine.Tallies number rule tally) (orderly : form.tree.root.IsOrderly) :
    current.Notes number rule tally := by
  induction tallied with
  | initial spared =>
      have shape := (form.engine.keeps_sameShape form.tree).initial (.refl _)
      exact ⟨tallies, shape.isOrderly orderly, tallies.initial_shown orderly.numbered spared⟩
  | perform _ free done spared notes => exact notes.perform free done spared
  | evaluate _ now notes => exact ⟨notes.tallies.withEvaluator now, notes.orderly, notes.shown⟩

end Form

theorem answerFrom_decimal (number : Float) (type : ValueType) :
    answerFrom (.decimal number) type = ((Value.decimal number).cast type).map some := rfl

theorem exists_of_sameAnswer {left : Option Value} {value : Value}
    (same : sameAnswer left (some value) = true) :
    ∃ held, left = some held ∧ held.same value = true := by
  cases left with
  | none => cases same
  | some held => exact ⟨held, rfl, same⟩

/-- While a form is used, a calculation that notes a tally stays exact. After the form has
been filled in, and after every request, at every live node of its target: what is counted
there comes to some amount, and the node holds this amount in its own type. The amount is
the number of its parent in the series, or the number of live nodes of a pattern elsewhere.
Other rules may fail, and the clock may go on. -/
theorem Definition.tallied_shown {definition : Definition} {constructors : Constructors}
    {settings : Settings} {now : DateTime} {saved : Option AnswerTree} {form : Form}
    (built : definition.form constructors settings now saved = .ok form)
    (retain : settings.hiddenAnswers = .retain) (lead : form.tree.root.TemplatesLead)
    {number : Nat} {rule : Rule} (entered : form.engine.rulebook.rule? number = some rule)
    (calculates : rule.effect = .calculate) {tally : Tally}
    (notes : rule.expression = tally.expression) (apart : tally.IsApart rule.target)
    (alone : ∀ other another, form.engine.rulebook.rule? other = some another →
      another.effect.writesAnswer = true → another.target = rule.target → other = number)
    {current : Form} (tallied : form.Tallied number rule.target current) :
    rule.Everywhere current.tree fun place => ∃ amount node held answer,
      tally.amount? current.tree place = some amount ∧
      current.tree.find? place = some node ∧ node.facts.answer = some held ∧
      (Value.decimal (Float.ofNat amount)).cast node.facts.type = .ok answer ∧
      held.same answer = true := by
  have isBuilt := Definition.form_isBuilt retain built
  have sound := isBuilt.sound
  have tallies : form.engine.Tallies number rule tally :=
    { wired := ⟨sound.bound, sound.indexed, sound.orders⟩, retain := sound.retain,
      evaluator := ⟨now, sound.evaluator⟩, entered, calculates, notes, apart,
      alone := fun enteredToo => alone _ _ enteredToo }
  intro place member belongs
  rcases (tallied.notes tallies ⟨isBuilt.numbered, lead⟩).shown place member belongs with
    ⟨amount, isAmount, node, found, result, current, evaluated, cast, same⟩
  cases evaluated
  rcases map_eq_ok.mp ((answerFrom_decimal _ _).symm.trans cast) with ⟨answer, isCast, rfl⟩
  rcases exists_of_sameAnswer same with ⟨held, isHeld, same⟩
  exact ⟨amount, node, held, answer, isAmount, found, isHeld, isCast, same⟩

/-! An order whose items are numbered and counted. -/

namespace Order

def list : Definition where
  id := none
  title := "list"
  skeleton :=
    let number (name : String) : Skeleton := { Skeleton.ofName name with type := .int }
    let item (isTemplate : Bool) : Skeleton :=
      { Skeleton.ofName "item" with isTemplate, children := [number "line"] }
    { Skeleton.ofName "data" with children := [item true, item false, item false, number "lines"] }
  binds := [
    { Bind.ofTarget (every ["item", "line"]) with
      calculate := some (.position (.relative 1 [])) },
    { Bind.ofTarget (every ["lines"]) with calculate := some (.count (every ["item"])) }]

end Order

/-- When an item has been put before the others, and then the second one has been removed,
the last one is the second, and there are two. -/
theorem list_tallied_shown : ∃ form grown shrunk rule another,
    Order.list.form .standard .standard .startOf2020 none = .ok form ∧
    form.initial.form.perform (.insertMember Order.place "item" 0) = .ok grown ∧
    grown.form.perform (.removeMember (Order.place.child "item" (.index 1))) = .ok shrunk ∧
    form.engine.rulebook.rule? 0 = some rule ∧ rule.expression = Tally.position.expression ∧
    form.engine.rulebook.rule? 1 = some another ∧
    another.expression = (Tally.count (Order.every ["item"])).expression ∧
    (∃ node held answer, shrunk.form.tree.find? (Order.ofItem 1 "line") = some node ∧
      node.facts.answer = some held ∧
      (Value.decimal (Float.ofNat 2)).cast node.facts.type = .ok answer ∧
      held.same answer = true) ∧
    ∃ node held answer, shrunk.form.tree.find? (Order.ofOrder "lines") = some node ∧
      node.facts.answer = some held ∧
      (Value.decimal (Float.ofNat 2)).cast node.facts.type = .ok answer ∧
      held.same answer = true := by
  have ready : (Order.list.form .standard .standard .startOf2020 none).toOption.any (fun form =>
      decide (form.initial.report.Spares 0 ∧ form.initial.report.Spares 1 ∧
        form.tree.root.TemplatesLead ∧ form.engine.rulebook.Sole .answer) &&
      (form.initial.form.perform (.insertMember Order.place "item" 0)).toOption.any fun grown =>
        decide (grown.report.Spares 0 ∧ grown.report.Spares 1) &&
        (grown.form.perform (.removeMember (Order.place.child "item" (.index 1)))).toOption.any
          fun shrunk => decide (shrunk.report.Spares 0 ∧ shrunk.report.Spares 1) &&
            (form.engine.rulebook.rule? 0).any (fun rule => decide (rule.effect = .calculate ∧
              rule.expression = Tally.position.expression ∧
              Order.ofItem 1 "line" ∈ shrunk.form.tree.references ∧
              (Order.ofItem 1 "line").genericize = rule.target ∧
              Tally.position.amount? shrunk.form.tree (Order.ofItem 1 "line") = some 2)) &&
            (form.engine.rulebook.rule? 1).any fun another => decide (
              another.effect = .calculate ∧
              another.expression = (Tally.count (Order.every ["item"])).expression ∧
              (Order.every ["item"]).IsPattern ∧ (Order.every ["item"]).shared another.target ≤ 1 ∧
              Order.ofOrder "lines" ∈ shrunk.form.tree.references ∧
              (Order.ofOrder "lines").genericize = another.target ∧
              (Tally.count (Order.every ["item"])).amount? shrunk.form.tree
                (Order.ofOrder "lines") = some 2)) = true := by
    decide +kernel
  rcases exists_ok_of_any ready with ⟨form, built, ready⟩
  rcases Bool.and_eq_true_iff.mp ready with ⟨isReady, grows⟩
  rcases decide_eq_true_eq.mp isReady with ⟨spared, sparedToo, lead, sole⟩
  rcases exists_ok_of_any grows with ⟨grown, inserted, grows⟩
  rcases Bool.and_eq_true_iff.mp grows with ⟨isGrown, shrinks⟩
  rcases decide_eq_true_eq.mp isGrown with ⟨grownSpared, grownSparedToo⟩
  rcases exists_ok_of_any shrinks with ⟨shrunk, removed, shrinks⟩
  rcases Bool.and_eq_true_iff.mp shrinks with ⟨shrinks, isAnother⟩
  rcases Bool.and_eq_true_iff.mp shrinks with ⟨isShrunk, isRule⟩
  rcases decide_eq_true_eq.mp isShrunk with ⟨shrunkSpared, shrunkSparedToo⟩
  rcases (Option.any_eq_true _ _).mp isRule with ⟨rule, entered, isRule⟩
  rcases decide_eq_true_eq.mp isRule with ⟨calculates, notes, member, belongs, amount⟩
  rcases (Option.any_eq_true _ _).mp isAnother with ⟨another, enteredToo, isAnother⟩
  rcases decide_eq_true_eq.mp isAnother with
    ⟨calculatesToo, notesToo, isPattern, apart, memberToo, belongsToo, amountToo⟩
  have tallied : form.Tallied 0 rule.target shrunk.form :=
    ((Form.Tallied.initial spared).perform (fun _ _ => Request.noConfusion) inserted
      grownSpared).perform (fun _ _ => Request.noConfusion) removed shrunkSpared
  have talliedToo : form.Tallied 1 another.target shrunk.form :=
    ((Form.Tallied.initial sparedToo).perform (fun _ _ => Request.noConfusion) inserted
      grownSparedToo).perform (fun _ _ => Request.noConfusion) removed shrunkSparedToo
  have numbered := Definition.tallied_shown built rfl lead entered calculates notes trivial
    (fun _ _ found writes same => sole found entered (Effect.field_of_writes writes)
      (by rw [calculates]; rfl) same)
    tallied _ member belongs
  have counted := Definition.tallied_shown built rfl lead enteredToo calculatesToo notesToo
    ⟨isPattern, apart⟩
    (fun _ _ found writes same => sole found enteredToo (Effect.field_of_writes writes)
      (by rw [calculatesToo]; rfl) same)
    talliedToo _ memberToo belongsToo
  rcases numbered with ⟨line, node, held, answer, isLine, here⟩
  rw [amount] at isLine
  cases isLine
  rcases counted with ⟨lines, nodeToo, heldToo, answerToo, areLines, hereToo⟩
  rw [amountToo] at areLines
  cases areLines
  exact ⟨form, grown, shrunk, rule, another, built, inserted, removed, entered, notes, enteredToo,
    notesToo, ⟨node, held, answer, here⟩, nodeToo, heldToo, answerToo, hereToo⟩

end ReactiveForm
