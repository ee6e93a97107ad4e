import ReactiveForm.Proofs.Course
import ReactiveForm.Proofs.Following

/-! How a change spreads: the rules that it may reach fire one after the other,
each near the nodes that have changed before. -/

namespace ReactiveForm

/-! Where a rule fires. -/

namespace Engine

theorem mem_targets_nil {tree : AnswerTree} (numbered : tree.root.Numbered) {rule : Rule}
    (bound : rule.IsBound) {found : List Reference} (located : targets tree rule [] = .ok found)
    {place : Reference} :
    place ∈ found ↔ place ∈ tree.references ∧ place.genericize = rule.target := by
  have expanded : tree.expand rule.target none = .ok found := located
  rw [AnswerTree.expand_ok numbered bound.target.absolute bound.target.not_template expanded,
    List.mem_filter, bound.target.intersects_iff]

theorem mem_targetsNear {tree : AnswerTree} (numbered : tree.root.Numbered) {rule : Rule}
    (bound : rule.IsBound) {anchor : Reference} (anchorLive : anchor.IsLive)
    {found : List Reference} (located : targetsNear tree rule anchor = .ok found)
    {place : Reference} : place ∈ found ↔
      place ∈ tree.references ∧ place.genericize = rule.target ∧ anchor.IsNear place := by
  rcases bound.target.exists_anchor anchorLive.isPlace with ⟨near, anchored, denotes⟩
  simp only [targetsNear, anchored] at located
  have live := bound.target.not_template_of_anchor anchorLive anchored
  rw [AnswerTree.expand_ok numbered (Reference.anchor_origin anchored) live located,
    List.mem_filter]
  refine and_congr_right fun member => ?_
  exact denotes place (AnswerTree.isLive_of_mem numbered member).1.isPlace

theorem mem_targets {tree : AnswerTree} {rule : Rule} {anchors : List Reference}
    (nonempty : anchors ≠ []) {found : List Reference}
    (located : targets tree rule anchors = .ok found) :
    (∀ anchor ∈ anchors, ∃ near, targetsNear tree rule anchor = .ok near ∧ near ⊆ found) ∧
      ∀ place ∈ found, ∃ anchor ∈ anchors, ∃ near, targetsNear tree rule anchor = .ok near ∧
        place ∈ near := by
  rw [targets, if_neg (by simpa using nonempty)] at located
  rcases bind_eq_ok.mp located with ⟨lists, each, located⟩
  cases located
  have related := forall₂_of_mapM_ok each
  constructor
  · intro anchor member
    rcases exists_of_forall₂ related member with ⟨near, inLists, isNear⟩
    refine ⟨near, isNear, fun place inNear => ?_⟩
    exact List.mem_eraseDups.mpr (List.mem_flatten_of_mem inLists inNear)
  · intro place member
    rcases List.mem_flatten.mp (List.mem_eraseDups.mp member) with ⟨near, inLists, inNear⟩
    rcases exists_of_forall₂ related.flip inLists with ⟨anchor, inAnchors, isNear⟩
    exact ⟨anchor, inAnchors, near, isNear, inNear⟩

end Engine

/-- Where a rule fires for some changes: near those that trigger it, or else
near the place where they began. -/
def anchorsOr (origin : Reference) (rule : Rule) (touched : List Touch) : List Reference :=
  if (anchorsFor rule touched).isEmpty then [origin] else anchorsFor rule touched

theorem anchorsOr_ne_nil {origin : Reference} {rule : Rule} {touched : List Touch} :
    anchorsOr origin rule touched ≠ [] := by
  rw [anchorsOr]
  split
  · exact List.cons_ne_nil origin []
  next found => simpa using found

theorem mem_anchorsFor {rule : Rule} (always : rule.waitsForAnswer = false) {touched : List Touch}
    {anchor : Reference} : anchor ∈ anchorsFor rule touched ↔
      ∃ touch ∈ touched, rule.isTriggeredBy touch.reference = true ∧ touch.reference = anchor := by
  simp [anchorsFor, always, and_assoc]

theorem mem_anchorsOr {origin : Reference} {rule : Rule} (always : rule.waitsForAnswer = false)
    {touched : List Touch} {touch : Touch} (member : touch ∈ touched)
    (triggered : rule.isTriggeredBy touch.reference = true) :
    touch.reference ∈ anchorsOr origin rule touched := by
  have found := (mem_anchorsFor always).mpr ⟨touch, member, triggered, rfl⟩
  rw [anchorsOr, if_neg]
  · exact found
  · rw [List.isEmpty_iff]
    exact List.ne_nil_of_mem found

theorem Rule.waitsForAnswer_eq_false {rule : Rule}
    (noAction : ∀ occasion, rule.effect ≠ .setValue occasion) : rule.waitsForAnswer = false := by
  rw [Rule.waitsForAnswer]
  split
  next source equal => exact absurd equal (noAction _)
  next => rfl

theorem Effect.waitsForAnswer_of_isKept {rule : Rule} (kept : rule.effect.isKept = true) :
    rule.waitsForAnswer = false :=
  Rule.waitsForAnswer_eq_false (Effect.ne_setValue_of_isKept kept)

namespace Engine

variable {engine : Engine} {now : DateTime}

structure Turns (engine : Engine) (origin : Reference) (numbers : List Nat) (before : Spread)
    (firings : List Firing) (after : Spread) : Prop where
  course : engine.Course before.pass firings after.pass
  fired : after.fired = before.fired ++ firings.map (·.number)
  touched : after.touched = before.touched ++ firings.flatMap (·.touched)
  ordered : (firings.map (·.number)).Sublist numbers
  fresh : ∀ firing ∈ firings, firing.number ∉ before.fired
  anchored : ∀ early firing late, firings = early ++ firing :: late →
    firing.anchors = anchorsOr origin firing.rule (before.touched ++ early.flatMap (·.touched))
  complete : ∀ number ∈ numbers, number ∉ before.fired → ∀ rule,
    engine.rulebook.rule? number = some rule → rule.waitsForAnswer = false →
    ∃ firing ∈ firings, firing.number = number

namespace Turns

variable {origin : Reference} {numbers : List Nat} {number : Nat} {before between after : Spread}
  {firings : List Firing} {firing : Firing}

theorem skip (turns : engine.Turns origin numbers before firings after)
    (idle : number ∈ before.fired ∨ ∀ rule, engine.rulebook.rule? number = some rule →
      rule.waitsForAnswer = true) :
    engine.Turns origin (number :: numbers) before firings after := by
  refine ⟨turns.course, turns.fired, turns.touched, turns.ordered.cons _, turns.fresh,
    turns.anchored, ?_⟩
  intro other member fresh rule entered always
  rcases List.mem_cons.mp member with rfl | member
  · rcases idle with inFired | waits
    · exact absurd inFired fresh
    · rw [waits rule entered] at always
      cases always
  · exact turns.complete other member fresh rule entered always

theorem fire (turns : engine.Turns origin numbers between firings after)
    (fires : engine.Fires before.pass firing between.pass)
    (fired : between.fired = before.fired ++ [firing.number])
    (touched : between.touched = before.touched ++ firing.touched)
    (fresh : firing.number ∉ before.fired)
    (anchors : firing.anchors = anchorsOr origin firing.rule before.touched) :
    engine.Turns origin (firing.number :: numbers) before (firing :: firings) after := by
  refine ⟨.cons fires turns.course, ?_, ?_, turns.ordered.cons_cons _, ?_, ?_, ?_⟩
  · rw [turns.fired, fired, List.map_cons, List.append_assoc, List.singleton_append]
  · rw [turns.touched, touched, List.flatMap_cons, List.append_assoc]
  · refine List.forall_mem_cons.mpr ⟨fresh, fun other member inFired => ?_⟩
    refine turns.fresh other member ?_
    rw [fired]
    exact List.mem_append_left _ inFired
  · intro early other late split
    cases early with
    | nil =>
        cases split
        simpa using anchors
    | cons first early =>
        cases split
        rw [turns.anchored early other late rfl, touched, List.flatMap_cons, List.append_assoc]
  · intro other member notFired rule entered always
    by_cases same : other = firing.number
    · exact ⟨firing, List.mem_cons_self, same.symm⟩
    · have later : other ∉ between.fired := by
        rw [fired]
        simp [notFired, same]
      rcases turns.complete other
        ((List.mem_cons.mp member).resolve_left same) later rule entered always with
        ⟨found, inFirings, equal⟩
      exact ⟨found, List.mem_cons_of_mem _ inFirings, equal⟩

end Turns

theorem turn_cases (engine : Engine) (origin : Reference) (spread : Spread) (number : Nat) :
    (engine.turn origin spread number = spread ∧
      (number ∈ spread.fired ∨ ∀ rule, engine.rulebook.rule? number = some rule →
        rule.waitsForAnswer = true ∧ anchorsFor rule spread.touched = [])) ∨
    ∃ rule, number ∉ spread.fired ∧ engine.rulebook.rule? number = some rule ∧
      (rule.waitsForAnswer = true → anchorsFor rule spread.touched ≠ []) ∧
      let fired := engine.fire number rule (anchorsOr origin rule spread.touched) spread.pass
      engine.turn origin spread number =
        ⟨fired.1, spread.fired ++ [number], spread.touched ++ fired.2⟩ := by
  rw [turn]
  split
  next fired => exact .inl ⟨rfl, .inl (by simpa using fired)⟩
  next fresh =>
    split
    next absent =>
      refine .inl ⟨rfl, .inr fun rule entered => ?_⟩
      rw [absent] at entered
      cases entered
    next rule entered =>
      dsimp only
      split
      next idle =>
        refine .inl ⟨rfl, .inr fun other same => ?_⟩
        rw [entered] at same
        cases same
        rcases (Bool.and_eq_true _ _).mp idle with ⟨none, waits⟩
        exact ⟨waits, List.isEmpty_iff.mp none⟩
      next busy =>
        refine .inr ⟨rule, by simpa using fresh, entered, fun waits none => busy ?_, rfl⟩
        rw [waits, none]
        rfl

theorem exists_fired_foldl_turn (engine : Engine) (origin : Reference) (numbers : List Nat)
    (spread : Spread) : ∃ fired, fired.Sublist numbers ∧
      (numbers.foldl (engine.turn origin) spread).fired = spread.fired ++ fired := by
  induction numbers generalizing spread with
  | nil => exact ⟨[], .slnil, (List.append_nil _).symm⟩
  | cons number numbers induction =>
      rcases induction (engine.turn origin spread number) with ⟨later, part, fired⟩
      rw [List.foldl_cons, fired]
      rcases engine.turn_cases origin spread number with ⟨same, -⟩ | ⟨rule, -, -, -, turned⟩
      · exact ⟨later, part.cons number, by rw [same]⟩
      · exact ⟨number :: later, part.cons_cons number,
          by rw [turned, List.append_assoc, List.singleton_append]⟩

theorem IsSound.turn_cases (sound : engine.IsSound now) {origin : Reference} {number : Nat}
    {spread : Spread} (clean : (engine.turn origin spread number).pass.report.failures = []) :
    (engine.turn origin spread number = spread ∧
      (number ∈ spread.fired ∨ ∀ rule, engine.rulebook.rule? number = some rule →
        rule.waitsForAnswer = true)) ∨
    (spread.pass.report.failures = [] ∧ ∃ firing : Firing, firing.number = number ∧
      number ∉ spread.fired ∧
      engine.Fires spread.pass firing (engine.turn origin spread number).pass ∧
      (engine.turn origin spread number).fired = spread.fired ++ [number] ∧
      (engine.turn origin spread number).touched = spread.touched ++ firing.touched ∧
      firing.anchors = anchorsOr origin firing.rule spread.touched) := by
  rcases engine.turn_cases origin spread number with
    ⟨same, idle⟩ | ⟨rule, fresh, entered, -, turned⟩
  · exact .inl ⟨same, idle.imp_right fun waits rule entered => (waits rule entered).1⟩
  · rw [turned] at clean
    rcases sound.fire_fires entered clean with ⟨cleanBefore, found, after, touched, result, fires⟩
    refine .inr ⟨cleanBefore, ⟨number, rule, anchorsOr origin rule spread.touched, found, touched⟩,
      rfl, fresh, ?_, ?_, ?_, rfl⟩
    · rw [turned, result]
      exact fires
    · rw [turned]
    · rw [turned, result]

theorem IsSound.foldl_turns (sound : engine.IsSound now) {origin : Reference} {numbers : List Nat}
    {spread : Spread}
    (clean : (numbers.foldl (engine.turn origin) spread).pass.report.failures = []) :
    spread.pass.report.failures = [] ∧ ∃ firings,
      engine.Turns origin numbers spread firings (numbers.foldl (engine.turn origin) spread) := by
  induction numbers generalizing spread with
  | nil =>
      refine ⟨clean, [], .nil _, ?_, ?_, .slnil, by simp, by simp, by simp⟩
      · simp
      · simp
  | cons number numbers induction =>
      rcases induction clean with ⟨cleanBetween, firings, turns⟩
      rw [List.foldl_cons]
      rcases sound.turn_cases cleanBetween with ⟨same, idle⟩ | fired
      · rw [same] at cleanBetween turns ⊢
        exact ⟨cleanBetween, firings, turns.skip idle⟩
      · rcases fired with ⟨cleanBefore, firing, rfl, fresh, fires, fired, touched, anchors⟩
        exact ⟨cleanBefore, firing :: firings, turns.fire fires fired touched fresh anchors⟩

theorem mem_directlyTriggered (indexed : engine.rulebook.IsIndexed) {changes : List Touch}
    {number : Nat} : number ∈ engine.directlyTriggered changes ↔ ∃ touch ∈ changes, ∃ rule,
      engine.rulebook.rule? number = some rule ∧ rule.isTriggeredBy touch.reference = true := by
  rw [directlyTriggered, mem_ascending fun _ _ => Std.LawfulEqCmp.eq_of_compare, List.mem_flatMap]
  simp only [Rulebook.mem_triggeredBy indexed]

theorem directlyTriggered_answer (reference : Reference) :
    engine.directlyTriggered [.answer reference] = engine.rulebook.triggeredBy reference := by
  rw [directlyTriggered, List.flatMap_singleton]
  exact (ascending_compare _).ascending_eq

theorem directlyTriggered_reaches (indexed : engine.rulebook.IsIndexed)
    (orders : engine.dependencies.Orders engine.rulebook) (changes : List Touch) :
    engine.dependencies.Reaches (engine.directlyTriggered changes)
      (engine.dependencies.affectedBy (engine.directlyTriggered changes)) := by
  apply Dependencies.affectedBy_reaches orders
  intro number member
  rcases (mem_directlyTriggered indexed).mp member with ⟨_, -, rule, entered, -⟩
  exact Rulebook.rule?_eq_some_lt entered

/-- How changes spread through a form, passing over the rules that have fired
already. -/
structure Spreads (engine : Engine) (changes : List Touch) (fired : List Nat) (before : Pass)
    (firings : List Firing) (after : Pass) : Prop where
  course : engine.Course before firings after
  ordered : engine.Ordered firings
  fresh : ∀ firing ∈ firings, firing.number ∉ fired
  /-- A rule fires for all that changed before. -/
  anchored : ∀ early firing late, firings = early ++ firing :: late → ∃ first ∈ changes.head?,
    firing.anchors =
      anchorsOr first.reference firing.rule (changes ++ early.flatMap (·.touched))
  /-- What has been touched is looked at by every rule that reads it. -/
  reached : ∀ {number : Nat} {rule : Rule}, engine.rulebook.rule? number = some rule →
    rule.waitsForAnswer = false → number ∉ fired →
    ∀ touch ∈ changes ++ firings.flatMap (·.touched), rule.isTriggeredBy touch.reference = true →
    touch ∈ changes ∨ touch.isAnswer = true ∨ rule.effect.writesAnswer = true →
    ∃ firing ∈ firings, firing.number = number ∧ touch.reference ∈ firing.anchors

theorem ordered_of_sublist (sound : engine.IsSound now) {firings : List Firing}
    (ordered : (firings.map (·.number)).Sublist engine.dependencies.order) :
    engine.Ordered firings :=
  List.pairwise_map.mp (sound.orders.pairwise.sublist ordered)

theorem Course.feeds_of_touched {before after : Pass} {firings : List Firing}
    (course : engine.Course before firings after) (sound : engine.IsSound now) {source : Firing}
    (member : source ∈ firings) {touch : Touch} (touched : touch ∈ source.touched) {number : Nat}
    {rule : Rule} (entered : engine.rulebook.rule? number = some rule)
    (triggered : rule.isTriggeredBy touch.reference = true)
    (writes : touch.isAnswer = true ∨ rule.effect.writesAnswer = true) :
    engine.rulebook.Feeds source.number number := by
  rcases course.touches member touched with ⟨place, inFound, rfl⟩
  rw [Effect.reference_touch] at triggered
  rcases (sound.bound entered).feeds_of_isTriggeredBy
    (course.belongs sound member place inFound) triggered with ⟨trigger, inTriggers, feeds⟩
  refine ⟨source.rule, rule, course.entered member, entered, ⟨trigger, inTriggers, feeds⟩, ?_⟩
  intro same
  rcases writes with isAnswer | writes
  · rw [Effect.touch] at isAnswer
    split at isAnswer
    next writes => exact writes
    next => cases isAnswer
  · have equal := course.entered member
    rw [same, entered] at equal
    cases equal
    exact writes

theorem IsSound.propagate_spreads (sound : engine.IsSound now) {changes : List Touch}
    {fired : List Nat} {before : Pass}
    (clean : (engine.propagate changes fired before).1.report.failures = []) :
    before.report.failures = [] ∧ ∃ firings,
      engine.Spreads changes fired before firings (engine.propagate changes fired before).1 ∧
      (engine.propagate changes fired before).2 = fired ++ firings.map (·.number) := by
  cases changes with
  | nil =>
      refine ⟨clean, [], ⟨.nil _, .nil, by simp, by simp, by simp⟩, ?_⟩
      simp [propagate]
  | cons first changes =>
      have reaches := directlyTriggered_reaches sound.indexed sound.orders (first :: changes)
      rcases sound.foldl_turns clean with ⟨cleanBefore, firings, turns⟩
      have ordered := ordered_of_sublist sound (turns.ordered.trans reaches.ordered)
      refine ⟨cleanBefore, firings, ⟨turns.course, ordered, turns.fresh, ?_, ?_⟩, turns.fired⟩
      · intro early firing late split
        exact ⟨first, rfl, turns.anchored early firing late split⟩
      · intro number rule entered always fresh touch member triggered writes
        -- Where the touch comes from: the changes, or a rule that feeds this one.
        have origin : touch ∈ first :: changes ∨ ∃ source ∈ firings, touch ∈ source.touched ∧
            engine.rulebook.Feeds source.number number := by
          by_cases inChanges : touch ∈ first :: changes
          · exact .inl inChanges
          · rcases List.mem_flatMap.mp ((List.mem_append.mp member).resolve_left inChanges) with
              ⟨source, inFirings, touched⟩
            exact .inr ⟨source, inFirings, touched, turns.course.feeds_of_touched sound inFirings
              touched entered triggered (writes.resolve_left inChanges)⟩
        have affected : number ∈
            engine.dependencies.affectedBy (engine.directlyTriggered (first :: changes)) := by
          rcases origin with inChanges | ⟨source, inFirings, -, feeds⟩
          · exact reaches.seed number ((mem_directlyTriggered sound.indexed).mpr
              ⟨touch, inChanges, rule, entered, triggered⟩)
          · exact reaches.closed source.number
              (turns.ordered.subset (List.mem_map_of_mem inFirings)) number
              (sound.orders.mem_successorsOf.mpr feeds)
        rcases turns.complete number affected fresh rule entered always with
          ⟨firing, inFirings, rfl⟩
        rcases List.append_of_mem inFirings with ⟨early, late, rfl⟩
        cases turns.course.rule_eq inFirings entered
        refine ⟨firing, inFirings, rfl, ?_⟩
        rw [turns.anchored early firing late rfl]
        refine mem_anchorsOr always ?_ triggered
        -- What feeds the rule has fired before it.
        rcases origin with inChanges | ⟨source, inSource, touched, feeds⟩
        · exact List.mem_append_left _ inChanges
        · refine List.mem_append_right _ (List.mem_flatMap.mpr ⟨source, ?_, touched⟩)
          rcases List.pairwise_append.mp ordered with ⟨-, later, -⟩
          rcases List.mem_append.mp inSource with inEarly | inRest
          · exact inEarly
          · rcases List.mem_cons.mp inRest with rfl | inLate
            · exact absurd feeds sound.not_feeds_self
            · exact absurd feeds ((List.pairwise_cons.mp later).1 source inLate).2

/-! Rules that fire once, all in the same place. -/

def fireIf (engine : Engine) (chosen : Rule → Bool) (anchors : List Reference) (pass : Pass)
    (number : Nat) : Pass :=
  match engine.rulebook.rule? number with
  | none => pass
  | some rule => if chosen rule then (engine.fire number rule anchors pass).1 else pass

theorem fireInitially_eq_fireIf :
    engine.fireInitially = engine.fireIf (fun rule => !rule.waitsForAnswer) [] := by
  funext pass number
  rw [fireInitially, fireIf]
  cases engine.rulebook.rule? number with
  | none => rfl
  | some rule => cases waits : rule.waitsForAnswer <;> simp [waits]

structure Round (engine : Engine) (chosen : Rule → Bool) (anchors : List Reference)
    (numbers : List Nat) (before : Pass) (firings : List Firing) (after : Pass) : Prop where
  course : engine.Course before firings after
  ordered : (firings.map (·.number)).Sublist numbers
  anchored : ∀ firing ∈ firings, firing.anchors = anchors ∧ chosen firing.rule = true
  complete : ∀ number ∈ numbers, ∀ rule, engine.rulebook.rule? number = some rule →
    chosen rule = true → ∃ firing ∈ firings, firing.number = number

theorem IsSound.foldl_round (sound : engine.IsSound now) {chosen : Rule → Bool}
    {anchors : List Reference} {numbers : List Nat} {pass : Pass}
    (clean : (numbers.foldl (engine.fireIf chosen anchors) pass).report.failures = []) :
    pass.report.failures = [] ∧ ∃ firings, engine.Round chosen anchors numbers pass firings
      (numbers.foldl (engine.fireIf chosen anchors) pass) := by
  -- That nothing has failed is known of the end, and so of each pass before it.
  induction numbers generalizing pass with
  | nil => exact ⟨clean, [], .nil _, .slnil, by simp, by simp⟩
  | cons number numbers induction =>
      rcases induction clean with ⟨cleanBetween, firings, round⟩
      have passes : engine.fireIf chosen anchors pass number = pass →
          (∀ rule, engine.rulebook.rule? number = some rule → chosen rule = false) →
          pass.report.failures = [] ∧ ∃ firings, engine.Round chosen anchors (number :: numbers)
            pass firings (numbers.foldl (engine.fireIf chosen anchors)
              (engine.fireIf chosen anchors pass number)) := by
        intro same idle
        rw [same] at cleanBetween round ⊢
        refine ⟨cleanBetween, firings, round.course, round.ordered.cons _, round.anchored, ?_⟩
        intro other member rule entered isChosen
        rcases List.mem_cons.mp member with rfl | member
        · rw [idle rule entered] at isChosen
          cases isChosen
        · exact round.complete other member rule entered isChosen
      rw [List.foldl_cons]
      cases entered : engine.rulebook.rule? number with
      | none =>
          refine passes (by simp [fireIf, entered]) fun rule found => ?_
          rw [entered] at found
          cases found
      | some rule =>
          cases isChosen : chosen rule with
          | false =>
              refine passes (by simp [fireIf, entered, isChosen]) fun other found => ?_
              rw [entered] at found
              cases found
              exact isChosen
          | true =>
              have step : engine.fireIf chosen anchors pass number =
                  (engine.fire number rule anchors pass).1 := by
                simp [fireIf, entered, isChosen]
              rw [step] at cleanBetween round ⊢
              rcases sound.fire_fires entered cleanBetween with
                ⟨cleanBefore, found, between, touched, result, fires⟩
              rw [result] at round ⊢
              refine ⟨cleanBefore, ⟨number, rule, anchors, found, touched⟩ :: firings,
                .cons fires round.course, round.ordered.cons_cons _, ?_, ?_⟩
              · exact List.forall_mem_cons.mpr ⟨⟨rfl, isChosen⟩, round.anchored⟩
              · intro other member another found chosenToo
                rcases List.mem_cons.mp member with rfl | member
                · exact ⟨_, List.mem_cons_self, rfl⟩
                · rcases round.complete other member another found chosenToo with
                    ⟨firing, inFirings, same⟩
                  exact ⟨firing, List.mem_cons_of_mem _ inFirings, same⟩

end Engine

end ReactiveForm
