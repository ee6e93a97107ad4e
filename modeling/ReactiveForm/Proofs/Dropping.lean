import ReactiveForm.Proofs.Keeping

/-! What becomes of the answer of a node when a rule does its work somewhere. It
stays, or the rule writes it, or the rule hides the node and drops it. The
updates of the pass tell which of these it was, under either policy for hidden
answers. -/

namespace ReactiveForm

/-! A change that changes nothing where it is made. -/

theorem changeFirst_of_fixed {α : Type} {holds : α → Bool} {change : α → α} {list : List α}
    (fixed : ∀ found, list.find? holds = some found → change found = found) :
    changeFirst holds change list = list := by
  induction list with
  | nil => rfl
  | cons head tail induction =>
      rw [changeFirst]
      split
      next here => rw [fixed head (List.find?_cons_of_pos here)]
      next missed =>
        rw [induction]
        intro found isFound
        exact fixed found (by rwa [List.find?_cons_of_neg missed])

theorem Node.changeDescendant_of_fixed {change : Node → Node} {steps : List Step} {node : Node}
    (fixed : ∀ found, node.descendant? steps = some found → change found = found) :
    node.changeDescendant change steps = node := by
  induction steps generalizing node with
  | nil => exact fixed node rfl
  | cons step rest induction =>
      rcases node with ⟨facts, children⟩
      have same : changeFirst (isAt step.name step.multiplicity)
          (changeDescendant change rest) children = children := by
        apply changeFirst_of_fixed
        intro child found
        apply induction
        intro lower reached
        apply fixed
        rw [descendant?, child?, found]
        exact reached
      rw [changeDescendant, changeChild, same]

theorem AnswerTree.change_of_fixed {tree : AnswerTree} {target : Reference} {change : Node → Node}
    (fixed : ∀ found, tree.find? target = some found → change found = found) :
    tree.change target change = tree := by
  refine change_cases (· = tree) rfl fun path reaches => ?_
  rw [Node.changeDescendant_of_fixed fun found reached => fixed found (reaches found reached)]

theorem AnswerTree.change_of_missing {tree : AnswerTree} {target : Reference}
    (missing : tree.find? target = none) (change : Node → Node) :
    tree.change target change = tree :=
  change_of_fixed fun _ found => nomatch missing.symm.trans found

theorem AnswerTree.change_of_unchanged {tree : AnswerTree} {target : Reference} {node : Node}
    (found : tree.find? target = some node) {change : Node → Node} (fixed : change node = node) :
    tree.change target change = tree :=
  change_of_fixed fun _ again => Option.some.inj (found.symm.trans again) ▸ fixed

/-! Dropping the answers of a node and of all below it. -/

namespace Node

theorem child?_clearAnswers (node : Node) (step : Step) :
    node.clearAnswers.child? step.name step.multiplicity =
      (node.child? step.name step.multiplicity).map fun child =>
        if step.multiplicity = .template then child else child.clearAnswers := by
  rcases node with ⟨facts, children⟩
  have sameKey : isAt step.name step.multiplicity ∘
      (fun child : Node => if child.isTemplate then child else child.clearAnswers) =
      isAt step.name step.multiplicity := by
    funext child
    rw [Function.comp_apply]
    split
    · rfl
    · rw [isAt, isAt, (clearAnswers_keeps child).1, (clearAnswers_keeps child).2]
  rw [clearAnswers, child?, child?, clearAllAnswers_eq_map, List.find?_map, sameKey]
  cases found : children.find? (isAt step.name step.multiplicity) with
  | none => rfl
  | some child =>
      have isAt := List.find?_some found
      simp only [Node.isAt, Bool.and_eq_true, beq_iff_eq] at isAt
      simp [isTemplate, isAt.2]

theorem descendant?_clearAnswers (steps : List Step) (node : Node) :
    node.clearAnswers.descendant? steps =
      (node.descendant? steps).map fun found =>
        if ∃ step ∈ steps, step.multiplicity = .template then found else found.clearAnswers := by
  induction steps generalizing node with
  | nil => simp [descendant?]
  | cons step rest induction =>
      rw [descendant?, descendant?, child?_clearAnswers]
      cases node.child? step.name step.multiplicity with
      | none => rfl
      | some child =>
          by_cases first : step.multiplicity = .template
          · simp [first]
          · simpa [first] using induction child

theorem descendant?_clearAnswers_field {field : Field} (other : field ≠ .answer)
    (steps : List Step) (node : Node) :
    (node.clearAnswers.descendant? steps).map (field.of ·.facts) =
      (node.descendant? steps).map (field.of ·.facts) := by
  have kept (found : Node) : field.of found.clearAnswers.facts = field.of found.facts := by
    cases found
    cases field <;> first | rfl | exact absurd rfl other
  rw [descendant?_clearAnswers, Option.map_map]
  congr 1
  funext found
  rw [Function.comp_apply]
  split
  · rfl
  · exact kept found

theorem descendant?_clearAnswers_of_live {steps : List Step}
    (live : ∀ step ∈ steps, step.multiplicity ≠ .template) (node : Node) :
    (node.clearAnswers.descendant? steps).map (·.facts.answer) =
      (node.descendant? steps).map fun _ => none := by
  have noTemplate : ¬ ∃ step ∈ steps, step.multiplicity = .template :=
    fun ⟨step, member, template⟩ => live step member template
  rw [descendant?_clearAnswers, Option.map_map]
  congr 1
  funext found
  cases found
  rw [Function.comp_apply, if_neg noTemplate]
  rfl

theorem descendant?_clearAnswers_of_template {steps : List Step}
    (template : ∃ step ∈ steps, step.multiplicity = .template) (node : Node) :
    (node.clearAnswers.descendant? steps).map (·.facts.answer) =
      (node.descendant? steps).map (·.facts.answer) := by
  simp [descendant?_clearAnswers, if_pos template]

end Node

namespace AnswerTree

variable {tree : AnswerTree} {target place : Reference}

theorem find?_of_inside {node : Node} (found : tree.find? target = some node)
    (isPlace : place.IsPlace) {below : List Step} (inside : place.steps = target.steps ++ below) :
    tree.find? place = node.descendant? below := by
  rcases Option.bind_eq_some_iff.mp found with ⟨path, steps, reached⟩
  have whole := (steps?_eq_some_iff.mp steps).2
  have placeSteps : tree.steps? place = some (path ++ below) := by
    refine steps?_eq_some_iff.mpr ⟨isPlace, ?_⟩
    rw [inside, whole]
    rfl
  rw [find?, placeSteps]
  change tree.root.descendant? (path ++ below) = _
  rw [Node.descendant?_append, reached]
  rfl

theorem isPlace_of_find? {node : Node} (found : tree.find? place = some node) :
    place.IsPlace := by
  rcases Option.bind_eq_some_iff.mp found with ⟨path, steps, -⟩
  exact (steps?_eq_some_iff.mp steps).1

theorem find?_of_not_isPlace (none : ¬ place.IsPlace) : tree.find? place = .none := by
  cases found : tree.find? place with
  | none => rfl
  | some node => exact absurd (isPlace_of_find? found) none

theorem held_type_of_found {node : Node} (found : tree.find? place = some node) :
    tree.held .type place = some node.facts.type := by
  rw [held, found]
  rfl

theorem exists_of_held_type {other : AnswerTree} {node : Node}
    (type : other.held .type place = tree.held .type place) (found : tree.find? place = some node) :
    ∃ later, other.find? place = some later ∧ later.facts.type = node.facts.type := by
  rw [held_type_of_found found] at type
  exact Option.map_eq_some_iff.mp type

theorem find?_change_of_inside {change : Node → Node}
    (keeps : ∀ node, (change node).facts.name = node.facts.name ∧
      (change node).facts.multiplicity = node.facts.multiplicity)
    {node : Node} (found : tree.find? target = some node) (isPlace : place.IsPlace)
    {below : List Step} (inside : place.steps = target.steps ++ below) :
    (tree.change target change).find? place = (change node).descendant? below := by
  refine find?_of_inside ?_ isPlace inside
  rw [find?_change_self keeps, found]
  rfl

theorem held_clear_outside (outside : ¬ target.steps <+: place.steps) (field : Field) :
    (tree.clear target).1.held field place = tree.held field place := by
  have facts : ((tree.clear target).1.find? place).map (·.facts) =
      (tree.find? place).map (·.facts) := facts_change_other Node.clearAnswers_keeps outside
  have fields := congrArg (Option.map field.of) facts
  rw [Option.map_map, Option.map_map] at fields
  exact fields

theorem held_clear_inside {field : Field} {below : List Step}
    (inside : place.steps = target.steps ++ below)
    (within : ∀ node, tree.find? target = some node → place.IsPlace →
      (node.clearAnswers.descendant? below).map (field.of ·.facts) =
        (node.descendant? below).map (field.of ·.facts)) :
    (tree.clear target).1.held field place = tree.held field place := by
  rw [clear]
  cases found : tree.find? target with
  | none => rw [change_of_missing found]
  | some node =>
      by_cases isPlace : place.IsPlace
      · rw [held, held, find?_change_of_inside Node.clearAnswers_keeps found isPlace inside,
          find?_of_inside found isPlace inside]
        exact within node found isPlace
      · rw [held, held, find?_of_not_isPlace isPlace, find?_of_not_isPlace isPlace]

theorem held_clear_of_field {field : Field} (other : field ≠ .answer) (place : Reference) :
    (tree.clear target).1.held field place = tree.held field place := by
  by_cases inside : target.steps <+: place.steps
  · rcases inside with ⟨below, inside⟩
    exact held_clear_inside inside.symm fun node _ _ =>
      Node.descendant?_clearAnswers_field other below node
  · exact held_clear_outside inside field

theorem inside_of_mem_clear (member : place ∈ (tree.clear target).2) :
    ∃ below, place.steps = target.steps ++ below ∧
      ∀ step ∈ below, step.multiplicity ≠ .template := by
  have inside := (List.mem_filter.mp member).1
  rw [referencesFrom] at inside
  split at inside
  · cases inside
  next node found =>
    rw [Node.references_eq_live] at inside
    rcases List.mem_map.mp inside with ⟨entry, inLive, rfl⟩
    exact ⟨entry.1, rfl, Node.not_template_of_mem_live inLive⟩

theorem held_clear_of_mem (member : place ∈ (tree.clear target).2) :
    (tree.answer? place).isSome ∧ (tree.clear target).1.held .answer place = some none := by
  have present := (List.mem_filter.mp member).2
  refine ⟨present, ?_⟩
  rcases inside_of_mem_clear member with ⟨below, inside, live⟩
  have isFound : ∃ node, tree.find? target = some node := by
    have listed := (List.mem_filter.mp member).1
    rw [referencesFrom] at listed
    split at listed
    · cases listed
    next node found => exact ⟨node, found⟩
  rcases isFound with ⟨node, found⟩
  rcases Option.isSome_iff_exists.mp present with ⟨value, answered⟩
  rcases Option.bind_eq_some_iff.mp answered with ⟨lower, placeFound, -⟩
  have isPlace := isPlace_of_find? placeFound
  have dropped := Node.descendant?_clearAnswers_of_live live node
  rw [← find?_change_of_inside Node.clearAnswers_keeps found isPlace inside,
    ← find?_of_inside found isPlace inside, placeFound] at dropped
  exact dropped

theorem mem_clear {node lower : Node} (found : tree.find? target = some node)
    (isPlace : place.IsPlace) {below : List Step} (inside : place.steps = target.steps ++ below)
    (live : ∀ step ∈ below, step.multiplicity ≠ .template)
    (reached : node.descendant? below = some lower) (answered : lower.facts.answer.isSome = true) :
    place ∈ (tree.clear target).2 := by
  refine List.mem_filter.mpr ⟨?_, ?_⟩
  · rw [referencesFrom, found]
    change place ∈ node.references target
    rw [Node.references_eq_live]
    refine List.mem_map.mpr ⟨_, Node.mem_live_of_descendant? reached live, ?_⟩
    have absolute := (isPlace_of_find? found).absolute
    cases place
    cases target
    cases isPlace.absolute
    cases absolute
    exact congrArg _ inside.symm
  · rw [answer?, find?_of_inside found isPlace inside, reached]
    exact answered

theorem held_clear_of_not_mem (missed : place ∉ (tree.clear target).2) :
    (tree.clear target).1.held .answer place = tree.held .answer place := by
  by_cases inside : target.steps <+: place.steps
  · rcases inside with ⟨below, inside⟩
    refine held_clear_inside inside.symm fun node found isPlace => ?_
    by_cases template : ∃ step ∈ below, step.multiplicity = .template
    · exact Node.descendant?_clearAnswers_of_template template node
    · have live : ∀ step ∈ below, step.multiplicity ≠ .template :=
        fun step member isTemplate => template ⟨step, member, isTemplate⟩
      refine (Node.descendant?_clearAnswers_of_live live node).trans ?_
      cases reached : node.descendant? below with
      | none => rfl
      | some lower =>
          have unanswered : ¬ lower.facts.answer.isSome = true :=
            fun answered => missed (mem_clear found isPlace inside.symm live reached answered)
          rw [Option.not_isSome_iff_eq_none] at unanswered
          exact congrArg some unanswered.symm
  · exact held_clear_outside inside .answer

theorem mem_references_of_mem_clear (live : target ∈ tree.references)
    (member : place ∈ (tree.clear target).2) : place ∈ tree.references := by
  rcases inside_of_mem_clear member with ⟨below, inside, liveBelow⟩
  rcases Option.isSome_iff_exists.mp (held_clear_of_mem member).1 with ⟨value, answered⟩
  rcases Option.bind_eq_some_iff.mp answered with ⟨node, found, -⟩
  refine mem_references_iff.mpr ⟨node.facts, mem_census_of_find? found ?_⟩
  rw [inside]
  refine List.forall_mem_append.mpr ⟨?_, liveBelow⟩
  rcases mem_references_iff.mp live with ⟨facts, inCensus⟩
  rcases List.mem_map.mp inCensus with ⟨entry, inLive, equal⟩
  rw [← (Prod.mk.inj equal).1]
  exact List.forall_mem_cons.mpr ⟨Multiplicity.noConfusion, Node.not_template_of_mem_live inLive⟩

end AnswerTree

/-! One target. -/

/-- What becomes of the answer of a place when a rule does its work at a target,
and what the new updates tell of it. -/
inductive Fate (settings : Settings) (number : Nat) (effect : Effect) (target : Reference)
    (before after : AnswerTree) (news : List Update) (place : Reference) : Prop where
  | stays (same : after.held .answer place = before.held .answer place)
      (silent : ∀ update ∈ news, update.touch ≠ .answer place)
  | written {previous current : Option Value} (writes : effect.writesAnswer = true)
      (here : place = target) (told : news = [⟨some number, place, .answer previous current⟩])
  | dropped (hides : effect = .relevant) (clears : settings.hiddenAnswers = .clear)
      (below : target.steps <+: place.steps) (had : (before.answer? place).isSome = true)
      (gone : after.held .answer place = some none)
      (told : ⟨some number, place, .cleared⟩ ∈ news)
      (only : ∀ update ∈ news, update.touch = .answer place → update.change = .cleared)

structure Act (settings : Settings) (number : Nat) (effect : Effect) (target : Reference)
    (before after : Pass) (more : List Touch) (news : List Update) : Prop where
  shape : after.tree.SameShape before.tree
  type : ∀ place, after.tree.held .type place = before.tree.held .type place
  live : target ∈ before.tree.references →
    ∀ touch ∈ more, touch.reference ∈ before.tree.references
  failures : after.report.failures = before.report.failures
  fired : after.report.fired = before.report.fired
  updates : after.report.updates = before.report.updates ++ news
  fate : ∀ place, Fate settings number effect target before.tree after.tree news place

theorem Act.contained {settings : Settings} {number : Nat} {effect : Effect} {target : Reference}
    {before after : Pass} {more : List Touch} {news : List Update}
    (act : Act settings number effect target before after more news) :
    Contained effect target before.tree after.tree := by
  refine ⟨act.shape, fun place unchanged => ?_⟩
  cases act.fate place with
  | stays same _ => rw [AnswerTree.answer?_eq_held, AnswerTree.answer?_eq_held, same]
  | written writes here _ => exact absurd (.inl ⟨writes, here⟩) unchanged
  | dropped hides _ below _ _ _ _ => exact absurd (.inr ⟨hides, below⟩) unchanged

section Target

variable {settings : Settings} {number : Nat} {effect : Effect} {target : Reference}
  {node : Node} {outcome : Except EvaluationError Value} {before after : Pass}
  {more : List Touch} {news : List Update}

/-- A change of what the target holds, apart from types, is an act if it is told what
becomes of the answers. -/
theorem act_of_change {change : Node → Node} (isLocal : Node.Local change)
    (outline : ∀ node, (change node).outline = node.outline)
    (type : ∀ node, (change node).facts.type = node.facts.type)
    (tree : after.tree = before.tree.change target change)
    (touched : ∀ touch ∈ more, touch.reference = target)
    (failures : after.report.failures = before.report.failures)
    (fired : after.report.fired = before.report.fired)
    (updates : after.report.updates = before.report.updates ++ news)
    (fate : ∀ place, Fate settings number effect target before.tree after.tree news place) :
    Act settings number effect target before after more news := by
  refine ⟨?_, fun place => ?_, fun live touch member => ?_, failures, fired, updates, fate⟩
  · rw [tree]
    exact AnswerTree.change_sameShape outline _ _
  · rw [tree]
    refine AnswerTree.held_change_of_field isLocal (fun node => ?_) place
    exact type node
  · rw [touched touch member]
    exact live

theorem act_of_flags {change : Node → Node} (isLocal : Node.Local change)
    (outline : ∀ node, (change node).outline = node.outline)
    (type : ∀ node, (change node).facts.type = node.facts.type)
    (answer : ∀ node, (change node).facts.answer = node.facts.answer)
    (tree : after.tree = before.tree.change target change)
    (touched : ∀ touch ∈ more, touch.reference = target)
    (failures : after.report.failures = before.report.failures)
    (fired : after.report.fired = before.report.fired)
    (updates : after.report.updates = before.report.updates ++ news)
    (silent : ∀ update ∈ news, ∀ place, update.touch ≠ .answer place) :
    Act settings number effect target before after more news := by
  refine act_of_change isLocal outline type tree touched failures fired updates fun place =>
    .stays ?_ fun update member => silent update member place
  rw [tree]
  refine AnswerTree.held_change_of_field isLocal (fun node => ?_) place
  exact answer node

theorem report_foldl_noteCleared (number : Nat) (cleared : List Reference) (pass : Pass) :
    (cleared.foldl (noteCleared number) pass).report =
      { pass.report with
        updates := pass.report.updates ++ cleared.map fun place =>
          ⟨some number, place, .cleared⟩ } := by
  induction cleared generalizing pass with
  | nil => simp
  | cons reference cleared induction =>
      rw [List.foldl_cons, induction]
      simp [noteCleared, Pass.tell, Pass.noteUpdate]

theorem held_setRelevant (tree : AnswerTree) (target : Reference) (relevant : Bool) {field : Field}
    (other : field ≠ .relevant) (place : Reference) :
    (tree.change target (·.setRelevant relevant)).held field place = tree.held field place := by
  refine AnswerTree.held_change_of_field (Node.setRelevant_local relevant) (fun node => ?_) place
  cases node
  cases field <;> first | rfl | exact absurd rfl other

def hiddenNews (number : Nat) (target : Reference) (cleared : List Reference) (relevant : Bool) :
    List Update :=
  (cleared.map fun place => ⟨some number, place, .cleared⟩) ++
    [⟨some number, target, .relevance relevant⟩]

theorem of_mem_hiddenNews {cleared : List Reference} {relevant : Bool} {update : Update}
    {place : Reference} (member : update ∈ hiddenNews number target cleared relevant)
    (touched : update.touch = .answer place) : update.change = .cleared ∧ place ∈ cleared := by
  rcases List.mem_append.mp member with isCleared | last
  · rcases List.mem_map.mp isCleared with ⟨other, inCleared, rfl⟩
    cases touched
    exact ⟨rfl, inCleared⟩
  · rw [List.mem_singleton.mp last] at touched
    cases touched

theorem hidden_fate (clears : settings.hiddenAnswers = .clear) (number : Nat) (tree : AnswerTree)
    (target : Reference) (relevant : Bool) (place : Reference) :
    let hidden := (tree.change target (·.setRelevant relevant)).clear target
    Fate settings number .relevant target tree hidden.1
      (hiddenNews number target hidden.2 relevant) place := by
  intro hidden
  have flagged : _ = tree.held .answer place :=
    held_setRelevant tree target relevant Field.noConfusion place
  by_cases listed : place ∈ hidden.2
  · rcases AnswerTree.inside_of_mem_clear listed with ⟨below, inside, -⟩
    rcases AnswerTree.held_clear_of_mem listed with ⟨had, gone⟩
    rw [AnswerTree.answer?_eq_held, flagged, ← AnswerTree.answer?_eq_held] at had
    refine .dropped rfl clears ⟨below, inside.symm⟩ had gone
      (List.mem_append_left _ (List.mem_map_of_mem listed)) fun update member touched => ?_
    exact (of_mem_hiddenNews member touched).1
  · refine .stays ((AnswerTree.held_clear_of_not_mem listed).trans flagged)
      fun update member touched => ?_
    exact listed (of_mem_hiddenNews member touched).2

theorem hidden_act (clears : settings.hiddenAnswers = .clear) (number : Nat) (before : Pass)
    (target : Reference) (relevant : Bool) :
    let hidden := (before.tree.change target (·.setRelevant relevant)).clear target
    Act settings number .relevant target before
      ((hidden.2.foldl (noteCleared number) { before with tree := hidden.1 }).noteUpdate
        (some number) target (.relevance relevant))
      (.state target :: hidden.2.map .answer) (hiddenNews number target hidden.2 relevant) := by
  intro hidden
  have shape : (before.tree.change target (·.setRelevant relevant)).SameShape before.tree :=
    AnswerTree.change_sameShape (fun node => node.outline_setRelevant _) _ _
  refine ⟨?_, fun place => ?_, fun live touch member => ?_, ?_, ?_, ?_, fun place => ?_⟩
  · rw [Pass.noteUpdate, tree_foldl_noteCleared]
    exact (AnswerTree.change_sameShape Node.outline_clearAnswers _ _).trans shape
  · rw [Pass.noteUpdate, tree_foldl_noteCleared]
    exact (AnswerTree.held_clear_of_field Field.noConfusion place).trans
      (held_setRelevant _ _ _ Field.noConfusion place)
  · rcases List.mem_cons.mp member with rfl | lower
    · exact live
    · rcases List.mem_map.mp lower with ⟨place, listed, rfl⟩
      rw [← shape.references] at live ⊢
      exact AnswerTree.mem_references_of_mem_clear live listed
  · rw [Pass.noteUpdate, report_foldl_noteCleared]
  · rw [Pass.noteUpdate, report_foldl_noteCleared]
  · rw [Pass.noteUpdate, report_foldl_noteCleared]
    exact List.append_assoc _ _ _
  · rw [Pass.noteUpdate, tree_foldl_noteCleared]
    exact hidden_fate clears number before.tree target relevant place

theorem Deed.act (deed : Deed settings number target node before effect outcome after more) :
    ∃ news, Act settings number effect target before after more news := by
  cases deed with
  | idles =>
      exact ⟨[], .refl _, fun _ => rfl, fun _ => List.forall_mem_nil _, rfl, rfl,
        (List.append_nil _).symm, fun _ => .stays rfl (List.forall_mem_nil _)⟩
  | @writes _ writes _ current =>
      have isLocal : Node.Local (·.withFacts ({ · with answer := current })) :=
        Node.withFacts_local (fun _ => rfl) fun _ => rfl
      refine ⟨[⟨some number, target, .answer node.facts.answer current⟩],
        act_of_change isLocal (fun _ => Node.outline_withFacts rfl rfl) (fun _ => rfl) rfl
          (List.forall_mem_singleton.mpr rfl) rfl rfl rfl fun place => ?_⟩
      by_cases here : place = target
      · subst here
        exact .written writes rfl rfl
      · refine .stays (AnswerTree.held_change_other isLocal .answer here) ?_
        exact List.forall_mem_singleton.mpr fun touched => here (Touch.answer.inj touched).symm
  | @repeats result =>
      refine ⟨[], act_of_flags (Node.setRelevant_local result.truth)
        (fun node => node.outline_setRelevant _) (fun node => ?_) (fun node => ?_) rfl
        (List.forall_mem_nil _) rfl rfl (List.append_nil _).symm (List.forall_mem_nil _)⟩
      all_goals
        cases node
        rfl
  | @relates result =>
      refine ⟨[⟨some number, target, .relevance result.truth⟩],
        act_of_flags (Node.setRelevant_local result.truth)
          (fun node => node.outline_setRelevant _) (fun node => ?_) (fun node => ?_) rfl
          (List.forall_mem_singleton.mpr rfl) rfl rfl rfl
          (List.forall_mem_singleton.mpr fun _ => Touch.noConfusion)⟩
      all_goals
        cases node
        rfl
  | hides clears => exact ⟨_, hidden_act clears number before target false⟩
  | @requires result =>
      have isLocal : Node.Local (·.withFacts ({ · with required := result.truth })) :=
        Node.withFacts_local (fun _ => rfl) fun _ => rfl
      exact ⟨[⟨some number, target, .required result.truth⟩],
        act_of_flags isLocal (fun _ => Node.outline_withFacts rfl rfl) (fun _ => rfl)
          (fun _ => rfl) rfl (List.forall_mem_singleton.mpr rfl) rfl rfl rfl
          (List.forall_mem_singleton.mpr fun _ => Touch.noConfusion)⟩
  | @judges message =>
      let validity := verdict node.facts.answer message outcome
      have isLocal : Node.Local (·.withFacts ({ · with validity })) :=
        Node.withFacts_local (fun _ => rfl) fun _ => rfl
      exact ⟨[⟨some number, target, .validity validity⟩],
        act_of_flags isLocal (fun _ => Node.outline_withFacts rfl rfl) (fun _ => rfl)
          (fun _ => rfl) rfl (List.forall_mem_singleton.mpr rfl) rfl rfl rfl
          (List.forall_mem_singleton.mpr fun _ => Touch.noConfusion)⟩

theorem Engine.apply_act {engine : Engine}
    (applied : engine.apply before number effect target outcome = .ok (after, more)) :
    ∃ news, Act engine.settings number effect target before after more news := by
  rcases apply_deed applied with ⟨node, -, deed⟩
  exact deed.act

end Target

end ReactiveForm
