import ReactiveForm.Proofs.Awaiting
import ReactiveForm.Proofs.Persistence
import ReactiveForm.Proofs.SeriesList

/-! What is told of the members of a series from which one has been removed. Every member
behind it is repaired, with its children one after the other, and after each of these nodes it
is summed up how many rules have fired since the repair of the member began. -/

namespace ReactiveForm

/-! Passes that come one after another. -/

namespace Pass

def summaries (pass : Pass) : List Event := pass.events.filter Event.isSummary

def firedSince (begun pass : Pass) : List Nat := pass.report.fired.drop begun.report.fired.length

structure Precedes (earlier later : Pass) : Prop where
  shape : later.tree.SameShape earlier.tree
  fired : earlier.report.fired <+: later.report.fired
  events : earlier.events <+: later.events

theorem Precedes.refl (pass : Pass) : pass.Precedes pass :=
  ⟨.refl _, List.prefix_rfl, List.prefix_rfl⟩

theorem Precedes.trans {first second third : Pass} (left : first.Precedes second)
    (right : second.Precedes third) : first.Precedes third :=
  ⟨right.shape.trans left.shape, left.fired.trans right.fired, left.events.trans right.events⟩

theorem precedes_tell (pass : Pass) (event : Event) : pass.Precedes (pass.tell event) :=
  ⟨.refl _, List.prefix_rfl, List.prefix_append _ _⟩

structure GoesOn (earlier later : Pass) : Prop extends Precedes earlier later where
  summaries : later.summaries = earlier.summaries

theorem GoesOn.refl (pass : Pass) : pass.GoesOn pass := ⟨.refl pass, rfl⟩

theorem GoesOn.trans {first second third : Pass} (left : first.GoesOn second)
    (right : second.GoesOn third) : first.GoesOn third :=
  ⟨left.toPrecedes.trans right.toPrecedes, right.summaries.trans left.summaries⟩

theorem goesOn_of_events {earlier later : Pass} (shape : later.tree.SameShape earlier.tree)
    (fired : later.report.fired = earlier.report.fired) {news : List Event}
    (events : later.events = earlier.events ++ news)
    (silent : ∀ event ∈ news, event.isSummary = false) : earlier.GoesOn later := by
  refine ⟨⟨shape, fired ▸ List.prefix_rfl, events ▸ List.prefix_append _ _⟩, ?_⟩
  have none : news.filter Event.isSummary = [] :=
    List.filter_eq_nil_iff.mpr fun event member => by simp [silent event member]
  rw [Pass.summaries, Pass.summaries, events, List.filter_append, none, List.append_nil]

/-- The last thing told sums a node up: so many rules have fired since the repair began, no
two of them the same. -/
structure SumsUp (begun : Pass) (change : SeriesChange) (place : Reference) (pass : Pass) :
    Prop where
  since : begun.Precedes pass
  distinct : (begun.firedSince pass).Nodup
  told : pass.events.getLast? = some (.summary change place (begun.firedSince pass).length)

end Pass

theorem events_foldl_noteCleared (number : Nat) (cleared : List Reference) (pass : Pass) :
    (cleared.foldl (noteCleared number) pass).events =
      pass.events ++ cleared.map Event.cleared := by
  induction cleared generalizing pass with
  | nil => exact (List.append_nil _).symm
  | cons reference cleared induction =>
      rw [List.foldl_cons, induction]
      simp [noteCleared, Pass.tell, Pass.noteUpdate]

theorem Deed.goesOn {settings : Settings} {number : Nat} {target : Reference} {node : Node}
    {before after : Pass} {effect : Effect} {outcome : Except EvaluationError Value}
    {more : List Touch}
    (deed : Deed settings number target node before effect outcome after more) :
    before.GoesOn after := by
  rcases deed.act with ⟨news, act⟩
  have told {news : List Event} (events : after.events = before.events ++ news)
      (silent : ∀ event ∈ news, event.isSummary = false) : before.GoesOn after :=
    Pass.goesOn_of_events act.shape act.fired events silent
  cases deed with
  | writes => exact told rfl (List.forall_mem_singleton.mpr rfl)
  | hides =>
      refine told (events_foldl_noteCleared _ _ _) fun event member => ?_
      rcases List.mem_map.mp member with ⟨place, -, rfl⟩
      rfl
  | idles | repeats | relates | requires | judges =>
      exact told (List.append_nil _).symm (List.forall_mem_nil _)

namespace Engine

variable {engine : Engine} {change : SeriesChange}

theorem sustains_goesOn (engine : Engine) (begun : Pass) :
    engine.Sustains (fun _ => True) begun.GoesOn (fun _ => True) fun _ _ => True := by
  refine ⟨fun _ held => held.trans ?_, fun _ _ _ held => held.trans ?_,
    fun _ _ _ _ _ _ _ _ => trivial, fun held _ _ _ applied => ?_⟩
  · exact ⟨⟨.refl _, List.prefix_append _ _, List.prefix_rfl⟩, rfl⟩
  · exact ⟨⟨.refl _, List.prefix_rfl, List.prefix_rfl⟩, rfl⟩
  · rcases apply_deed applied with ⟨node, -, deed⟩
    exact ⟨held.trans deed.goesOn, fun _ _ => trivial⟩

theorem propagate_goesOn (engine : Engine) (changes : List Touch) (fired : List Nat)
    (pass : Pass) : pass.GoesOn (engine.propagate changes fired pass).1 :=
  (engine.sustains_goesOn pass).confines.propagate (fun _ _ => trivial) (fun _ _ => trivial) fired
    (.refl pass)

/-! The rules that have fired. -/

structure Tracks (begun : Pass) (progress : Pass × List Nat) : Prop where
  fired : progress.1.report.fired = begun.report.fired ++ progress.2
  distinct : progress.2.Nodup

namespace Tracks

variable {begun : Pass} {progress : Pass × List Nat}

theorem start (pass : Pass) : Tracks pass (pass, []) := ⟨(List.append_nil _).symm, .nil⟩

theorem firedSince (tracks : Tracks begun progress) :
    begun.firedSince progress.1 = progress.2 := by
  rw [Pass.firedSince, tracks.fired, List.drop_left]

theorem turn {spread : Spread} (tracks : Tracks begun (spread.pass, spread.fired))
    (engine : Engine) (origin : Reference) (number : Nat) :
    Tracks begun ((engine.turn origin spread number).pass,
      (engine.turn origin spread number).fired) := by
  rcases engine.turn_cases origin spread number with ⟨same, -⟩ | ⟨rule, fresh, -, -, turned⟩
  · rw [same]
    exact tracks
  · rw [turned]
    refine ⟨?_, tracks.distinct.append (List.nodup_singleton number) ?_⟩
    · dsimp only
      rw [fired_fire, tracks.fired, List.append_assoc]
    · exact List.disjoint_singleton.mpr fresh

theorem propagate (tracks : Tracks begun progress) (engine : Engine) (changes : List Touch) :
    Tracks begun (engine.propagate changes progress.2 progress.1) := by
  cases changes with
  | nil => exact tracks
  | cons first changes =>
      rw [Engine.propagate]
      generalize engine.dependencies.affectedBy (engine.directlyTriggered (first :: changes)) =
        numbers
      have started : Tracks begun
          ((⟨progress.1, progress.2, first :: changes⟩ : Spread).pass,
            (⟨progress.1, progress.2, first :: changes⟩ : Spread).fired) := tracks
      generalize (⟨progress.1, progress.2, first :: changes⟩ : Spread) = spread at started ⊢
      induction numbers generalizing spread with
      | nil => exact started
      | cons number numbers induction => exact induction _ (started.turn engine _ number)

end Tracks

/-! One node after the other. -/

theorem repairNode_tells (told : engine.settings.publishSummaries = true)
    (change : SeriesChange) (progress : Pass × List Nat) (place : Reference) :
    let next := engine.repairNode change progress place
    progress.1.Precedes next.1 ∧
      next.1.summaries = progress.1.summaries ++ [.summary change place next.2.length] ∧
      next.1.events.getLast? = some (.summary change place next.2.length) := by
  have spread := engine.propagate_goesOn [.state place] progress.2 progress.1
  dsimp only
  rw [repairNode]
  dsimp only
  rw [summarize, if_pos told]
  refine ⟨spread.toPrecedes.trans (Pass.precedes_tell _ _), ?_, List.getLast?_concat⟩
  rw [← spread.summaries]
  exact List.filter_append _ _

theorem Tracks.repairNode {begun : Pass} {progress : Pass × List Nat}
    (tracks : Tracks begun progress) (engine : Engine) (change : SeriesChange)
    (place : Reference) : Tracks begun (engine.repairNode change progress place) := by
  have spread := tracks.propagate engine [.state place]
  rw [Engine.repairNode]
  dsimp only
  rw [summarize]
  split
  · exact ⟨spread.fired, spread.distinct⟩
  · exact spread

def repairs (engine : Engine) (change : SeriesChange) : (progress : Pass × List Nat) →
    List Reference → List (Reference × Pass)
  | _, [] => []
  | progress, place :: places =>
      let next := engine.repairNode change progress place
      (place, next.1) :: repairs engine change next places

theorem map_repairs (progress : Pass × List Nat) (places : List Reference) :
    (engine.repairs change progress places).map Prod.fst = places := by
  induction places generalizing progress with
  | nil => rfl
  | cons place places induction => rw [repairs, List.map_cons, induction]

theorem getLast?_repairs (progress : Pass × List Nat) (place : Reference)
    (places : List Reference) :
    (engine.repairs change progress (place :: places)).getLast?.map Prod.snd =
      some ((place :: places).foldl (engine.repairNode change) progress).1 := by
  induction places generalizing progress place with
  | nil => rfl
  | cons next places induction =>
      rw [repairs, repairs, List.getLast?_cons_cons, ← repairs, induction]
      rfl

/-- What is told of a repair that has got from one pass to another: each node is summed up,
in the order of the repair, and of nothing else is there a summary. -/
structure Sums (change : SeriesChange) (begun : Pass) (passes : List (Reference × Pass))
    (before after : Pass) : Prop where
  precedes : before.Precedes after
  summaries : after.summaries = before.summaries ++ passes.map fun entry =>
    .summary change entry.1 (begun.firedSince entry.2).length
  each : ∀ entry ∈ passes, begun.SumsUp change entry.1 entry.2 ∧ entry.2.Precedes after

theorem repairs_sums (told : engine.settings.publishSummaries = true) {begun : Pass}
    {progress : Pass × List Nat} (tracks : Tracks begun progress)
    (since : begun.Precedes progress.1) (places : List Reference) :
    Sums change begun (engine.repairs change progress places) progress.1
      (places.foldl (engine.repairNode change) progress).1 := by
  induction places generalizing progress with
  | nil => exact ⟨.refl _, (List.append_nil _).symm, List.forall_mem_nil _⟩
  | cons place places induction =>
      rcases repairNode_tells told change progress place with
        ⟨precedes, summaries, last⟩
      have tracksToo := tracks.repairNode engine change place
      have rest := induction tracksToo (since.trans precedes)
      have count := congrArg List.length tracksToo.firedSince
      rw [List.foldl_cons, repairs]
      refine ⟨precedes.trans rest.precedes, ?_, List.forall_mem_cons.mpr ⟨⟨?_, rest.precedes⟩,
        rest.each⟩⟩
      · rw [rest.summaries, summaries, List.append_assoc, List.map_cons, count]
        rfl
      · refine ⟨since.trans precedes, ?_, ?_⟩
        · rw [tracksToo.firedSince]
          exact tracksToo.distinct
        · rw [count]
          exact last

/-! One member after the other. -/

theorem childReferences_sameShape {left right : AnswerTree} (shape : left.SameShape right)
    (place : Reference) : childReferences left place = childReferences right place := by
  have steps (node : Node) : (node.children.filter (!·.isTemplate)).map (fun child =>
      place.child child.facts.name child.facts.multiplicity) =
        (node.outline.children.filter (!·.isTemplate)).map fun child =>
          place.child child.facts.name child.facts.multiplicity := by
    have live : (fun child : Node => !child.isTemplate) ∘ Node.outline =
        fun child => !child.isTemplate :=
      funext fun child => congrArg not child.isTemplate_outline
    rw [Node.outline_children, List.filter_map, live, List.map_map]
    apply List.map_congr_left
    intro child _
    simp [Facts.blank]
  have outlines := shape.find?_outline place
  rw [childReferences, childReferences]
  cases found : left.find? place with
  | none =>
      rw [found] at outlines
      rw [Option.map_eq_none_iff.mp outlines.symm]
  | some node =>
      rw [found] at outlines
      rcases Option.map_eq_some_iff.mp outlines.symm with ⟨other, there, outline⟩
      rw [there]
      dsimp only
      rw [steps node, steps other, outline]

def family (tree : AnswerTree) (member : Reference) : List Reference :=
  member :: childReferences tree member

theorem repairMember_eq {tree : AnswerTree} {pass : Pass} (shape : tree.SameShape pass.tree)
    (member : Reference) :
    engine.repairMember change pass member =
      ((family tree member).foldl (engine.repairNode change) (pass, [])).1 := by
  have spread := (engine.propagate_goesOn [.state member] [] pass).shape
  have kept : (engine.repairNode change (pass, []) member).1.tree.SameShape tree := by
    rw [repairNode, tree_summarize]
    exact spread.trans shape.symm
  rw [repairMember, childReferences_sameShape kept]
  rfl

theorem repairMember_sums (told : engine.settings.publishSummaries = true)
    (change : SeriesChange) {tree : AnswerTree} {pass : Pass} (shape : tree.SameShape pass.tree)
    (member : Reference) :
    Sums change pass (engine.repairs change (pass, []) (family tree member)) pass
      (engine.repairMember change pass member) := by
  rw [repairMember_eq shape]
  exact repairs_sums told (.start pass) (.refl pass) _

theorem repairMembers_succ (parent : Reference) (name : String) (first count : Nat)
    (pass : Pass) :
    engine.repairMembers change parent name first (first + (count + 1)) pass =
      engine.repairMember change
        (engine.repairMembers change parent name first (first + count) pass)
        (parent.child name (.index (first + count))) := by
  rw [repairMembers, repairMembers, Nat.add_sub_cancel_left, Nat.add_sub_cancel_left,
    List.range'_concat, List.foldl_append, Nat.one_mul]
  rfl

/-- Members from one number up to, not including, another are repaired in ascending order,
each from where the one before it has got to. -/
theorem repairMembers_sums (told : engine.settings.publishSummaries = true)
    (change : SeriesChange) {tree : AnswerTree} (pass : Pass) (shape : tree.SameShape pass.tree)
    (parent : Reference) (name : String) (first count : Nat) :
    let begun (position : Nat) := engine.repairMembers change parent name first position pass
    let passes (position : Nat) := engine.repairs change (begun position, [])
      (family tree (parent.child name (.index position)))
    pass.Precedes (begun (first + count)) ∧
      (begun (first + count)).summaries = pass.summaries ++
        (List.range' first count).flatMap (fun position => (passes position).map fun entry =>
          .summary change entry.1 ((begun position).firedSince entry.2).length) ∧
      ∀ position ∈ List.range' first count,
        (passes position).getLast?.map Prod.snd = some (begun (position + 1)) ∧
        ∀ entry ∈ passes position, (begun position).SumsUp change entry.1 entry.2 ∧
          entry.2.Precedes (begun (first + count)) := by
  intro begun passes
  induction count with
  | zero =>
      have start : begun (first + 0) = pass := by
        simp only [begun, repairMembers, Nat.add_sub_cancel_left]
        rfl
      rw [start]
      exact ⟨.refl pass, (List.append_nil _).symm, List.forall_mem_nil _⟩
  | succ count induction =>
      rcases induction with ⟨precedes, summaries, each⟩
      have next : begun (first + (count + 1)) = engine.repairMember change (begun (first + count))
          (parent.child name (.index (first + count))) := repairMembers_succ ..
      have shapeNow := shape.trans precedes.shape.symm
      have sums := repairMember_sums told change shapeNow
        (parent.child name (.index (first + count)))
      rw [← next] at sums
      refine ⟨precedes.trans sums.precedes, ?_, ?_⟩
      · rw [sums.summaries, summaries, List.range'_concat, List.flatMap_append, Nat.one_mul,
          List.flatMap_singleton, List.append_assoc]
      · rw [List.range'_concat, Nat.one_mul]
        refine List.forall_mem_append.mpr ⟨fun position member => ?_,
          List.forall_mem_singleton.mpr ⟨?_, sums.each⟩⟩
        · rcases each position member with ⟨last, each⟩
          refine ⟨last, fun entry isPass => ?_⟩
          rcases each entry isPass with ⟨summed, before⟩
          exact ⟨summed, before.trans sums.precedes⟩
        · rw [Nat.add_assoc, next, repairMember_eq shapeNow]
          exact getLast?_repairs ..

theorem afterRemoval_goesOn {tree : AnswerTree} {reference parent : Reference}
    {removed node : Node} {pass : Pass} {first : Nat}
    (removing : engine.afterRemoval tree (some reference) parent removed = .ok pass)
    (index : removed.facts.multiplicity = .index first) (found : tree.find? parent = some node) :
    (engine.repairMembers .deleted parent removed.facts.name first
      (first + (node.memberCount removed.facts.name - first)) (.start tree)).GoesOn pass := by
  rw [afterRemoval, index] at removing
  dsimp only at removing
  rw [found] at removing
  cases removing
  rw [repairMembers, repairMembers, Nat.add_sub_cancel_left]
  exact engine.propagate_goesOn _ _ _

end Engine

/-! After a removal. -/

theorem Reference.child_inj {left right : Reference} {name other : String}
    {multiplicity number : Multiplicity}
    (same : left.child name multiplicity = right.child other number) :
    left = right ∧ name = other ∧ multiplicity = number := by
  rcases left with ⟨origin, steps⟩
  rcases right with ⟨_, others⟩
  injection same with origins ends
  rcases List.append_inj_left' ends rfl with rfl
  cases origins
  cases List.append_cancel_left ends
  exact ⟨rfl, rfl, rfl⟩

namespace Node

theorem removeMember?_ok {node removed remaining : Node} {name : String} {position : Nat}
    (taken : node.removeMember? name position = some (removed, remaining)) :
    removed.facts.name = name ∧ removed.facts.multiplicity = .index position ∧
      Counted name remaining.children := by
  rw [removeMember?] at taken
  rcases Option.map_eq_some_iff.mp taken with ⟨⟨first, rest⟩, took, equal⟩
  rcases takeFirst?_eq_some took with ⟨before, after, -, -, here⟩
  cases equal
  rw [isAt, Bool.and_eq_true, beq_iff_eq, beq_iff_eq] at here
  exact ⟨here.1, here.2, counted_iff.mpr ⟨_, renumberFrom_counted name 0 rest⟩⟩

theorem steps_of_outline {left right : Node} (same : left.outline = right.outline) :
    left.children.map step = right.children.map step := by
  have steps (node : Node) : node.children.map step = node.outline.children.map step := by
    rw [outline_children, List.map_map]
    apply List.map_congr_left
    intro child _
    simp [Node.step, Facts.blank]
  rw [steps left, steps right, same]

end Node

namespace AnswerTree

theorem remove_counted {tree shrunk : AnswerTree} {reference : Reference} {removed : Node}
    (done : tree.remove reference = .ok (shrunk, removed)) :
    ∃ parent position node, reference.parent? = some parent ∧
      reference = parent.child removed.facts.name (.index position) ∧
      removed.facts.multiplicity = .index position ∧ shrunk.find? parent = some node ∧
      Node.Counted removed.facts.name node.children := by
  rcases remove_ok done with
    ⟨position, name, parent, node, remaining, lastMultiplicity, lastName, isParent, found, -,
      taken, rfl⟩
  rcases Node.removeMember?_others taken with ⟨facts, others⟩
  rcases Node.removeMember?_ok taken with ⟨rfl, index, counted⟩
  rcases parent_steps found with ⟨path, isPlace, -⟩
  exact ⟨parent, position, remaining, isParent,
    Reference.eq_child_of_parent? isParent isPlace.absolute lastName lastMultiplicity, index,
    (changesSeries_of_change found facts others).foundAfter, counted⟩

theorem SameShape.exists_counted {left right : AnswerTree} (shape : left.SameShape right)
    {parent : Reference} {name : String} {node : Node} (found : right.find? parent = some node)
    (counted : Node.Counted name node.children) :
    ∃ other, left.find? parent = some other ∧ other.memberCount name = node.memberCount name ∧
      Node.Counted name other.children := by
  have outlines := shape.find?_outline parent
  rw [found] at outlines
  rcases Option.map_eq_some_iff.mp outlines with ⟨other, there, same⟩
  have steps := Node.steps_of_outline same
  have numbers := congrArg List.length (@Node.multiplicities_of_steps name _ _ steps)
  rw [List.length_map, List.length_map] at numbers
  exact ⟨other, there, numbers, counted.congr steps.symm⟩

end AnswerTree

/-- When a member has been removed from its series, the members that are now at or behind its
place are repaired in ascending order, and nothing else is summed up. For each of them there is
one summary, and then one for each of its children in document order. A summary is told in the
pass after the repair of its node; it counts the rules that have fired since the repair of the
member began, and those are all different. -/
theorem Definition.removeMember_summaries {definition : Definition} {constructors : Constructors}
    {settings : Settings} {material : Material} {evaluator : Evaluator}
    {saved : Option AnswerTree} {form : Form}
    (made : definition.material constructors settings = .ok material)
    (told : settings.publishSummaries = true)
    (built : Form.build material evaluator saved = .ok form) {current : Form}
    (reached : form.Reached current) {reference : Reference} {outcome : Outcome}
    (done : current.removeMember reference = .ok outcome) :
    ∃ parent name first node shrunk removed,
      reference = parent.child name (.index first) ∧
      current.tree.remove reference = .ok (shrunk, removed) ∧
      outcome.form.tree.find? parent = some node ∧
      (∀ position, outcome.form.tree.find? (parent.child name (.index position)) =
        (node.members name)[position]?) ∧
      let begun (position : Nat) :=
        current.engine.repairMembers .deleted parent name first position (.start shrunk)
      let passes (position : Nat) := current.engine.repairs .deleted (begun position, [])
        (Engine.family outcome.form.tree (parent.child name (.index position)))
      let behind := List.range' first (node.memberCount name - first)
      outcome.events.filter Event.isSummary =
        behind.flatMap (fun position => (passes position).map fun entry =>
          .summary .deleted entry.1 ((begun position).firedSince entry.2).length) ∧
      ∀ position ∈ behind,
        (passes position).map Prod.fst =
          Engine.family outcome.form.tree (parent.child name (.index position)) ∧
        (passes position).getLast?.map Prod.snd = some (begun (position + 1)) ∧
        ∀ entry ∈ passes position, (begun position).SumsUp .deleted entry.1 entry.2 ∧
          entry.2.Precedes outcome.pass := by
  rw [← reached.settings_eq made built] at told
  rcases Form.removeMember_ok done with
    ⟨parent, shrunk, removed, pass, isParent, taken, removing, rfl⟩
  rcases AnswerTree.remove_counted taken with
    ⟨other, first, remaining, again, isMember, index, found, counted⟩
  cases isParent.symm.trans again
  -- After the repairs, only what read the removed node is looked at, and that is not summed up.
  have goesOn := Engine.afterRemoval_goesOn removing index found
  generalize removed.facts.name = name at *
  have shape : pass.tree.SameShape shrunk := by
    rcases Engine.repairMembers_sums told .deleted (.start shrunk) (.refl shrunk) parent name first
      (remaining.memberCount name - first) with ⟨precedes, -⟩
    exact goesOn.shape.trans precedes.shape
  rcases shape.exists_counted found counted with ⟨node, there, members, countedToo⟩
  rcases Engine.repairMembers_sums told .deleted (.start shrunk) shape parent name first
    (remaining.memberCount name - first) with ⟨-, summaries, each⟩
  rw [← members] at goesOn summaries each
  refine ⟨parent, name, first, node, shrunk, removed, isMember, taken, there, fun position => ?_,
    ?_⟩
  · rw [← countedToo.child?_eq_getElem?]
    exact AnswerTree.find?_child there rfl
  · intro begun passes behind
    refine ⟨goesOn.summaries.trans summaries, fun position member => ?_⟩
    rcases each position member with ⟨last, each⟩
    refine ⟨Engine.map_repairs _ _, last, fun entry isPass => ?_⟩
    rcases each entry isPass with ⟨summed, before⟩
    exact ⟨summed, before.trans goesOn.toPrecedes⟩

/-- The first of three items is removed. For each of the others two rules fire, then two more for
its price, and none for its share. -/
theorem order_removeMember_summaries : ∃ material form grown outcome shrunk,
    Order.definition.material .standard .standard = .ok material ∧
    Form.build material (Expression.evaluator .startOf2020) none = .ok form ∧
    form.initial.form.perform (.insertMember Order.place "item" 1) = .ok grown ∧
    grown.form.removeMember (Order.place.child "item" (.index 0)) = .ok outcome ∧
    outcome.events.filter Event.isSummary = [0, 1].flatMap (fun position =>
      [.summary .deleted (Order.place.child "item" (.index position)) 2,
        .summary .deleted (Order.ofItem position "price") 4,
        .summary .deleted (Order.ofItem position "share") 4]) ∧
    let begun (position : Nat) :=
      grown.form.engine.repairMembers .deleted Order.place "item" 0 position (.start shrunk)
    ∀ position ∈ [0, 1], ∀ entry ∈ grown.form.engine.repairs .deleted (begun position, [])
        (Engine.family outcome.form.tree (Order.place.child "item" (.index position))),
      (begun position).SumsUp .deleted entry.1 entry.2 := by
  have ready : (Order.definition.material .standard .standard).toOption.any (fun material =>
      (Form.build material (Expression.evaluator .startOf2020) none).toOption.any fun form =>
        (form.initial.form.perform (.insertMember Order.place "item" 1)).toOption.any fun grown =>
          (grown.form.removeMember (Order.place.child "item" (.index 0))).toOption.any
            fun outcome => decide (outcome.events.filter Event.isSummary =
                [0, 1].flatMap (fun position =>
                  [.summary .deleted (Order.place.child "item" (.index position)) 2,
                    .summary .deleted (Order.ofItem position "price") 4,
                    .summary .deleted (Order.ofItem position "share") 4])) &&
              (outcome.form.tree.find? Order.place).any (·.memberCount "item" == 2)) = true := by
    decide +kernel
  rcases exists_ok_of_any ready with ⟨material, made, ready⟩
  rcases exists_ok_of_any ready with ⟨form, built, ready⟩
  rcases exists_ok_of_any ready with ⟨grown, inserted, ready⟩
  rcases exists_ok_of_any ready with ⟨outcome, done, ready⟩
  rcases Bool.and_eq_true_iff.mp ready with ⟨summaries, remain⟩
  rcases (Option.any_eq_true _ _).mp remain with ⟨node, found, remain⟩
  rcases Definition.removeMember_summaries made rfl built ((Form.Reached.initial form).perform
    inserted) done with ⟨parent, name, first, other, shrunk, removed, same, -, there, -, -, each⟩
  rcases Reference.child_inj same with ⟨rfl, rfl, isFirst⟩
  cases isFirst
  cases found.symm.trans there
  rw [beq_iff_eq.mp remain] at each
  exact ⟨material, form, grown, outcome, shrunk, made, built, inserted, done,
    decide_eq_true_eq.mp summaries, fun position member entry isPass =>
      ((each position member).2.2 entry isPass).1⟩

end ReactiveForm
