import ReactiveForm.Proofs.Resolving

/-! The targets of rules while a form is filled in. Building a form looks for each
target at one child of every name. Where nodes with the same path of names have
children of the same names, that is enough: over saved answers or not, the form keeps
all of these names. So every target can be resolved in all later states, everywhere or
near any path from the root, and whatever fails in a pass fails at a node. -/

namespace ReactiveForm

/-! Layouts under saved answers. -/

theorem changeFirst_forall₂ {α : Type} {holds : α → Bool} {change : α → α} : ∀ list : List α,
    List.Forall₂ (fun changed element => changed = element ∨ changed = change element)
      (changeFirst holds change list) list
  | [] => .nil
  | head :: tail => by
      rw [changeFirst]
      split
      · exact .cons (.inr rfl) (List.forall₂_same.mpr fun _ _ => .inl rfl)
      · exact .cons (.inl rfl) (changeFirst_forall₂ tail)

namespace Node

variable {layout : Layout} {node : Node}

theorem IsLaidOut.changeChild (laidOut : node.IsLaidOut layout) (name : String)
    (multiplicity : Multiplicity) {change : Node → Node}
    (keeps : ∀ child, (change child).facts.name = child.facts.name ∧
      ∀ layout, child.IsLaidOut layout → (change child).IsLaidOut layout) :
    (node.changeChild name multiplicity change).IsLaidOut layout := by
  refine laidOut.of_forall₂ ((changeFirst_forall₂ node.children).imp ?_)
  rintro changed child (rfl | rfl)
  · exact ⟨rfl, fun _ => id⟩
  · exact keeps child

theorem IsLaidOut.provide (laidOut : node.IsLaidOut layout) (name : String)
    (multiplicity : Multiplicity) : (node.provide name multiplicity).IsLaidOut layout := by
  rw [Node.provide]
  split
  · exact laidOut
  · split
    · exact laidOut
    next template found =>
      refine IsLaidOut.renumber ?_ name
      have inChildren := mem_of_child? found
      have original : ∀ child ∈ (node.append (template.copy multiplicity)).children,
          ∃ original ∈ node.children, original.facts.name = child.facts.name ∧
            ∀ layout, original.IsLaidOut layout → child.IsLaidOut layout := by
        intro child member
        rcases List.mem_append.mp member with inNode | isLast
        · exact ⟨child, inNode, rfl, fun _ => id⟩
        · rw [List.mem_singleton.mp isLast]
          refine ⟨template, inChildren, ?_, fun layout laidOut => ?_⟩
          · split <;> simp [placed, Node.withFacts]
          · refine IsLaidOut.of_outline ?_ (outline_inherit _ _)
            split
            · exact laidOut.copy multiplicity
            · exact (laidOut.copy multiplicity).withFacts _
      refine laidOut.of_children (hasChildNamed_congr (fun child member => ?_) fun child member => ?_)
        original
      · rcases original child member with ⟨original, inChildren, named, -⟩
        exact ⟨original, inChildren, named⟩
      · exact ⟨child, List.mem_append_left _ member, rfl⟩

theorem restores_isLaidOut : Restores fun node other =>
    other.facts.name = node.facts.name ∧
      ∀ layout, node.IsLaidOut layout → other.IsLaidOut layout where
  refl _ := ⟨rfl, fun _ => id⟩
  trans := fun ⟨named, first⟩ ⟨namedToo, second⟩ =>
    ⟨namedToo.trans named, fun layout => second layout ∘ first layout⟩
  takeOver _ _ := ⟨rfl, fun _ laidOut => laidOut.withFacts _⟩
  provide node name multiplicity _ :=
    ⟨congrArg Facts.name (facts_provide node name multiplicity),
      fun _ laidOut => laidOut.provide name multiplicity⟩
  changeChild _ _ _ each := ⟨rfl, fun _ laidOut => laidOut.changeChild _ _ each⟩

end Node

theorem AnswerTree.restore_isLaidOut {tree saved restored : AnswerTree} {layout : Layout}
    (laidOut : tree.IsLaidOut layout) (done : tree.restore saved = .ok restored) :
    restored.IsLaidOut layout := by
  rcases Node.restores_isLaidOut.root done with ⟨named, keeps⟩
  rcases laidOut with ⟨root, inside⟩
  rw [← named] at root inside
  exact ⟨root, keeps _ inside⟩

theorem AnswerTree.lasting_isLaidOut (layout : Layout) : IsLasting (·.IsLaidOut layout) where
  adjusts laidOut adjusts := (change_sameShape adjusts.outline_eq _ _).isLaidOut laidOut
  insert := insert_isLaidOut
  remove := remove_isLaidOut

/-! Targets that are declared. -/

/-- A path that leads from a root on. -/
structure Reference.IsFrom (root : String) (reference : Reference) : Prop where
  absolute : reference.origin = .absolute
  first : ∃ rest, reference.steps = ⟨root, .index 0⟩ :: rest

theorem Reference.IsFrom.child {root : String} {reference : Reference}
    (isFrom : reference.IsFrom root) (name : String) (multiplicity : Multiplicity) :
    (reference.child name multiplicity).IsFrom root := by
  rcases isFrom.first with ⟨rest, steps⟩
  exact ⟨isFrom.absolute, rest ++ [⟨name, multiplicity⟩], by rw [Reference.child, steps]; rfl⟩

theorem AnswerTree.isFrom_of_find? {tree : AnswerTree} {place : Reference} {node : Node}
    (found : tree.find? place = some node) : place.IsFrom tree.root.facts.name := by
  rcases parent_steps found with ⟨path, isPlace, steps, -⟩
  exact ⟨isPlace.absolute, path, steps⟩

structure Rule.IsDeclared (layout : Layout) (rule : Rule) : Prop where
  pattern : rule.target.IsPattern
  nonempty : rule.target.steps ≠ []
  declares : layout.Declares (rule.target.steps.map (·.name))

namespace Engine

variable {engine : Engine} {layout : Layout} {tree : AnswerTree} {rule : Rule}

theorem exists_targetsNear (declared : rule.IsDeclared layout) (laidOut : tree.IsLaidOut layout)
    {anchor : Reference} (isFrom : anchor.IsFrom tree.root.facts.name) :
    ∃ found, targetsNear tree rule anchor = .ok found := by
  rcases isFrom.first with ⟨rest, steps⟩
  rw [targetsNear, Reference.anchor_of_absolute declared.pattern.absolute isFrom.absolute]
  refine laidOut.exists_expand rfl ?_ fun first isFirst => ?_
  · rw [Reference.absolute, Reference.map_name_anchorSteps]
    exact declared.declares
  · rw [steps] at isFirst
    exact declared.pattern.head_anchorSteps isFirst

theorem exists_targets (declared : rule.IsDeclared layout) (laidOut : tree.IsLaidOut layout)
    {anchors : List Reference} (areFrom : ∀ anchor ∈ anchors, anchor.IsFrom tree.root.facts.name) :
    ∃ found, targets tree rule anchors = .ok found := by
  have near : ∃ lists, anchors.mapM (targetsNear tree rule) = .ok lists := by
    induction anchors with
    | nil => exact ⟨[], rfl⟩
    | cons anchor anchors induction =>
        rcases List.forall_mem_cons.mp areFrom with ⟨first, others⟩
        rcases exists_targetsNear declared laidOut first with ⟨found, located⟩
        rcases induction others with ⟨lists, rest⟩
        exact ⟨found :: lists, by rw [List.mapM_cons, located, rest]; rfl⟩
  rw [targets]
  split
  · exact laidOut.exists_expand declared.pattern.absolute declared.declares fun first isFirst =>
      .inl (declared.pattern.unbound first (List.mem_of_mem_head? isFirst))
  · rcases near with ⟨lists, located⟩
    exact ⟨_, by rw [located]; rfl⟩

theorem exists_of_mem_targets (declared : rule.IsDeclared layout) (distinct : tree.root.IsDistinct)
    {anchors found : List Reference} (located : targets tree rule anchors = .ok found)
    {target : Reference} (member : target ∈ found) : ∃ node, tree.find? target = some node := by
  have resolved {reference : Reference} (absolute : reference.origin = .absolute)
      {found : List Reference} (expanded : tree.expand reference none = .ok found)
      (member : target ∈ found) : ∃ node, tree.find? target = some node := by
    rw [AnswerTree.expand_of_absolute absolute] at expanded
    exact AnswerTree.exists_of_mem_expandAbsolute distinct expanded member
  by_cases everywhere : anchors = []
  · rw [everywhere] at located
    exact resolved declared.pattern.absolute located member
  · rcases (mem_targets everywhere located).2 target member with ⟨anchor, -, near, isNear, inNear⟩
    rw [targetsNear] at isNear
    split at isNear
    · cases isNear
    next reference anchored =>
      exact resolved (Reference.anchor_origin anchored) isNear inNear

end Engine

/-! Failures. -/

/-- A pass over a tree of some shape, in which all that failed did so at nodes. -/
structure Pass.FailsAtNodes (base : AnswerTree) (pass : Pass) : Prop where
  shape : pass.tree.SameShape base
  failures : ∀ failure ∈ pass.report.failures, ∃ node, base.find? failure.target = some node

theorem Pass.FailsAtNodes.start (base : AnswerTree) : (Pass.start base).FailsAtNodes base :=
  ⟨.refl base, List.forall_mem_nil _⟩

namespace Engine

def Declares (engine : Engine) (layout : Layout) : Prop :=
  ∀ {number : Nat} {rule : Rule}, engine.rulebook.rule? number = some rule →
    rule.IsDeclared layout

namespace Declares

variable {engine : Engine} {layout : Layout} {base : AnswerTree} {number : Nat} {rule : Rule}
  (declares : engine.Declares layout) (distinct : base.root.IsDistinct)
  (laidOut : base.IsLaidOut layout)

include declares distinct in
theorem keeps : engine.Keeps (·.SameShape base) (·.IsFrom base.root.facts.name) := by
  refine ⟨fun isFrom _ => isFrom.child _ _, ?_, fun shape _ adjusts => ?_⟩
  · intro tree number rule anchors found shape entered _ located target member
    rw [targets_sameShape shape] at located
    rcases exists_of_mem_targets (declares entered) distinct located member with ⟨node, isNode⟩
    exact AnswerTree.isFrom_of_find? isNode
  · exact (AnswerTree.change_sameShape adjusts.outline_eq _ _).trans shape

include declares distinct in
theorem fireAt_failsAtNodes {progress : Pass × List Touch} (held : progress.1.FailsAtNodes base)
    (touched : ∀ touch ∈ progress.2, touch.reference.IsFrom base.root.facts.name)
    {target : Reference} (isNode : ∃ node, base.find? target = some node) :
    (engine.fireAt number rule progress target).1.FailsAtNodes base ∧
      ∀ touch ∈ (engine.fireAt number rule progress target).2,
        touch.reference.IsFrom base.root.facts.name := by
  rcases isNode with ⟨node, found⟩
  rw [fireAt]
  split
  next after more applied =>
    rcases (declares.keeps distinct).apply held.shape (AnswerTree.isFrom_of_find? found) applied with
      ⟨shape, reached⟩
    rcases apply_deed applied with ⟨_, -, deed⟩
    rcases deed.act with ⟨news, act⟩
    refine ⟨⟨shape, ?_⟩, List.forall_mem_append.mpr ⟨touched, reached⟩⟩
    rw [act.failures]
    exact held.failures
  next reason _ =>
    exact ⟨⟨held.shape, List.forall_mem_append.mpr
      ⟨held.failures, List.forall_mem_singleton.mpr ⟨node, found⟩⟩⟩, touched⟩

include declares distinct laidOut in
theorem fire_failsAtNodes (entered : engine.rulebook.rule? number = some rule)
    {anchors : List Reference} (areFrom : ∀ anchor ∈ anchors, anchor.IsFrom base.root.facts.name)
    {pass : Pass} (held : pass.FailsAtNodes base) :
    (engine.fire number rule anchors pass).1.FailsAtNodes base ∧
      ∀ touch ∈ (engine.fire number rule anchors pass).2,
        touch.reference.IsFrom base.root.facts.name := by
  rcases exists_targets (declares entered) laidOut areFrom with ⟨found, located⟩
  have there : targets (pass.noteFired number).tree rule anchors = .ok found := by
    rw [← located]
    exact targets_sameShape held.shape
  rw [fire, there]
  dsimp only
  refine List.foldlRecOn (motive := fun progress : Pass × List Touch =>
    progress.1.FailsAtNodes base ∧
      ∀ touch ∈ progress.2, touch.reference.IsFrom base.root.facts.name) found _
    ⟨⟨held.shape, held.failures⟩, List.forall_mem_nil _⟩ fun progress held target member => ?_
  exact declares.fireAt_failsAtNodes distinct held.1 held.2
    (exists_of_mem_targets (declares entered) distinct located member)

include declares distinct laidOut in
theorem confines : engine.Confines (fun _ => True) (Pass.FailsAtNodes base)
    (·.IsFrom base.root.facts.name) := fun _ _ _ _ _ entered _ areFrom held =>
  declares.fire_failsAtNodes distinct laidOut entered areFrom held

include declares distinct laidOut in
theorem carries : engine.Carries (Pass.FailsAtNodes base) (·.IsFrom base.root.facts.name) :=
  (declares.confines distinct laidOut).carries (fun _ _ _ held => ⟨held.shape, held.failures⟩)
    fun _ _ isFrom _ => isFrom.child _ _

end Declares

end Engine

/-! Requests. -/

namespace Form

variable {form : Form} {layout : Layout} {request : Request} {outcome : Outcome}

theorem perform_failsAtNodes (declares : form.engine.Declares layout)
    (laidOut : form.tree.IsLaidOut layout) (regular : form.tree.IsRegular)
    (done : form.perform request = .ok outcome) :
    ∃ base, form.prepared request = .ok base ∧ outcome.pass.FailsAtNodes base := by
  have ready (base : AnswerTree) (prepared : form.prepared request = .ok base) :
      base.IsLaidOut layout ∧ base.root.IsDistinct ∧
        base.root.facts.name = form.tree.root.facts.name := by
    have laidOutToo := (AnswerTree.lasting_isLaidOut layout).prepared laidOut prepared
    refine ⟨laidOutToo, (AnswerTree.lasting_isRegular.prepared regular prepared).distinct, ?_⟩
    rw [← beq_iff_eq, laidOutToo.1, ← laidOut.1, beq_iff_eq]
  -- What a request names is found in the tree, so that it leads from the root on.
  cases request with
  | initial =>
      cases done
      rcases ready form.tree rfl with ⟨-, distinct, -⟩
      have filled : (form.engine.initial form.tree).FailsAtNodes form.tree := by
        rw [Engine.initial]
        refine Engine.foldl_fireInitially (fun _ entered held => ?_) (.start form.tree)
        exact (declares.fire_failsAtNodes distinct laidOut entered (List.forall_mem_nil _) held).1
      exact ⟨form.tree, rfl, filled⟩
  | setAnswer reference value =>
      rcases setAnswer_ok done with ⟨pass, set, rfl⟩
      rcases ready form.tree rfl with ⟨-, distinct, -⟩
      rcases Engine.exists_of_setAnswer set with ⟨-, node, current, found, -⟩
      refine ⟨form.tree, rfl, ?_⟩
      exact (declares.confines distinct laidOut).setAnswer set (fun _ _ => trivial) (.start _)
        (fun node current _ _ _ => ⟨Engine.edited_sameShape _ _ _ _, List.forall_mem_nil _⟩)
        (AnswerTree.isFrom_of_find? found)
  | insertMember parent name position =>
      rcases map_eq_ok.mp done with ⟨⟨made, result⟩, insert, rfl⟩
      rcases insertMember_ok insert with ⟨pass, inserting, rfl⟩
      rcases Engine.insertMember_ok inserting with ⟨grown, -, -, grows, -⟩
      have prepared : form.prepared (.insertMember parent name position) = .ok grown := by
        simp [Form.prepared, grows, Except.map]
      rcases ready grown prepared with ⟨grownLaidOut, distinct, named⟩
      rcases AnswerTree.insert_ok grows with ⟨node, -, found, -, -, inserted⟩
      have isFrom := AnswerTree.isFrom_of_find? found
      rw [← named] at isFrom
      refine ⟨grown, prepared, ?_⟩
      exact (declares.carries distinct grownLaidOut).insertMember grows (.start _) isFrom
        (inserted ▸ isFrom.child _ _) inserting
  | removeMember reference =>
      rcases removeMember_ok done with ⟨parent, shrunk, removed, pass, isParent, shrinks, removing, rfl⟩
      have prepared : form.prepared (.removeMember reference) = .ok shrunk := by
        simp [Form.prepared, shrinks, Except.map]
      rcases ready shrunk prepared with ⟨shrunkLaidOut, distinct, named⟩
      rcases AnswerTree.remove_ok shrinks with
        ⟨position, name, above, node, -, lastMultiplicity, lastName, isAbove, found, -⟩
      cases isParent.symm.trans isAbove
      have isFrom := AnswerTree.isFrom_of_find? found
      have isMember := Reference.eq_child_of_parent? isParent isFrom.absolute lastName
        lastMultiplicity
      rw [← named] at isFrom
      refine ⟨shrunk, prepared, ?_⟩
      refine (declares.carries distinct shrunkLaidOut).afterRemoval (.start _) isFrom ?_ removing
      intro place isReference
      cases isReference
      exact isMember ▸ isFrom.child _ _

end Form

theorem Form.build_declaresTargets {material : Material} {evaluator : Evaluator}
    {saved : Option AnswerTree} {form : Form} {layout : Layout}
    (rules : ∀ rule ∈ material.rules, rule.IsMade) (laidOut : material.tree.IsLaidOut layout)
    (built : Form.build material evaluator saved = .ok form) :
    form.engine.Declares layout ∧ form.tree.IsLaidOut layout := by
  rcases Form.build_starts built with ⟨tree, source, starts⟩
  rcases Form.build_iff.mp starts with ⟨declared, dependencies, -, rfl⟩
  have treeLaidOut : tree.IsLaidOut layout := by
    rcases source with rfl | ⟨earlier, restored⟩
    · exact laidOut
    · exact AnswerTree.restore_isLaidOut laidOut restored
  refine ⟨fun entered => ?_, treeLaidOut⟩
  have inRules := Rulebook.mem_of_mem_ofRules (List.mem_of_getElem? entered)
  have here := declared _ inRules
  refine ⟨(rules _ inRules).isBound.target, fun none => ?_, treeLaidOut.declares here⟩
  rw [AnswerTree.declares, none] at here
  cases here

/-- If nodes with the same path of names have children of the same names, then in every
state of the form the target of a rule can be resolved, everywhere and near any path from
the root, and whatever fails on a request fails at a node, never at a target as such. -/
theorem Definition.reached_targets_resolve {definition : Definition} {constructors : Constructors}
    {settings : Settings} {material : Material} {evaluator : Evaluator}
    {saved : Option AnswerTree} {form : Form}
    (made : definition.material constructors settings = .ok material)
    (uniform : material.tree.root.IsUniform)
    (built : Form.build material evaluator saved = .ok form) {current : Form}
    (reached : form.Reached current) :
    (∀ {number : Nat} {rule : Rule}, current.engine.rulebook.rule? number = some rule →
      (∃ found, current.tree.expand rule.target none = .ok found) ∧
      ∀ anchor : Reference, anchor.IsFrom current.tree.root.facts.name →
        ∃ found, Engine.targetsNear current.tree rule anchor = .ok found) ∧
    ∀ {request : Request} {outcome : Outcome}, current.perform request = .ok outcome →
      ∀ failure ∈ outcome.report.failures,
        (∃ node, outcome.form.tree.find? failure.target = some node) ∧
        ∀ {number : Nat} {rule : Rule}, current.engine.rulebook.rule? number = some rule →
          failure.target ≠ rule.target := by
  rcases AnswerTree.exists_layout uniform with ⟨layout, laidOut⟩
  rcases Form.build_declaresTargets (rules_isMade (material_ok made).2.1) laidOut built with
    ⟨declares, formLaidOut⟩
  have declares : current.engine.Declares layout := fun entered =>
    declares (reached.rulebook ▸ entered)
  have currentLaidOut := (AnswerTree.lasting_isLaidOut layout).reached formLaidOut reached
  refine ⟨fun entered => ⟨?_, fun anchor isFrom => ?_⟩, fun done failure member => ?_⟩
  · exact Engine.exists_targets (declares entered) currentLaidOut (List.forall_mem_nil _)
  · exact Engine.exists_targetsNear (declares entered) currentLaidOut isFrom
  · rcases Form.perform_failsAtNodes declares currentLaidOut
      (Definition.reached_isRegular made built reached) done with ⟨base, -, fails⟩
    have isNode := fails.shape.exists_find? (fails.failures failure member)
    refine ⟨isNode, fun entered same => ?_⟩
    -- A node has a path without unbound steps, and a target has nothing else.
    rcases isNode with ⟨node, found⟩
    rw [same] at found
    rcases List.exists_mem_of_ne_nil _ (declares entered).nonempty with ⟨step, inTarget⟩
    have bound := (AnswerTree.isPlace_of_find? found).bound step inTarget
    rw [(declares entered).pattern.unbound step inTarget] at bound
    cases bound

namespace Order

def average : Definition where
  id := none
  title := "average"
  skeleton :=
    let number (name : String) (value : Option String) : Skeleton :=
      { Skeleton.ofName name with type := .int, value }
    let item (isTemplate : Bool) (price : String) : Skeleton :=
      { Skeleton.ofName "item" with
        isTemplate, children := [number "price" (some price), number "saving" none] }
    { Skeleton.ofName "data" with
      children := [item false "10", number "average" none, item true "5"] }
  binds := [
    { Bind.ofTarget (every ["average"]) with
      calculate := some (.binary .div (.sum (every ["item", "price"])) (.count (every ["item"]))) },
    { Bind.ofTarget (every ["item", "saving"]) with
      calculate := some
        (.binary .sub (.answer (every ["average"])) (.answer (every ["item", "price"]))) }]

end Order

/-- Without any items there is no average, and there are no savings to be looked for. -/
theorem average_targets_resolve : ∃ material form outcome rule failure,
    Order.average.material .standard .standard = .ok material ∧
    material.tree.root.IsUniform ∧
    Form.build material (Expression.evaluator .startOf2020) none = .ok form ∧
    form.initial.form.perform (.removeMember (Order.place.child "item" (.index 0))) =
      .ok outcome ∧
    outcome.report.failures = [failure] ∧
    (∃ node, outcome.form.tree.find? failure.target = some node) ∧
    outcome.form.engine.rulebook.rule? 1 = some rule ∧
    rule.target = Order.every ["item", "saving"] ∧
    (∃ found, outcome.form.tree.expand rule.target none = .ok found) ∧
    ∃ found, Engine.targetsNear outcome.form.tree rule (Order.ofItem 0 "price") = .ok found := by
  have ready : (Order.average.material .standard .standard).toOption.any (fun material =>
      decide material.tree.root.IsUniform &&
        (Form.build material (Expression.evaluator .startOf2020) none).toOption.any fun form =>
          (form.initial.form.perform (.removeMember (Order.place.child "item" (.index 0)))).toOption.any
            fun outcome => decide (outcome.report.failures =
                [⟨0, Order.ofOrder "average", "division by zero"⟩] ∧
              outcome.form.tree.root.facts.name = "data") &&
              (outcome.form.engine.rulebook.rule? 1).any fun rule =>
                decide (rule.target = Order.every ["item", "saving"])) = true := by
    decide +kernel
  rcases exists_ok_of_any ready with ⟨material, made, ready⟩
  rcases Bool.and_eq_true_iff.mp ready with ⟨uniform, ready⟩
  rcases exists_ok_of_any ready with ⟨form, built, ready⟩
  rcases exists_ok_of_any ready with ⟨outcome, done, ready⟩
  rcases Bool.and_eq_true_iff.mp ready with ⟨shown, ready⟩
  rcases (Option.any_eq_true _ _).mp ready with ⟨rule, entered, target⟩
  rcases of_decide_eq_true shown with ⟨failures, named⟩
  have uniform := of_decide_eq_true uniform
  have filled : form.Reached form.initial.form := @Form.Reached.perform form form .initial _ .start rfl
  have fails := (Definition.reached_targets_resolve made uniform built filled).2 done _
    (failures ▸ List.mem_singleton_self _)
  rcases (Definition.reached_targets_resolve made uniform built (.perform filled done)).1 entered with
    ⟨plain, near⟩
  have inData : (Order.ofItem 0 "price").IsFrom outcome.form.tree.root.facts.name := by
    rw [named]
    exact ⟨rfl, _, rfl⟩
  exact ⟨material, form, outcome, rule, _, made, uniform, built, done, failures, fails.1, entered,
    of_decide_eq_true target, plain, near _ inData⟩

end ReactiveForm
