import ReactiveForm.Proofs.Commuting
import ReactiveForm.Proofs.Dropping
import ReactiveForm.Proofs.Regularity

/-! The updates of a report are a log of what a pass did to the tree. Whoever has the
tree from before can make them one after the other: each is news when its turn comes,
and in the end the tree is the one after the pass. -/

namespace ReactiveForm

/-! Answers dropped one by one. -/

theorem changeFirst_append_cons {α : Type} {holds : α → Bool} {before : List α}
    (missed : ∀ element ∈ before, holds element = false) {element : α}
    (here : holds element = true) (change : α → α) (after : List α) :
    changeFirst holds change (before ++ element :: after) = before ++ change element :: after := by
  induction before with
  | nil => simp [changeFirst, here]
  | cons head before induction =>
      rcases List.forall_mem_cons.mp missed with ⟨first, rest⟩
      rw [List.cons_append, changeFirst, first, induction rest]
      rfl

def Node.unanswered (node : Node) : Node := node.withFacts ({ · with answer := none })

def Node.dropEach (paths : List (List Step)) (node : Node) : Node :=
  paths.foldl (fun node path => node.changeDescendant unanswered path) node

def AnswerTree.dropEach (tree : AnswerTree) (places : List Reference) : AnswerTree :=
  places.foldl (fun tree place => tree.change place Node.unanswered) tree

namespace Node

theorem unanswered_local : Local unanswered :=
  withFacts_local (fun _ => rfl) fun _ => rfl

theorem dropEach_append (paths more : List (List Step)) (node : Node) :
    node.dropEach (paths ++ more) = (node.dropEach paths).dropEach more := by
  rw [dropEach, List.foldl_append]
  rfl

theorem paths_under (step : Step) (entries : List (List Step × Facts)) :
    (entries.map (Entry.under step)).map (·.1) = (entries.map (·.1)).map (step :: ·) := by
  rw [List.map_map, List.map_map]
  rfl

theorem dropEach_under (facts : Facts) {before : List Node} {child : Node}
    (apart : ∀ sibling ∈ before, sibling.step ≠ child.step) (after : List Node)
    (paths : List (List Step)) :
    dropEach (paths.map (child.step :: ·)) ⟨facts, before ++ child :: after⟩ =
      ⟨facts, before ++ child.dropEach paths :: after⟩ := by
  induction paths generalizing child with
  | nil => rfl
  | cons path paths induction =>
      have same : (child.changeDescendant unanswered path).step = child.step :=
        step_changeDescendant fun _ _ => rfl
      have missed : ∀ sibling ∈ before,
          isAt child.step.name child.step.multiplicity sibling = false := by
        intro sibling inBefore
        rw [← Bool.not_eq_true]
        intro here
        simp only [isAt, Bool.and_eq_true, beq_iff_eq] at here
        exact apart sibling inBefore (Step.mk.injEq .. ▸ here)
      have here : isAt child.step.name child.step.multiplicity child = true := by
        simp [isAt, Node.step]
      have first : changeDescendant unanswered (child.step :: path) ⟨facts, before ++ child :: after⟩ =
          ⟨facts, before ++ child.changeDescendant unanswered path :: after⟩ := by
        rw [changeDescendant, changeChild, changeFirst_append_cons missed here]
      have rest := induction fun sibling inBefore => same ▸ apart sibling inBefore
      rw [same] at rest
      rw [List.map_cons, dropEach, List.foldl_cons, first]
      exact rest

def cleared (child : Node) : Node := if child.isTemplate then child else child.clearAnswers

theorem step_cleared (child : Node) : child.cleared.step = child.step := by
  rw [cleared]
  split
  · rfl
  · cases child
    rfl

theorem dropEach_liveAll (facts : Facts) {before after : List Node}
    (distinct : ∀ name, (numbers name (before ++ after)).Nodup)
    (below : ∀ child ∈ after, child.dropEach (child.live.map (·.1)) = child.clearAnswers) :
    dropEach ((liveAll after).map (·.1)) ⟨facts, before.map cleared ++ after⟩ =
      ⟨facts, (before ++ after).map cleared⟩ := by
  induction after generalizing before with
  | nil => simp [liveAll, dropEach]
  | cons child after induction =>
      rcases List.forall_mem_cons.mp below with ⟨here, below⟩
      have rest := @induction (before ++ [child]) (by simpa using distinct) below
      rw [List.map_append, List.map_singleton, List.append_assoc, List.append_assoc,
        List.singleton_append, List.singleton_append] at rest
      rw [liveAll_cons, List.map_append, dropEach_append, ← rest]
      congr 1
      cases template : child.isTemplate with
      | true =>
          rw [cleared, if_pos template]
          rfl
      | false =>
          have apart : ∀ sibling ∈ before.map cleared, sibling.step ≠ child.step := by
            intro sibling inBefore
            rcases List.mem_map.mp inBefore with ⟨original, inOriginal, rfl⟩
            rw [step_cleared]
            exact step_ne_of_nodup (distinct child.facts.name) template original
              (List.mem_append_left _ inOriginal)
          rw [if_neg Bool.false_ne_true, paths_under, dropEach_under facts apart, here, cleared, template]
          rfl

theorem dropEach_live {node : Node} (distinct : node.IsDistinct) :
    node.dropEach (node.live.map (·.1)) = node.clearAnswers := by
  induction node using Node.induct with
  | step facts children induction =>
      rw [live_eq, clearAnswers, clearAllAnswers_eq_map]
      exact @dropEach_liveAll { facts with answer := none } [] children
        (fun name => (distinct.apart name).distinct)
        fun child member => induction child member (distinct.child child member)

theorem liveAll_nodup {nodes : List Node} (distinct : ∀ name, (numbers name nodes).Nodup)
    (below : ∀ child ∈ nodes, (child.live.map (·.1)).Nodup) :
    ((liveAll nodes).map (·.1)).Nodup := by
  induction nodes with
  | nil => exact List.nodup_nil
  | cons child nodes induction =>
      rcases List.forall_mem_cons.mp below with ⟨here, below⟩
      have rest := induction (fun name => (distinct name).sublist
        (((List.sublist_cons_self child nodes).filter _).map _)) below
      rw [liveAll_cons, List.map_append]
      cases template : child.isTemplate with
      | true => simpa using rest
      | false =>
          have ne := @step_ne_of_nodup [] nodes child (distinct child.facts.name) template
          rw [if_neg Bool.false_ne_true, paths_under]
          refine List.nodup_append.mpr
            ⟨here.map fun _ _ equal => (List.cons.inj equal).2, rest, ?_⟩
          · intro path inChild other inOthers equal
            subst equal
            rcases List.mem_map.mp inChild with ⟨path, -, rfl⟩
            rcases List.mem_map.mp inOthers with ⟨entry', inLive, same⟩
            rcases mem_liveAll inLive with ⟨sibling, inNodes, -, below, steps⟩
            rw [steps] at same
            exact ne sibling inNodes (List.cons.inj same).1

theorem live_nodup {node : Node} (distinct : node.IsDistinct) :
    (node.live.map (·.1)).Nodup := by
  induction node using Node.induct with
  | step facts children induction =>
      rw [live_eq, List.map_cons]
      refine List.nodup_cons.mpr ⟨fun top => ?_, ?_⟩
      · rcases List.mem_map.mp top with ⟨entry, inLive, same⟩
        rcases mem_liveAll inLive with ⟨child, -, -, below, steps⟩
        rw [steps] at same
        cases same
      · exact liveAll_nodup (fun name => (distinct.apart name).distinct)
          fun child member => induction child member (distinct.child child member)

end Node

namespace AnswerTree

variable {tree : AnswerTree} {place target : Reference}

theorem dropEach_below {node : Node} (found : tree.find? target = some node)
    {paths : List (List Step)}
    (bound : ∀ path ∈ paths, ∀ step ∈ path, step.multiplicity.isBound = true) :
    tree.dropEach (paths.map fun path => { target with steps := target.steps ++ path }) =
      tree.change target (Node.dropEach paths) := by
  induction paths generalizing tree node with
  | nil =>
      refine (change_of_unchanged found ?_).symm
      rfl
  | cons path paths induction =>
      rcases List.forall_mem_cons.mp bound with ⟨first, rest⟩
      have keeps := Node.unanswered_local.changeDescendant path
      have foundNext : (tree.change target (Node.changeDescendant Node.unanswered path)).find? target =
          some (node.changeDescendant Node.unanswered path) := by
        rw [find?_change_self keeps, found]
        rfl
      rw [List.map_cons, dropEach, List.foldl_cons, change_below found first]
      exact (induction foundNext rest).trans (change_change keeps)

theorem answer?_dropped_other (apart : place ≠ target) :
    (tree.change target Node.unanswered).answer? place = tree.answer? place := by
  rw [answer?_eq_held, held_change_other Node.unanswered_local .answer apart, ← answer?_eq_held]

theorem change_unanswered_of_none (none : tree.answer? place = none) :
    tree.change place Node.unanswered = tree := by
  refine change_of_fixed fun node found => ?_
  rw [answer?, found] at none
  rcases node with ⟨facts, children⟩
  change (⟨{ facts with answer := .none }, children⟩ : Node) = _
  rw [← show facts.answer = .none from none]

theorem dropEach_cons (tree : AnswerTree) (place : Reference) (places : List Reference) :
    tree.dropEach (place :: places) = (tree.change place Node.unanswered).dropEach places := rfl

theorem dropEach_filter {places : List Reference} (distinct : places.Nodup) :
    tree.dropEach (places.filter fun place => (tree.answer? place).isSome) =
      tree.dropEach places := by
  induction places generalizing tree with
  | nil => rfl
  | cons place places induction =>
      rcases List.nodup_cons.mp distinct with ⟨fresh, distinct⟩
      rw [List.filter_cons]
      cases answered : (tree.answer? place).isSome with
      | true =>
          have same : (places.filter fun place => (tree.answer? place).isSome) =
              places.filter fun other =>
                ((tree.change place Node.unanswered).answer? other).isSome := by
            apply List.filter_congr
            intro other member
            have apart : other ≠ place := by
              rintro rfl
              exact fresh member
            rw [answer?_dropped_other apart]
          rw [if_pos rfl, dropEach_cons, same, induction distinct, dropEach_cons]
      | false =>
          have none := Option.isSome_eq_false_iff.mp answered
          rw [if_neg Bool.false_ne_true, dropEach_cons,
            change_unanswered_of_none (Option.isNone_iff_eq_none.mp none)]
          exact induction distinct

theorem referencesFrom_eq {node : Node} (found : tree.find? target = some node) :
    tree.referencesFrom target = (node.live.map (·.1)).map fun path =>
      { target with steps := target.steps ++ path } := by
  rw [referencesFrom, found, List.map_map]
  exact Node.references_eq_live node target

theorem nodup_referencesFrom {node : Node} (found : tree.find? target = some node)
    (distinct : node.IsDistinct) : (tree.referencesFrom target).Nodup := by
  rw [referencesFrom_eq found]
  apply (Node.live_nodup distinct).map
  intro left right same
  exact List.append_cancel_left (congrArg Reference.steps same)

/-- Dropping the answers of a node and of all below it is dropping one listed answer
after the other. -/
theorem dropEach_clear {node : Node} (found : tree.find? target = some node)
    (distinct : node.IsDistinct) : tree.dropEach (tree.clear target).2 = (tree.clear target).1 := by
  have bound : ∀ path ∈ node.live.map (·.1), ∀ step ∈ path, step.multiplicity.isBound = true := by
    intro path member step inPath
    rcases List.mem_map.mp member with ⟨entry, inLive, rfl⟩
    rcases (Node.live_step distinct inLive).1 step inPath with ⟨position, indexed⟩
    rw [indexed]
    rfl
  rw [clear, dropEach_filter (nodup_referencesFrom found distinct), referencesFrom_eq found,
    dropEach_below found bound]
  exact change_congr found (Node.dropEach_live distinct)

end AnswerTree

/-! Logs. -/

def Change.act : Change → Node → Node
  | .answer _ current => (·.withFacts ({ · with answer := current }))
  | .relevance relevant => (·.setRelevant relevant)
  | .required isRequired => (·.withFacts ({ · with required := isRequired }))
  | .validity found => (·.withFacts ({ · with validity := found }))
  | .cleared => (·.withFacts ({ · with answer := none }))

/-- A change that leaves its mark on a node, and knows of the answer before. -/
structure Change.IsNews (change : Change) (node : Node) : Prop where
  differs : node.facts.same (change.act node).facts = false
  previous : ∀ previous current, change = .answer previous current →
    previous = node.facts.answer

namespace Update

def replay (tree : AnswerTree) (update : Update) : AnswerTree :=
  tree.change update.target update.change.act

def IsNews (update : Update) (tree : AnswerTree) : Prop :=
  ∃ node, tree.find? update.target = some node ∧ update.change.IsNews node

end Update

/-- Updates that lead from one tree to another, each news when its turn comes. -/
structure IsLog (before : AnswerTree) (updates : List Update) (after : AnswerTree) : Prop where
  ends : updates.foldl Update.replay before = after
  news : ∀ {earlier : List Update} {update : Update}, earlier ++ [update] <+: updates →
    update.IsNews (earlier.foldl Update.replay before)

namespace IsLog

variable {before after : AnswerTree} {updates : List Update}

theorem nil (tree : AnswerTree) : IsLog tree [] tree :=
  ⟨rfl, fun early => absurd (List.prefix_nil.mp early) (by simp)⟩

theorem snoc (log : IsLog before updates after) {update : Update} (news : update.IsNews after) :
    IsLog before (updates ++ [update]) (update.replay after) := by
  constructor
  · rw [List.foldl_append, log.ends]
    rfl
  · intro earlier other early
    rcases List.prefix_concat_iff.mp early with whole | early
    · rcases List.append_inj' whole rfl with ⟨rfl, single⟩
      rw [log.ends, List.singleton_inj.mp single]
      exact news
    · exact log.news early

theorem clears (log : IsLog before updates after) (number : Nat) {places : List Reference}
    (distinct : places.Nodup)
    (answered : ∀ place ∈ places, (after.answer? place).isSome = true) :
    IsLog before (updates ++ places.map fun place => ⟨some number, place, .cleared⟩)
      (after.dropEach places) := by
  induction places generalizing after updates with
  | nil =>
      rw [List.map_nil, List.append_nil]
      exact log
  | cons place places induction =>
      rcases List.nodup_cons.mp distinct with ⟨fresh, distinct⟩
      rcases List.forall_mem_cons.mp answered with ⟨here, answered⟩
      have news : Update.IsNews ⟨some number, place, .cleared⟩ after := by
        rcases Option.isSome_iff_exists.mp here with ⟨value, held⟩
        rcases Option.bind_eq_some_iff.mp held with ⟨node, found, filled⟩
        refine ⟨node, found, ?_, fun _ _ other => nomatch other⟩
        simp [Change.act, Facts.same, filled, sameAnswer, Node.withFacts]
      have rest := induction (log.snoc news) distinct fun other member => by
        have apart : other ≠ place := by
          rintro rfl
          exact fresh member
        exact (congrArg Option.isSome (AnswerTree.answer?_dropped_other apart)).trans
          (answered other member)
      rw [List.append_assoc] at rest
      exact rest

end IsLog

namespace Change.IsNews

variable {node : Node}

theorem answer {current : Option Value}
    (differs : sameAnswer node.facts.answer current = false) :
    IsNews (.answer node.facts.answer current) node := by
  constructor
  · simp [Change.act, Facts.same, differs, Node.withFacts]
  · intro previous given same
    cases same
    rfl

theorem of_ne {change : Change} (flag : ∀ previous current, change ≠ .answer previous current)
    {β : Type} (view : Facts → β)
    (unanswered : ∀ facts : Facts, view { facts with answer := none } = view facts)
    (differs : view node.facts ≠ view (change.act node).facts) : IsNews change node := by
  refine ⟨?_, fun previous current other => absurd other (flag previous current)⟩
  have apart : ({ node.facts with answer := none } : Facts) ≠
      { (change.act node).facts with answer := none } := by
    intro same
    have views := congrArg view same
    rw [unanswered, unanswered] at views
    exact differs views
  rw [Facts.same, decide_eq_false apart, Bool.and_false]

theorem relevance {relevant : Bool} (differs : node.facts.relevant ≠ relevant) :
    IsNews (.relevance relevant) node := by
  refine of_ne (fun _ _ other => nomatch other) Facts.relevant (fun _ => rfl) ?_
  cases node
  exact differs

theorem required {required : Bool} (differs : node.facts.required ≠ required) :
    IsNews (.required required) node :=
  of_ne (fun _ _ other => nomatch other) Facts.required (fun _ => rfl) differs

theorem validity {validity : Validity} (differs : node.facts.validity ≠ validity) :
    IsNews (.validity validity) node :=
  of_ne (fun _ _ other => nomatch other) Facts.validity (fun _ => rfl) differs

end Change.IsNews

/-! Hiding a node and dropping the answers below it. -/

namespace AnswerTree

variable {tree : AnswerTree} {target : Reference} {node : Node}

theorem clear_setRelevant_places (found : tree.find? target = some node) (relevant : Bool) :
    ((tree.change target (·.setRelevant relevant)).clear target).2 = (tree.clear target).2 := by
  have foundToo : (tree.change target (·.setRelevant relevant)).find? target =
      some (node.setRelevant relevant) := by
    rw [find?_change_self (Node.setRelevant_local relevant).keeps, found]
    rfl
  have paths : (node.setRelevant relevant).live.map (·.1) = node.live.map (·.1) := by
    rw [← Node.live_outline, Node.outline_setRelevant, Node.live_outline]
  have answers (place : Reference) :
      (tree.change target (·.setRelevant relevant)).answer? place = tree.answer? place := by
    rw [answer?_eq_held, held_setRelevant tree target relevant Field.noConfusion, ← answer?_eq_held]
  rw [clear, clear, referencesFrom_eq found, referencesFrom_eq foundToo, paths]
  simp only [answers]

theorem clear_setRelevant_tree (tree : AnswerTree) (target : Reference) (relevant : Bool) :
    ((tree.change target (·.setRelevant relevant)).clear target).1 =
      (tree.clear target).1.change target (·.setRelevant relevant) := by
  have same : Node.clearAnswers ∘ (·.setRelevant relevant) =
      (·.setRelevant relevant) ∘ Node.clearAnswers := by
    funext node
    rcases node with ⟨facts, children⟩
    exact (Node.inherit_clearAnswers ⟨{ facts with relevant }, children⟩ facts.underRelevant).symm
  rw [clear, clear, change_change (Node.setRelevant_local relevant).keeps,
    change_change Node.clearAnswers_keeps, same]

end AnswerTree

theorem IsLog.hides {before tree : AnswerTree} {updates : List Update}
    (log : IsLog before updates tree) (number : Nat) {target : Reference} {node : Node}
    (found : tree.find? target = some node) (distinct : node.IsDistinct)
    (wasShown : node.facts.relevant = true) :
    let hidden := (tree.change target (·.setRelevant false)).clear target
    IsLog before (updates ++ hidden.2.map (⟨some number, ·, .cleared⟩) ++
      [⟨some number, target, .relevance false⟩]) hidden.1 := by
  dsimp only
  rw [AnswerTree.clear_setRelevant_places found, AnswerTree.clear_setRelevant_tree]
  have once : (tree.clear target).2.Nodup :=
    (AnswerTree.nodup_referencesFrom found distinct).filter _
  have dropped := log.clears number once fun place member => (AnswerTree.held_clear_of_mem member).1
  rw [AnswerTree.dropEach_clear found distinct] at dropped
  refine dropped.snoc ⟨node.clearAnswers, ?_, .relevance ?_⟩
  · rw [AnswerTree.clear, AnswerTree.find?_change_self Node.clearAnswers_keeps, found]
    rfl
  · cases node
    exact Bool.ne_false_iff.mpr wasShown

theorem IsLog.deed {base : AnswerTree} {settings : Settings} {number : Nat} {target : Reference}
    {node : Node} {effect : Effect} {outcome : Except EvaluationError Value}
    {before after : Pass} {more : List Touch}
    (log : IsLog base before.report.updates before.tree) (regular : before.tree.IsRegular)
    (found : before.tree.find? target = some node)
    (deed : Deed settings number target node before effect outcome after more) :
    IsLog base after.report.updates after.tree := by
  cases deed with
  | idles => exact log
  | repeats same =>
      have unchanged : before.tree.change target (·.setRelevant node.facts.relevant) = before.tree :=
        AnswerTree.change_of_unchanged found (regular.handsDown_of_find? found).setRelevant_self
      rw [← same, unchanged]
      exact log
  | writes _ _ differs => exact log.snoc ⟨node, found, .answer differs⟩
  | relates differs => exact log.snoc ⟨node, found, .relevance differs⟩
  | requires differs => exact log.snoc ⟨node, found, .required differs⟩
  | judges differs => exact log.snoc ⟨node, found, .validity differs⟩
  | hides _ _ wasShown =>
      rw [Pass.noteUpdate, tree_foldl_noteCleared, report_foldl_noteCleared]
      exact log.hides number found (regular.isDistinct_of_find? found) wasShown

theorem Engine.sustains_isLog (engine : Engine) (base : AnswerTree) :
    engine.Sustains (fun _ => True)
      (fun pass => pass.tree.IsRegular ∧ IsLog base pass.report.updates pass.tree)
      (fun _ => True) fun _ _ => True := by
  refine ⟨fun _ held => held, fun _ _ _ held => held, fun _ _ _ _ _ _ _ _ => trivial,
    fun ⟨regular, log⟩ _ _ _ applied => ?_⟩
  have stays := ((AnswerTree.lasting_isRegular.keeps engine).apply regular trivial applied).1
  rcases apply_deed applied with ⟨node, found, deed⟩
  exact ⟨⟨stays, log.deed regular found deed⟩, fun _ _ => trivial⟩

/-- In every form that a definition makes, over saved answers or not, and after any
requests, a request that is met reports all that it changes and nothing else: the
updates made one after the other, in the tree from before or, for a series, in the tree
in which the member has been inserted or removed, lead to the tree afterwards; and each
changes the node it names, and has seen the answer that was there. -/
theorem Definition.performed_isLog {definition : Definition} {constructors : Constructors}
    {settings : Settings} {material : Material} {evaluator : Evaluator}
    {saved : Option AnswerTree} {form : Form}
    (made : definition.material constructors settings = .ok material)
    (built : Form.build material evaluator saved = .ok form) {current : Form}
    (reached : form.Reached current) {request : Request} {outcome : Outcome}
    (done : current.perform request = .ok outcome) :
    ∃ base, current.prepared request = .ok base ∧
      IsLog base outcome.report.updates outcome.form.tree := by
  have regular := reached_isRegular made built reached
  have lasting := AnswerTree.lasting_isRegular
  rcases Form.perform_sustains (lasting.keeps current.engine).sustains (fun _ _ _ held => held) done
    with ⟨base, prepared, -⟩
  have begun := lasting.prepared regular prepared
  rcases Form.perform_sustains (current.engine.sustains_isLog base) (fun _ _ _ held => held) done
    with ⟨again, same, ends⟩
  cases prepared.symm.trans same
  have edits : ∀ reference node answer, base.find? reference = some node →
      sameAnswer node.facts.answer answer = false →
      (Engine.edited base reference node.facts.answer answer).tree.IsRegular ∧
        IsLog base (Engine.edited base reference node.facts.answer answer).report.updates
          (Engine.edited base reference node.facts.answer answer).tree := by
    intro reference node answer found differs
    exact ⟨lasting.edited begun reference _ answer,
      (IsLog.nil base).snoc ⟨node, found, .answer differs⟩⟩
  exact ⟨base, prepared, (ends ⟨begun, .nil base⟩ edits).2⟩

/-- When an item is put before the others, five updates tell what came of it. -/
theorem order_performed_isLog : ∃ material form outcome base,
    Order.definition.material .standard ⟨.clear, true⟩ = .ok material ∧
    Form.build material (Expression.evaluator .startOf2020) none = .ok form ∧
    form.initial.form.perform (.insertMember Order.place "item" 0) = .ok outcome ∧
    form.initial.form.prepared (.insertMember Order.place "item" 0) = .ok base ∧
    outcome.report.updates.length = 5 ∧
    IsLog base outcome.report.updates outcome.form.tree := by
  have ready : (Order.definition.material .standard ⟨.clear, true⟩).toOption.any (fun material =>
      (Form.build material (Expression.evaluator .startOf2020) none).toOption.any fun form =>
        (form.initial.form.perform (.insertMember Order.place "item" 0)).toOption.any fun outcome =>
          decide (outcome.report.updates.length = 5)) = true := by
    decide +kernel
  rcases exists_ok_of_any ready with ⟨material, made, ready⟩
  rcases exists_ok_of_any ready with ⟨form, built, ready⟩
  rcases exists_ok_of_any ready with ⟨outcome, done, ready⟩
  have filled : form.perform .initial = .ok form.initial := rfl
  rcases Definition.performed_isLog made built (Form.Reached.start.perform filled) done with
    ⟨base, prepared, log⟩
  exact ⟨material, form, outcome, base, made, built, done, prepared, decide_eq_true_eq.mp ready, log⟩

end ReactiveForm
