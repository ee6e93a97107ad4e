import ReactiveForm.Proofs.Numbering
import ReactiveForm.Proofs.Upkeep

/-! Filling in a form and changing its answers. Where rules read only near
nodes, recalculating what a change reaches comes to the same as evaluating every
rule anew. -/

namespace ReactiveForm

/-! Built forms. -/

def Definition.form (definition : Definition) (constructors : Constructors) (settings : Settings)
    (now : DateTime) (saved : Option AnswerTree) : Except FormError Form := do
  Form.build (← definition.material constructors settings) (Expression.evaluator now) saved

theorem Bind.rules_isMade {bind : Bind} {rules : List Rule} (found : bind.rules = .ok rules) :
    ∀ rule ∈ rules, rule.IsMade := by
  intro rule member
  rcases exists_of_forall₂ (forall₂_of_mapM_ok found).flip member with
    ⟨⟨effect, expression⟩, -, bound⟩
  exact ⟨effect, expression, bind.target, bound⟩

theorem Definition.rules_isMade {definition : Definition} {rules : List Rule}
    (found : definition.rules = .ok rules) : ∀ rule ∈ rules, rule.IsMade := by
  rw [Definition.rules] at found
  rcases bind_eq_ok.mp found with ⟨lists, each, found⟩
  cases found
  intro rule member
  rcases List.mem_flatten.mp member with ⟨list, inLists, inList⟩
  rcases exists_of_forall₂ (forall₂_of_mapM_ok each).flip inLists with ⟨bind, -, bound⟩
  exact Bind.rules_isMade (mapError_eq_ok.mp bound) rule inList

theorem Definition.material_ok {definition : Definition} {constructors : Constructors}
    {settings : Settings} {material : Material}
    (made : definition.material constructors settings = .ok material) :
    definition.tree constructors = .ok material.tree ∧ definition.rules = .ok material.rules ∧
      material.settings = settings := by
  rw [Definition.material] at made
  rcases bind_eq_ok.mp made with ⟨tree, described, made⟩
  rcases bind_eq_ok.mp made with ⟨rules, found, made⟩
  cases made
  exact ⟨mapError_eq_ok.mp described, mapError_eq_ok.mp found, rfl⟩

theorem Form.build_starts {material : Material} {evaluator : Evaluator}
    {saved : Option AnswerTree} {form : Form}
    (built : Form.build material evaluator saved = .ok form) :
    ∃ tree, (tree = material.tree ∨ ∃ earlier, material.tree.restore earlier = .ok tree) ∧
      Form.build { material with tree } evaluator none = .ok form := by
  cases saved with
  | none => exact ⟨material.tree, .inl rfl, built⟩
  | some earlier =>
      rcases bind_eq_ok.mp built with ⟨tree, restored, built⟩
      exact ⟨tree, .inr ⟨earlier, mapError_eq_ok.mp restored⟩, built⟩

/-- A form is built where all targets are declared and the rules can be ordered. -/
theorem Form.build_iff {material : Material} {evaluator : Evaluator} {form : Form} :
    Form.build material evaluator none = .ok form ↔
      (∀ rule ∈ material.rules, material.tree.declares rule.target = true) ∧
        ∃ dependencies,
          Dependencies.ofRulebook (Rulebook.ofRules material.rules) = .ok dependencies ∧
          form = ⟨material.id, material.title, material.tree,
            ⟨Rulebook.ofRules material.rules, dependencies, material.settings, evaluator⟩,
            List.replicate (Rulebook.ofRules material.rules).size []⟩ := by
  constructor
  · intro built
    unfold Form.build at built
    rcases bind_eq_ok.mp built with ⟨_, started, built⟩
    cases started
    dsimp only at built
    split at built
    · cases built
    next declared =>
      rcases bind_eq_ok.mp built with ⟨dependencies, ordered, built⟩
      cases built
      refine ⟨fun rule member => ?_, dependencies, mapError_eq_ok.mp ordered, rfl⟩
      simpa using List.find?_eq_none.mp declared rule member
  · rintro ⟨declared, dependencies, ordered, rfl⟩
    have found : material.rules.find? (fun rule => !material.tree.declares rule.target) = none :=
      List.find?_eq_none.mpr fun rule member => by simp [declared rule member]
    unfold Form.build
    refine bind_eq_ok.mpr ⟨material.tree, rfl, ?_⟩
    dsimp only
    rw [found]
    exact bind_eq_ok.mpr ⟨dependencies, mapError_eq_ok.mpr ordered, rfl⟩

theorem Form.build_ok {material : Material} {evaluator : Evaluator} {saved : Option AnswerTree}
    {form : Form} (built : Form.build material evaluator saved = .ok form) :
    (form.tree = material.tree ∨ ∃ earlier, material.tree.restore earlier = .ok form.tree) ∧
      ∃ dependencies,
        Dependencies.ofRulebook (Rulebook.ofRules material.rules) = .ok dependencies ∧
        form.engine =
          ⟨Rulebook.ofRules material.rules, dependencies, material.settings, evaluator⟩ := by
  rcases Form.build_starts built with ⟨tree, source, built⟩
  rcases Form.build_iff.mp built with ⟨-, dependencies, ordered, rfl⟩
  exact ⟨source, dependencies, ordered, rfl⟩

theorem Form.build_isMade {material : Material} {evaluator : Evaluator}
    {saved : Option AnswerTree} {form : Form}
    (made : ∀ rule ∈ material.rules, rule.IsMade)
    (built : Form.build material evaluator saved = .ok form) {number : Nat} {rule : Rule}
    (entered : form.engine.rulebook.rule? number = some rule) : rule.IsMade := by
  rcases Form.build_ok built with ⟨-, dependencies, -, engine⟩
  rw [engine] at entered
  exact made rule (Rulebook.mem_of_mem_ofRules (List.mem_of_getElem? entered))

structure Form.IsBuilt (form : Form) (now : DateTime) : Prop where
  sound : form.engine.IsSound now
  numbered : form.tree.root.Numbered

theorem Form.build_isBuilt {material : Material} {now : DateTime} {saved : Option AnswerTree}
    {form : Form} (retain : material.settings.hiddenAnswers = .retain)
    (made : ∀ rule ∈ material.rules, rule.IsMade) (numbered : material.tree.root.Numbered)
    (built : Form.build material (Expression.evaluator now) saved = .ok form) :
    form.IsBuilt now := by
  have isMade := @Form.build_isMade material _ _ _ made built
  rcases Form.build_ok built with ⟨tree, dependencies, ordered, engine⟩
  refine ⟨⟨by rw [engine], by rwa [engine], fun entered => (isMade entered).isBound, ?_, ?_⟩, ?_⟩
  · rw [engine]
    exact Rulebook.ofRules_isIndexed _
  · rw [engine]
    exact Dependencies.ofRulebook_orders ordered
  · rcases tree with same | ⟨earlier, restored⟩
    · rwa [same]
    · exact AnswerTree.restore_numbered numbered restored

theorem Definition.form_isBuilt {definition : Definition} {constructors : Constructors}
    {settings : Settings} {now : DateTime} {saved : Option AnswerTree} {form : Form}
    (retain : settings.hiddenAnswers = .retain)
    (built : definition.form constructors settings now saved = .ok form) : form.IsBuilt now := by
  rw [Definition.form] at built
  rcases bind_eq_ok.mp built with ⟨material, made, assembled⟩
  rcases Definition.material_ok made with ⟨described, found, settled⟩
  rw [← settled] at retain
  exact Form.build_isBuilt retain (Definition.rules_isMade found)
    (Definition.tree_numbered described) assembled

theorem Definition.form_isMade {definition : Definition} {constructors : Constructors}
    {settings : Settings} {now : DateTime} {saved : Option AnswerTree} {form : Form}
    (built : definition.form constructors settings now saved = .ok form) {number : Nat}
    {rule : Rule} (entered : form.engine.rulebook.rule? number = some rule) : rule.IsMade := by
  rw [Definition.form] at built
  rcases bind_eq_ok.mp built with ⟨material, made, built⟩
  exact Form.build_isMade (Definition.rules_isMade (Definition.material_ok made).2.1) built entered

namespace Engine

variable {engine : Engine} {now : DateTime}

/-! Filling in. -/

theorem IsSound.initial_course (sound : engine.IsSound now) {tree : AnswerTree}
    (clean : (engine.initial tree).report.failures = []) : ∃ firings,
      engine.Round (fun rule => !rule.waitsForAnswer) [] engine.dependencies.order (.start tree)
        firings (engine.initial tree) := by
  rw [initial, fireInitially_eq_fireIf] at clean ⊢
  exact (sound.foldl_round clean).2

theorem IsSound.initial_fires (sound : engine.IsSound now) {tree : AnswerTree}
    (numbered : tree.root.Numbered) (clean : (engine.initial tree).report.failures = [])
    {number : Nat} {rule : Rule} (entered : engine.rulebook.rule? number = some rule)
    (noAction : ∀ occasion, rule.effect ≠ .setValue occasion) : ∃ firings,
      engine.Course (.start tree) firings (engine.initial tree) ∧ engine.Ordered firings ∧
      ∃ firing ∈ firings, firing.rule = rule ∧
        ∀ place ∈ tree.references, place.genericize = rule.target → place ∈ firing.found := by
  rcases sound.initial_course clean with ⟨firings, round⟩
  have inOrder := sound.orders.mem_order.mpr (Rulebook.rule?_eq_some_lt entered)
  rcases round.complete number inOrder rule entered
    (by simp [Rule.waitsForAnswer_eq_false noAction]) with ⟨firing, inFirings, rfl⟩
  cases round.course.rule_eq inFirings entered
  have located := round.course.located inFirings
  rw [(round.anchored firing inFirings).1] at located
  refine ⟨firings, round.course, ordered_of_sublist sound round.ordered, firing, inFirings, rfl, ?_⟩
  intro place member target
  exact (mem_targets_nil numbered (sound.bound entered) located).mpr ⟨member, target⟩

theorem IsSound.initial_current (sound : engine.IsSound now) {tree : AnswerTree}
    (numbered : tree.root.Numbered) (clean : (engine.initial tree).report.failures = [])
    {number : Nat} {rule : Rule} (entered : engine.rulebook.rule? number = some rule)
    (kept : rule.effect.isKept = true) (sole : engine.rulebook.Sole rule.effect.field)
    {place : Reference} (member : place ∈ tree.references)
    (target : place.genericize = rule.target) :
    engine.Current (engine.initial tree).tree rule place := by
  rcases sound.initial_fires numbered clean entered (Effect.ne_setValue_of_isKept kept) with
    ⟨firings, course, ordered, firing, inFirings, rfl, everywhere⟩
  exact course.current sound ordered inFirings kept sole (everywhere place member target)

/-! Changing an answer. -/

def edited (tree : AnswerTree) (reference : Reference) (previous current : Option Value) : Pass :=
  (Pass.start (tree.changeFacts reference ({ · with answer := current }))).noteUpdate none reference
    (.answer previous current)

theorem edited_sameShape (tree : AnswerTree) (reference : Reference)
    (previous current : Option Value) :
    (edited tree reference previous current).tree.SameShape tree :=
  AnswerTree.change_sameShape (fun _ => Node.outline_withFacts rfl rfl) tree reference

theorem held_edited (tree : AnswerTree) (reference : Reference) (previous current : Option Value)
    {field : Field} {place : Reference} (apart : field ≠ .answer ∨ place ≠ reference) :
    (edited tree reference previous current).tree.held field place = tree.held field place := by
  have isLocal : Node.Local (·.withFacts ({ · with answer := current })) :=
    Node.withFacts_local (fun _ => rfl) fun _ => rfl
  by_cases here : place = reference
  · subst here
    have other := apart.resolve_right fun differs => differs rfl
    rw [AnswerTree.held, AnswerTree.held, edited, Pass.noteUpdate, Pass.start,
      AnswerTree.changeFacts, AnswerTree.find?_change_self isLocal.keeps, Option.map_map]
    congr 1
    funext node
    cases field <;> first | rfl | exact absurd rfl other
  · exact AnswerTree.held_change_other isLocal field here

theorem IsSound.setAnswer_cases (sound : engine.IsSound now) {tree : AnswerTree}
    {reference : Reference} {value : Option Value} {after : Pass}
    (done : engine.setAnswer tree reference value = .ok after)
    (clean : after.report.failures = []) :
    after = .start tree ∨ ∃ previous current firings, reference ∈ tree.references ∧
      engine.Spreads [.answer reference] [] (edited tree reference previous current) firings
        after := by
  rw [setAnswer] at done
  split at done
  · cases done
  next live =>
    split at done
    · cases done
    next node found =>
      split at done
      · cases done
      next current _ =>
        split at done
        · cases done
          exact .inl rfl
        · cases done
          rcases sound.propagate_spreads clean with ⟨-, firings, spreads, -⟩
          refine .inr ⟨node.facts.answer, current, firings, ?_, spreads⟩
          refine AnswerTree.mem_references_iff.mpr ⟨node.facts,
            AnswerTree.mem_census_of_find? found fun step member template => live ?_⟩
          exact List.any_eq_true.mpr ⟨step, member, by simp [template]⟩

theorem IsSound.setAnswer_current (sound : engine.IsSound now) {tree : AnswerTree}
    (numbered : tree.root.Numbered) {reference : Reference} {value : Option Value} {after : Pass}
    (done : engine.setAnswer tree reference value = .ok after)
    (clean : after.report.failures = []) {number : Nat} {rule : Rule}
    (entered : engine.rulebook.rule? number = some rule) (kept : rule.effect.isKept = true)
    (narrow : rule.IsNarrow) (sole : engine.rulebook.Sole rule.effect.field)
    (free : rule.effect.field = .answer → rule.target ≠ reference.genericize) {place : Reference}
    (member : place ∈ tree.references) (target : place.genericize = rule.target)
    (current : engine.Current tree rule place) : engine.Current after.tree rule place := by
  rcases sound.setAnswer_cases done clean with rfl | ⟨previous, answer, firings, -, spreads⟩
  · exact current
  · have shape := edited_sameShape tree reference previous answer
    rw [← shape.references] at member
    have numberedToo := shape.numbered numbered
    rcases spreads.current_or_untouched sound numberedToo entered kept narrow sole
      (by simp) member target with current | ⟨untouched, apart⟩
    · exact current
    · refine current.congr ?_ ?_ (.inl kept) ?_
      · exact (spreads.course.held_type place).trans
          (held_edited tree reference previous answer (.inl Field.noConfusion))
      · refine untouched.field.trans (held_edited tree reference previous answer ?_)
        by_cases answers : rule.effect.field = .answer
        · refine .inr ?_
          rintro rfl
          exact free answers target.symm
        · exact .inl answers
      · refine sound.outcome_congr (spreads.course.shape.trans shape) fun read isRead => ?_
        have reads := (Expression.reads_sameShape shape).mpr isRead
        refine (untouched.answers read reads).trans
          (held_edited tree reference previous answer (.inr ?_))
        rintro rfl
        rcases narrow.near_of_reads numberedToo member target reads with ⟨inTree, near⟩
        exact apart _ List.mem_cons_self (AnswerTree.isLive_of_mem numberedToo inTree).1
          ((sound.bound entered).isTriggeredBy_of_reads (Effect.ne_setValue_of_isKept kept)
            target reads) near

theorem IsSound.setAnswer_sameShape (sound : engine.IsSound now) {tree : AnswerTree}
    {reference : Reference} {value : Option Value} {after : Pass}
    (done : engine.setAnswer tree reference value = .ok after)
    (clean : after.report.failures = []) : after.tree.SameShape tree := by
  rcases sound.setAnswer_cases done clean with rfl | ⟨previous, answer, firings, -, spreads⟩
  · exact .refl _
  · exact spreads.course.shape.trans (edited_sameShape tree reference previous answer)

end Engine

/-! Runs of a form. -/

/-- A property of every node that a rule acts on. -/
def Rule.Everywhere (rule : Rule) (tree : AnswerTree) (holds : Reference → Prop) : Prop :=
  ∀ place ∈ tree.references, place.genericize = rule.target → holds place

namespace Form

/-- No calculation sets the answer of a node. -/
def IsFree (form : Form) (reference : Reference) : Prop :=
  ∀ rule ∈ form.engine.rulebook.rules, rule.effect = .calculate →
    rule.target ≠ reference.genericize

instance (form : Form) (reference : Reference) : Decidable (form.IsFree reference) :=
  inferInstanceAs (Decidable (∀ rule ∈ form.engine.rulebook.rules, rule.effect = .calculate →
    rule.target ≠ reference.genericize))

inductive Answered (form : Form) : Form → Prop where
  | initial (clean : form.initial.report.failures = []) : Answered form form.initial.form
  | setAnswer {current : Form} {reference : Reference} {value : Option Value} {outcome : Outcome}
      (answered : Answered form current)
      (done : current.setAnswer reference value = .ok outcome)
      (clean : outcome.report.failures = []) : Answered form outcome.form

/-- A form after it has been filled in and any number of answers have been
changed, none of which a calculation sets, and without any failure. -/
inductive FilledIn (form : Form) : Form → Prop where
  | initial (clean : form.initial.report.failures = []) : FilledIn form form.initial.form
  | setAnswer {current : Form} {reference : Reference} {value : Option Value} {outcome : Outcome}
      (filledIn : FilledIn form current) (free : form.IsFree reference)
      (done : current.setAnswer reference value = .ok outcome)
      (clean : outcome.report.failures = []) : FilledIn form outcome.form

theorem setAnswer_ok {form : Form} {reference : Reference} {value : Option Value}
    {outcome : Outcome} (done : form.setAnswer reference value = .ok outcome) :
    ∃ pass, form.engine.setAnswer form.tree reference value = .ok pass ∧
      outcome = form.after pass := by
  rw [Form.setAnswer] at done
  split at done
  · cases done
  next pass set =>
    cases done
    exact ⟨pass, set, rfl⟩

namespace Answered

variable {form current : Form} {now : DateTime}

theorem engine_eq (answered : form.Answered current) : current.engine = form.engine := by
  induction answered with
  | initial => rfl
  | setAnswer _ done _ induction =>
      rcases setAnswer_ok done with ⟨pass, -, rfl⟩
      exact induction

theorem sameShape (answered : form.Answered current) (sound : form.engine.IsSound now) :
    current.tree.SameShape form.tree := by
  induction answered with
  | initial clean =>
      rcases sound.initial_course clean with ⟨firings, round⟩
      exact round.course.shape
  | setAnswer answered done clean induction =>
      rcases setAnswer_ok done with ⟨pass, set, rfl⟩
      rw [answered.engine_eq] at set
      exact (sound.setAnswer_sameShape set clean).trans induction

end Answered

namespace FilledIn

variable {form current : Form} {now : DateTime}

theorem answered (filledIn : form.FilledIn current) : form.Answered current := by
  induction filledIn with
  | initial clean => exact .initial clean
  | setAnswer _ _ done clean induction => exact .setAnswer induction done clean

theorem engine_eq (filledIn : form.FilledIn current) : current.engine = form.engine :=
  filledIn.answered.engine_eq

theorem sameShape (filledIn : form.FilledIn current) (sound : form.engine.IsSound now) :
    current.tree.SameShape form.tree :=
  filledIn.answered.sameShape sound

theorem holds (filledIn : form.FilledIn current) (built : form.IsBuilt now) {number : Nat}
    {rule : Rule} (entered : form.engine.rulebook.rule? number = some rule)
    (kept : rule.effect.isKept = true) (narrow : rule.IsNarrow)
    (sole : form.engine.rulebook.Sole rule.effect.field) {place : Reference}
    (member : place ∈ current.tree.references) (target : place.genericize = rule.target) :
    form.engine.Current current.tree rule place := by
  rw [(filledIn.sameShape built.sound).references] at member
  induction filledIn with
  | initial clean =>
      exact built.sound.initial_current built.numbered clean entered kept sole member target
  | @setAnswer current reference value outcome filledIn free done clean induction =>
      rcases setAnswer_ok done with ⟨pass, set, rfl⟩
      rw [filledIn.engine_eq] at set
      have shape := filledIn.sameShape built.sound
      refine built.sound.setAnswer_current (shape.numbered built.numbered) set clean entered kept
        narrow sole (fun answers => ?_) (by rwa [shape.references]) target induction
      refine free rule (List.mem_of_getElem? entered) ?_
      revert kept answers
      cases rule.effect <;> simp [Effect.isKept, Effect.field]

end FilledIn

end Form

/-- Recalculating what changes reach comes to the same as evaluating every rule
anew: after a form has been filled in and after every change of an answer, each
calculated node holds the value of its expression, cast to its type, and the
flags of each node are the truth of theirs. -/
theorem Definition.filledIn_agrees {definition : Definition} {constructors : Constructors}
    {settings : Settings} {now : DateTime} {saved : Option AnswerTree} {form : Form}
    (built : definition.form constructors settings now saved = .ok form)
    (retain : settings.hiddenAnswers = .retain)
    (soleAnswers : form.engine.rulebook.Sole .answer)
    (soleRelevance : form.engine.rulebook.Sole .relevant)
    (soleRequirements : form.engine.rulebook.Sole .required)
    (narrow : ∀ rule ∈ form.engine.rulebook.rules, rule.effect.isKept = true → rule.IsNarrow)
    {current : Form} (filledIn : form.FilledIn current) {number : Nat} {rule : Rule}
    (entered : form.engine.rulebook.rule? number = some rule) {place : Reference}
    (member : place ∈ current.tree.references) (target : place.genericize = rule.target) :
    ∃ node, current.tree.find? place = some node ∧
      match rule.effect with
      | .calculate => ∃ result answer,
          Expression.evaluate now current.tree place rule.expression = .ok result ∧
          answerFrom result node.facts.type = .ok answer ∧
          sameAnswer node.facts.answer answer = true
      | .relevant => ∃ result,
          Expression.evaluate now current.tree place rule.expression = .ok result ∧
          node.facts.relevant = result.truth
      | .required => ∃ result,
          Expression.evaluate now current.tree place rule.expression = .ok result ∧
          node.facts.required = result.truth
      | _ => True := by
  have isBuilt := Definition.form_isBuilt retain built
  have soles : rule.effect.isKept = true → form.engine.rulebook.Sole rule.effect.field := by
    intro kept
    cases effect : rule.effect with
    | calculate => exact soleAnswers
    | relevant => exact soleRelevance
    | required => exact soleRequirements
    | constraint | setValue => rw [effect] at kept; cases kept
  have holds (kept : rule.effect.isKept = true) :
      form.engine.Current current.tree rule place :=
    filledIn.holds isBuilt entered kept (narrow rule (List.mem_of_getElem? entered) kept)
      (soles kept) member target
  have numbered := (filledIn.sameShape isBuilt.sound).numbered isBuilt.numbered
  cases effect : rule.effect with
  | calculate =>
      rcases holds (by rw [effect]; rfl) with ⟨node, found, settled⟩
      rw [effect, isBuilt.sound.evaluator] at settled
      exact ⟨node, found, settled⟩
  | relevant =>
      rcases holds (by rw [effect]; rfl) with ⟨node, found, settled⟩
      rw [effect, isBuilt.sound.evaluator] at settled
      exact ⟨node, found, settled⟩
  | required =>
      rcases holds (by rw [effect]; rfl) with ⟨node, found, settled⟩
      rw [effect, isBuilt.sound.evaluator] at settled
      exact ⟨node, found, settled⟩
  | constraint | setValue =>
      rcases AnswerTree.mem_references_iff.mp member with ⟨facts, inCensus⟩
      rcases AnswerTree.of_mem_census numbered inCensus with ⟨-, -, node, found, -⟩
      exact ⟨node, found, trivial⟩

/-! An order with two items. The prices are added up, and every item has a share
that depends on the total. -/

namespace Order

def every (names : List String) : Reference := .absolute (("data" :: names).map Step.unbound)

def ofOrder (name : String) : Reference :=
  .absolute [⟨"data", .index 0⟩, ⟨name, .index 0⟩]

def ofItem (number : Nat) (name : String) : Reference :=
  .absolute [⟨"data", .index 0⟩, ⟨"item", .index number⟩, ⟨name, .index 0⟩]

def skeleton : Skeleton :=
  let number (name : String) (value : Option String) : Skeleton :=
    { Skeleton.ofName name with type := .int, value }
  let item (isTemplate : Bool) (price : String) : Skeleton :=
    { Skeleton.ofName "item" with
      isTemplate, children := [number "price" (some price), number "share" none] }
  { Skeleton.ofName "data" with
    children := [item true "5", item false "10", item false "20", number "total" none] }

def definition : Definition where
  id := none
  title := "order"
  skeleton := skeleton
  binds := [
    { Bind.ofTarget (every ["total"]) with
      calculate := some (.sum (every ["item", "price"]))
      required := some (.count (every ["item"])) },
    { Bind.ofTarget (every ["item", "share"]) with
      calculate := some (.binary .add (.position (every ["item"])) (.answer (every ["total"])))
      relevant := some (.answer (every ["item", "price"])) }]

end Order

theorem order_filledIn_agrees : ∃ form outcome rule node,
    Order.definition.form .standard .standard .startOf2020 none = .ok form ∧
    form.initial.form.setAnswer (Order.ofItem 0 "price") (some (.int 11)) = .ok outcome ∧
    form.engine.rulebook.rule? 2 = some rule ∧ rule.effect = .calculate ∧
    outcome.form.tree.find? (Order.ofItem 1 "share") = some node ∧
    ∃ result answer,
      Expression.evaluate .startOf2020 outcome.form.tree (Order.ofItem 1 "share") rule.expression =
        .ok result ∧
      answerFrom result node.facts.type = .ok answer ∧
      sameAnswer node.facts.answer answer = true := by
  have ready : (Order.definition.form .standard .standard .startOf2020 none).toOption.any
      (fun form => decide (form.initial.report.failures = [] ∧
          form.engine.rulebook.Sole .answer ∧ form.engine.rulebook.Sole .relevant ∧
          form.engine.rulebook.Sole .required ∧
          (∀ rule ∈ form.engine.rulebook.rules, rule.effect.isKept = true → rule.IsNarrow) ∧
          form.IsFree (Order.ofItem 0 "price")) &&
        (form.engine.rulebook.rule? 2).any (fun rule => decide (rule.effect = .calculate ∧
          (Order.ofItem 1 "share").genericize = rule.target)) &&
        (form.initial.form.setAnswer (Order.ofItem 0 "price") (some (.int 11))).toOption.any
          fun outcome => decide (outcome.report.failures = [] ∧
            Order.ofItem 1 "share" ∈ outcome.form.tree.references)) = true := by
    decide +kernel
  rcases exists_ok_of_any ready with ⟨form, built, ready⟩
  simp only [Bool.and_eq_true, decide_eq_true_eq] at ready
  rcases ready with ⟨⟨⟨clean, answers, relevance, requirements, narrow, free⟩, isRule⟩, set⟩
  rcases (Option.any_eq_true _ _).mp isRule with ⟨rule, entered, isRule⟩
  rcases decide_eq_true_eq.mp isRule with ⟨calculates, target⟩
  rcases exists_ok_of_any set with ⟨outcome, done, set⟩
  rcases decide_eq_true_eq.mp set with ⟨cleanToo, member⟩
  rcases Definition.filledIn_agrees built rfl answers relevance
    requirements narrow (.setAnswer (.initial clean) free done cleanToo) entered member target with
    ⟨node, found, agrees⟩
  rw [calculates] at agrees
  exact ⟨form, outcome, rule, node, built, done, entered, calculates, found, agrees⟩

end ReactiveForm
