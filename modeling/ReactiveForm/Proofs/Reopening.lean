import ReactiveForm.Proofs.Atomicity
import ReactiveForm.Proofs.Upholding
import ReactiveForm.Storage.StoredForm

/-! Forms that are put away and opened again. Whatever has been asked of a form, its rules
still find their targets declared, keep their numbers and their order when they are entered
anew, and from then on the form that was opened replies like the one that was put away. -/

namespace ReactiveForm

/-! What is declared. It does not depend on what nodes hold, nor on how many members a
series with a template has. -/

theorem map_find?_congr {α β : Type} {view : α → β} {holds : α → Bool} (seen : β → Bool)
    (factors : ∀ element, holds element = seen (view element)) {list other : List α}
    (same : list.map view = other.map view) :
    (list.find? holds).map view = (other.find? holds).map view := by
  have through : holds = seen ∘ view := funext factors
  rw [through, ← List.find?_map, ← List.find?_map, same]

namespace Node

def declaring (child : Node) : Step × (List Step → Bool) := (child.step, child.declares)

theorem declares_of_declared {node other : Node}
    (same : ∀ name, (other.declared? name).map declaring = (node.declared? name).map declaring) :
    other.declares = node.declares := by
  funext steps
  cases steps with
  | nil => rfl
  | cons step rest =>
      have here := same step.name
      rw [declares, declares]
      cases first : other.declared? step.name with
      | none =>
          rw [first, Option.map_none, eq_comm, Option.map_eq_none_iff] at here
          rw [here]
      | some child =>
          rw [first, Option.map_some, eq_comm, Option.map_eq_some_iff] at here
          rcases here with ⟨original, found, shows⟩
          rw [found]
          exact (congrFun (congrArg Prod.snd shows) rest).symm

theorem declares_of_declaring {node other : Node}
    (same : other.children.map declaring = node.children.map declaring) :
    other.declares = node.declares := by
  refine declares_of_declared fun name => ?_
  let isNamed (shown : Step × (List Step → Bool)) : Bool := shown.1.name == name
  have template : (other.template? name).map declaring = (node.template? name).map declaring :=
    map_find?_congr (fun shown => isNamed shown && shown.1.multiplicity == .template)
      (fun _ => rfl) same
  have first : (other.children.find? (·.facts.name == name)).map declaring =
      (node.children.find? (·.facts.name == name)).map declaring :=
    map_find?_congr isNamed (fun _ => rfl) same
  rw [declared?, declared?, Option.map_or, Option.map_or, template, first]

theorem declares_outline (node : Node) : node.outline.declares = node.declares := by
  induction node using Node.induct with
  | step facts children induction =>
      apply declares_of_declaring
      rw [outline_children, List.map_map]
      apply List.map_congr_left
      intro child member
      rw [Function.comp_apply, declaring, declaring, induction child member]
      cases child
      rfl

/-- A node with a template goes by the template, however many members there are. -/
theorem declares_of_others {node other : Node} {name : String}
    (repeated : node.repeats name = true) (same : other.others name = node.others name) :
    other.declares = node.declares := by
  refine declares_of_declared fun title => congrArg _ ?_
  have find (holds : Node → Bool) (outside : ∀ child, holds child = true →
      child.isMember name = false) : other.children.find? holds = node.children.find? holds := by
    have among (node : Node) : (node.others name).find? holds = node.children.find? holds := by
      rw [others, List.find?_filter]
      congr 1
      funext child
      cases here : holds child with
      | false => simp
      | true => simp [outside child here]
    rw [← among, ← among, same]
  have template : other.template? title = node.template? title :=
    find _ fun child here => by simp_all [isAt, isMember, isTemplate]
  rw [declared?, declared?, template]
  by_cases here : title = name
  · -- The template is found.
    rw [here]
    rw [repeats, Option.isSome_iff_exists] at repeated
    rcases repeated with ⟨child, found⟩
    rw [found]
    rfl
  · rw [find _ fun child named => ?_]
    simp_all [isMember]

theorem declares_changeDescendant (change : Node → Node) {path : List Step} {node found : Node}
    (reached : node.descendant? path = some found) (step : (change found).step = found.step)
    (same : (change found).declares = found.declares) :
    (node.changeDescendant change path).step = node.step ∧
      (node.changeDescendant change path).declares = node.declares := by
  induction path generalizing node with
  | nil =>
      cases reached
      exact ⟨step, same⟩
  | cons next path induction =>
      refine ⟨rfl, declares_of_declaring ?_⟩
      rw [changeDescendant]
      rcases changeChild_of_reached reached (changeDescendant change path) with
        ⟨before, child, after, reached, -, -, children, changed⟩
      rcases induction reached with ⟨childStep, childSame⟩
      rw [changed, children, List.map_append, List.map_append, List.map_cons, List.map_cons,
        declaring, declaring, childStep, childSame]

end Node

namespace AnswerTree

variable {tree other : AnswerTree}

theorem declares_of_root (facts : other.root.facts.name = tree.root.facts.name)
    (same : other.root.declares = tree.root.declares) : other.declares = tree.declares := by
  funext reference
  rw [declares, declares, facts, same]

theorem SameShape.declares_eq (shape : other.SameShape tree) : other.declares = tree.declares := by
  refine declares_of_root shape.rootName ?_
  rw [← Node.declares_outline, shape, Node.declares_outline]

theorem ChangesSeries.declares_eq {parent : Reference} {name : String} {node changed : Node}
    (changes : tree.ChangesSeries other parent name node changed)
    (repeated : node.repeats name = true) : other.declares = tree.declares := by
  rcases parent_steps changes.found with ⟨path, -, -, steps, reached⟩
  have step : changed.step = node.step := by rw [Node.step, Node.step, changes.facts]
  rcases Node.declares_changeDescendant (fun _ => changed) reached step
    (Node.declares_of_others repeated changes.others) with ⟨rootStep, same⟩
  rw [changes.replaced, change, steps]
  exact declares_of_root (congrArg Step.name rootStep) same

theorem lasting_declares (declared : Reference → Bool) : IsLasting (·.declares = declared) where
  adjusts same adjusts := (change_sameShape adjusts.outline_eq _ _).declares_eq.trans same
  insert same grows := by
    rcases insert_changesSeries grows with ⟨node, changed, repeated, changes⟩
    exact (changes.declares_eq repeated).trans same
  remove same shrinks := by
    rcases remove_changesSeries shrinks with ⟨_, _, _, node, changed, -, -, repeated, changes⟩
    exact (changes.declares_eq repeated).trans same

end AnswerTree

/-! Requests. -/

namespace Form

theorem build_declares {material : Material} {evaluator : Evaluator} {saved : Option AnswerTree}
    {form : Form} (built : Form.build material evaluator saved = .ok form) :
    ∀ rule ∈ material.rules, form.tree.declares rule.target = true := by
  rcases build_starts built with ⟨tree, -, built⟩
  rcases build_iff.mp built with ⟨declared, dependencies, -, rfl⟩
  exact declared

end Form

/-! Rules that are entered anew. -/

theorem Rulebook.ofRules_rules (rules : List Rule) :
    ofRules (ofRules rules).rules = ofRules rules := by
  induction rules using List.reverseRecOn with
  | nil => rfl
  | append_singleton rules rule induction =>
      have last (rules : List Rule) :
          ofRules (rules ++ [rule]) = ((ofRules rules).enter rule).1 := by
        rw [ofRules, List.foldl_append]
        rfl
      rw [last rules]
      cases found : (ofRules rules).rules.findIdx? (·.same rule) with
      | some number => rw [enter, found, induction]
      | none =>
          have entered :
              ((ofRules rules).enter rule).1.rules = (ofRules rules).rules ++ [rule] := by
            rw [enter, found]
          rw [entered, last, induction]

/-! Replies. -/

/-- What is seen of a request: what it came to and where a new member stands, what was
told, and the answers afterwards. -/
structure Reply where
  result : Except FormError (Report × Option Reference)
  events : List Event
  tree : AnswerTree

namespace Form

def respond (form : Form) (request : Request) : Reply × Form :=
  match form.attempt request with
  | .ok (outcome, inserted) =>
      (⟨.ok (outcome.report, inserted), outcome.events, outcome.form.tree⟩, outcome.form)
  | .error error => (⟨.error error, [], form.tree⟩, form)

def replies (form : Form) : List (Evaluator × Request) → List Reply
  | [] => []
  | (evaluator, request) :: rest =>
      let responded := (form.withEvaluator evaluator).respond request
      responded.1 :: responded.2.replies rest

def IsLike (form other : Form) : Prop := ∃ targets, other = { form with targets }

variable {form other : Form}

/-- Nothing that a form does depends on what was noted of targets. -/
theorem IsLike.respond (like : form.IsLike other) (request : Request) :
    (other.respond request).1 = (form.respond request).1 ∧
      (form.respond request).2.IsLike (other.respond request).2 := by
  rcases like with ⟨targets, rfl⟩
  cases request with
  | initial => exact ⟨rfl, _, rfl⟩
  | setAnswer reference value =>
      simp only [Form.respond, attempt, Form.setAnswer]
      cases form.engine.setAnswer form.tree reference value with
      | error error => exact ⟨rfl, targets, rfl⟩
      | ok pass => exact ⟨rfl, targets, rfl⟩
  | insertMember parent name position =>
      simp only [Form.respond, attempt, Form.insertMember]
      cases form.engine.insertMember form.tree parent name position with
      | error error => exact ⟨rfl, targets, rfl⟩
      | ok made => exact ⟨rfl, _, rfl⟩
  | removeMember reference =>
      simp only [Form.respond, attempt, Form.removeMember]
      cases reference.parent? with
      | none => exact ⟨rfl, targets, rfl⟩
      | some parent =>
          cases form.tree.remove reference with
          | error error => exact ⟨rfl, targets, rfl⟩
          | ok taken =>
              rcases taken with ⟨shrunk, removed⟩
              simp only [Form.afterRemoval]
              cases form.engine.afterRemoval shrunk (some reference) parent removed with
              | error error => exact ⟨rfl, targets, rfl⟩
              | ok pass => exact ⟨rfl, _, rfl⟩

theorem IsLike.replies (like : form.IsLike other) (requests : List (Evaluator × Request)) :
    other.replies requests = form.replies requests := by
  induction requests generalizing form other with
  | nil => rfl
  | cons first rest induction =>
      rcases first with ⟨evaluator, request⟩
      have evaluated : (form.withEvaluator evaluator).IsLike (other.withEvaluator evaluator) := by
        rcases like with ⟨targets, rfl⟩
        exact ⟨targets, rfl⟩
      rcases evaluated.respond request with ⟨reply, next⟩
      exact congrArg₂ List.cons reply (induction next)

end Form

/-- In every form, whatever it was built from, over saved answers or not, and after any
requests: what is put away of the form can be opened again. The form that is opened has
the same name and title, the same answers, and the same rules with their numbers, their
order and their settings; and to whatever is asked from then on it replies the same. -/
theorem Form.reached_reopens {material : Material} {evaluator : Evaluator}
    {saved : Option AnswerTree} {form : Form}
    (built : Form.build material evaluator saved = .ok form) {current : Form}
    (reached : form.Reached current) :
    ∃ opened, Form.build current.stored current.engine.evaluator none = .ok opened ∧
      opened.id = current.id ∧ opened.title = current.title ∧ opened.tree = current.tree ∧
      opened.engine = current.engine ∧
      ∀ requests, opened.replies requests = current.replies requests := by
  rcases Form.build_ok built with ⟨-, dependencies, ordered, engine⟩
  have same : current.engine = ⟨Rulebook.ofRules material.rules, dependencies,
      material.settings, current.engine.evaluator⟩ := by
    rw [reached.engine_eq, engine]
  -- The rules that are put away are entered as before.
  have again : Rulebook.ofRules current.stored.rules = Rulebook.ofRules material.rules := by
    rw [Form.stored, same]
    exact Rulebook.ofRules_rules material.rules
  have declared : ∀ rule ∈ current.stored.rules,
      current.stored.tree.declares rule.target = true := by
    intro rule member
    rw [Form.stored, same] at member
    show current.tree.declares rule.target = true
    rw [(AnswerTree.lasting_declares _).reached rfl reached]
    exact Form.build_declares built rule (Rulebook.mem_of_mem_ofRules member)
  let opened : Form := { current with
    targets := List.replicate (Rulebook.ofRules material.rules).size [] }
  have opens : Form.build current.stored current.engine.evaluator none = .ok opened := by
    refine Form.build_iff.mpr ⟨declared, dependencies, again ▸ ordered, ?_⟩
    have settled : current.stored.settings = material.settings := by rw [Form.stored, same]
    rw [again, settled, ← same]
    rfl
  exact ⟨opened, opens, rfl, rfl, rfl, rfl, Form.IsLike.replies ⟨_, rfl⟩⟩

/-- An order with a new item is put away and opened again. -/
theorem order_reached_reopens : ∃ material form filled opened,
    Order.definition.material .standard .standard = .ok material ∧
    Form.build material (Expression.evaluator .startOf2020) none = .ok form ∧
    form.Reached filled ∧ (filled.tree.find? (Order.ofItem 2 "price")).isSome = true ∧
    Form.build filled.stored filled.engine.evaluator none = .ok opened ∧
    opened.tree = filled.tree ∧ opened.engine = filled.engine ∧
    ∀ requests, opened.replies requests = filled.replies requests := by
  have ready : (Order.definition.material .standard .standard).toOption.any (fun material =>
      (Form.build material (Expression.evaluator .startOf2020) none).toOption.any fun form =>
        (form.initial.form.perform (.insertMember Order.place "item" 0)).toOption.any
          fun filled => (filled.form.tree.find? (Order.ofItem 2 "price")).isSome) = true := by
    decide +kernel
  rcases exists_ok_of_any ready with ⟨material, made, ready⟩
  rcases exists_ok_of_any ready with ⟨form, built, ready⟩
  rcases exists_ok_of_any ready with ⟨filled, inserted, grown⟩
  have reached : form.Reached filled.form := (Form.Reached.initial form).perform inserted
  rcases Form.reached_reopens built reached with
    ⟨opened, opens, -, -, tree, engine, replies⟩
  exact ⟨material, form, filled.form, opened, made, built, reached, grown, opens, tree, engine,
    replies⟩

end ReactiveForm
