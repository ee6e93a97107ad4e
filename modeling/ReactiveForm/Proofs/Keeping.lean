import ReactiveForm.Proofs.Deeds
import ReactiveForm.Proofs.Influence
import ReactiveForm.Proofs.Sustaining

/-! What every pass keeps. If the work of a rule at one target keeps a property
of trees, and whatever is touched leads only to targets where it does, then so
do the operations that let rules fire, with whatever failures on the way. -/

namespace ReactiveForm

structure Facts.IsRevision (facts source : Facts) : Prop where
  name : facts.name = source.name
  multiplicity : facts.multiplicity = source.multiplicity
  attributes : facts.attributes = source.attributes
  relevant : facts.relevant = source.relevant
  underRelevant : facts.underRelevant = source.underRelevant

inductive Node.IsAdjustment : (Node → Node) → Prop where
  | facts {change : Facts → Facts} (revises : ∀ facts, (change facts).IsRevision facts) :
      IsAdjustment (·.withFacts change)
  | relevance (relevant : Bool) : IsAdjustment (·.setRelevant relevant)
  | clear : IsAdjustment Node.clearAnswers

namespace Node.IsAdjustment

variable {change : Node → Node}

theorem keeps (adjusts : IsAdjustment change) (node : Node) :
    (change node).facts.name = node.facts.name ∧
      (change node).facts.multiplicity = node.facts.multiplicity := by
  cases adjusts with
  | facts revises => exact ⟨(revises node.facts).name, (revises node.facts).multiplicity⟩
  | relevance relevant => exact (setRelevant_local relevant).keeps node
  | clear => exact clearAnswers_keeps node

theorem step_eq (adjusts : IsAdjustment change) (node : Node) : (change node).step = node.step :=
  Step.mk.injEq .. ▸ adjusts.keeps node

theorem underRelevant_eq (adjusts : IsAdjustment change) (node : Node) :
    (change node).facts.underRelevant = node.facts.underRelevant := by
  cases adjusts with
  | facts revises => exact (revises node.facts).underRelevant
  | relevance relevant =>
      change (node.setRelevant relevant).facts.underRelevant = _
      rw [setRelevant, facts_inherit]
  | clear =>
      cases node
      rfl

theorem outline_eq (adjusts : IsAdjustment change) (node : Node) :
    (change node).outline = node.outline := by
  cases adjusts with
  | facts revises =>
      exact outline_withFacts (revises node.facts).name (revises node.facts).multiplicity
  | relevance relevant => exact outline_setRelevant node relevant
  | clear => exact outline_clearAnswers node

end Node.IsAdjustment

namespace Engine

/-- The work of rules keeps a property of trees as long as it is done within
some places, and from there leads only to such places. -/
structure Keeps (engine : Engine) (holds : AnswerTree → Prop) (within : Reference → Prop) :
    Prop where
  child : ∀ {reference : Reference} {name : String} {multiplicity : Multiplicity},
    within reference → multiplicity ≠ .template → within (reference.child name multiplicity)
  targets : ∀ {tree : AnswerTree} {number : Nat} {rule : Rule} {anchors found : List Reference},
    holds tree → engine.rulebook.rule? number = some rule → (∀ anchor ∈ anchors, within anchor) →
    targets tree rule anchors = .ok found → ∀ target ∈ found, within target
  adjusts : ∀ {tree : AnswerTree} {target : Reference} {change : Node → Node}, holds tree →
    within target → Node.IsAdjustment change → holds (tree.change target change)

namespace Keeps

variable {engine : Engine} {holds : AnswerTree → Prop} {within : Reference → Prop}

theorem apply (keeps : engine.Keeps holds within) {before after : Pass} {number : Nat}
    {target : Reference} {outcome : Except EvaluationError Value} {more : List Touch}
    (held : holds before.tree) (inside : within target) {effect : Effect}
    (applied : engine.apply before number effect target outcome = .ok (after, more)) :
    holds after.tree ∧ ∀ touch ∈ more, within touch.reference := by
  have shown (relevant : Bool) := keeps.adjusts held inside (.relevance relevant)
  rcases apply_deed applied with ⟨node, -, deed⟩
  cases deed with
  | idles => exact ⟨held, List.forall_mem_nil _⟩
  | repeats => exact ⟨shown _, List.forall_mem_nil _⟩
  | relates => exact ⟨shown _, List.forall_mem_singleton.mpr inside⟩
  | hides =>
      constructor
      · rw [Pass.noteUpdate, tree_foldl_noteCleared]
        exact keeps.adjusts (shown false) inside .clear
      · refine List.forall_mem_cons.mpr ⟨inside, fun touch lower => ?_⟩
        rcases List.mem_map.mp lower with ⟨place, inCleared, rfl⟩
        exact AnswerTree.forall_referencesFrom (fun _ => keeps.child) _ inside place
          (List.mem_filter.mp inCleared).1
  | writes | requires | judges =>
      exact ⟨keeps.adjusts held inside (.facts fun _ => ⟨rfl, rfl, rfl, rfl, rfl⟩),
        List.forall_mem_singleton.mpr inside⟩

theorem sustains (keeps : engine.Keeps holds within) :
    engine.Sustains (fun _ => True) (holds ·.tree) within fun _ => within :=
  ⟨fun _ held => held, fun _ _ _ held => held,
    fun held _ entered _ inside located => keeps.targets held entered inside located,
    fun held _ _ inside applied => keeps.apply held inside applied⟩

/-! Operations. -/

theorem initial (keeps : engine.Keeps holds within) {tree : AnswerTree} (held : holds tree) :
    holds (engine.initial tree).tree :=
  keeps.sustains.initial
    (fun held _ entered located => keeps.targets held entered (List.forall_mem_nil _) located)
    (fun _ _ => trivial) held

theorem setAnswer (keeps : engine.Keeps holds within) {tree : AnswerTree} (held : holds tree)
    {reference : Reference} (inside : within reference) {value : Option Value} {after : Pass}
    (done : engine.setAnswer tree reference value = .ok after) : holds after.tree := by
  refine keeps.sustains.setAnswer done (fun _ _ => trivial) held (fun node current _ _ => ?_) inside
  exact keeps.adjusts held inside (.facts fun _ => ⟨rfl, rfl, rfl, rfl, rfl⟩)

theorem insertMember (keeps : engine.Keeps holds within) {tree grown : AnswerTree}
    {parent inserted : Reference} {name : String} {position : Nat} {after : Pass}
    {result : Reference} (grows : tree.insert parent name position = .ok (grown, inserted))
    (held : holds grown) (inside : within parent) (insideToo : within inserted)
    (done : engine.insertMember tree parent name position = .ok (after, result)) :
    holds after.tree :=
  keeps.sustains.insertMember (fun _ _ _ held => held) (fun _ => keeps.child) grows held inside
    insideToo done

theorem afterRemoval (keeps : engine.Keeps holds within) {tree : AnswerTree} (held : holds tree)
    {parent reference : Reference} (inside : within parent) (insideToo : within reference)
    {removed : Node} {after : Pass}
    (done : engine.afterRemoval tree (some reference) parent removed = .ok after) :
    holds after.tree := by
  refine keeps.sustains.afterRemoval (fun _ _ _ held => held) (fun _ => keeps.child) held inside
    (fun place isReference => ?_) done
  cases isReference
  exact insideToo

end Keeps

theorem keeps_sameShape (engine : Engine) (tree : AnswerTree) :
    engine.Keeps (·.SameShape tree) fun _ => True := by
  refine ⟨fun _ _ => trivial, fun _ _ _ _ _ _ => trivial, fun shape _ adjusts => ?_⟩
  exact (AnswerTree.change_sameShape adjusts.outline_eq _ _).trans shape

end Engine

/-! Requests. -/

inductive Request where
  | initial
  | setAnswer (reference : Reference) (value : Option Value)
  | insertMember (parent : Reference) (name : String) (position : Nat)
  | removeMember (reference : Reference)

def Outcome.pass (outcome : Outcome) : Pass :=
  ⟨outcome.form.tree, outcome.report, outcome.events⟩

namespace Form

def perform (form : Form) : Request → Except FormError Outcome
  | .initial => .ok form.initial
  | .setAnswer reference value => form.setAnswer reference value
  | .insertMember parent name position => (form.insertMember parent name position).map (·.1)
  | .removeMember reference => form.removeMember reference

/-- A form after any requests, each evaluated at a time of its own. One that
fails leaves the form as it is. -/
inductive Reached (form : Form) : Form → Prop where
  | start : Reached form form
  | perform {current : Form} {request : Request} {outcome : Outcome}
      (reached : Reached form current) (done : current.perform request = .ok outcome) :
      Reached form outcome.form
  | evaluate {current : Form} (reached : Reached form current) (evaluator : Evaluator) :
      Reached form (current.withEvaluator evaluator)

theorem perform_rulebook {form : Form} {request : Request} {outcome : Outcome}
    (done : form.perform request = .ok outcome) :
    outcome.form.engine.rulebook = form.engine.rulebook := by
  cases request with
  | initial =>
      cases done
      rfl
  | setAnswer reference value =>
      obtain ⟨pass, -, rfl⟩ := setAnswer_ok done
      rfl
  | insertMember parent name position =>
      obtain ⟨⟨made, inserted⟩, insert, rfl⟩ := map_eq_ok.mp done
      obtain ⟨pass, -, rfl⟩ := insertMember_ok insert
      rfl
  | removeMember reference =>
      obtain ⟨parent, shrunk, removed, pass, -, -, -, rfl⟩ := removeMember_ok done
      rfl

/-- The tree that a request hands to the rules: a member that is asked for has been
inserted, and one that is to go has been removed. -/
def prepared (form : Form) : Request → Except TreeError AnswerTree
  | .initial | .setAnswer _ _ => .ok form.tree
  | .insertMember parent name position => (form.tree.insert parent name position).map (·.1)
  | .removeMember reference => (form.tree.remove reference).map (·.1)

theorem prepared_holds {form : Form} {request : Request} {holds : AnswerTree → Prop}
    (held : holds form.tree)
    (grown : ∀ {tree parent inserted name position},
      form.tree.insert parent name position = .ok (tree, inserted) → holds tree)
    (shrunk : ∀ {tree reference removed},
      form.tree.remove reference = .ok (tree, removed) → holds tree)
    {base : AnswerTree} (prepared : form.prepared request = .ok base) : holds base := by
  cases request with
  | initial | setAnswer =>
      cases prepared
      exact held
  | insertMember =>
      rcases map_eq_ok.mp prepared with ⟨made, grows, rfl⟩
      exact grown grows
  | removeMember =>
      rcases map_eq_ok.mp prepared with ⟨made, shrinks, rfl⟩
      exact shrunk shrinks

section Sustained

variable {form : Form} {holds : Pass → Prop}
  (sustains : form.engine.Sustains (fun _ => True) holds (fun _ => True) fun _ _ => True)
  (told : ∀ {pass : Pass} (change : SeriesChange) (reference : Reference) (fired : Nat),
    holds pass → holds (pass.tell (.summary change reference fired)))
  {request : Request} {outcome : Outcome} (done : form.perform request = .ok outcome)

include sustains told done

theorem perform_sustains_cast : ∃ base, form.prepared request = .ok base ∧
    (holds (.start base) →
      (∀ reference value node current, request = .setAnswer reference value →
        base.find? reference = some node →
        Engine.editedAnswer value node.facts.type = .ok current →
        sameAnswer node.facts.answer current = false →
        holds (Engine.edited base reference node.facts.answer current)) →
      holds outcome.pass) := by
  cases request with
  | initial =>
      cases done
      exact ⟨form.tree, rfl, fun begun _ => sustains.initial (fun _ _ _ _ _ _ => trivial)
        (fun _ _ => trivial) begun⟩
  | setAnswer reference value =>
      rcases setAnswer_ok done with ⟨pass, set, rfl⟩
      exact ⟨form.tree, rfl, fun begun edits => sustains.confines.setAnswer set
        (fun _ _ => trivial) begun (fun node current => edits reference value node current rfl) trivial⟩
  | insertMember parent name position =>
      rcases map_eq_ok.mp done with ⟨⟨made, result⟩, insert, rfl⟩
      rcases insertMember_ok insert with ⟨pass, inserting, rfl⟩
      rcases Engine.insertMember_ok inserting with ⟨grown, -, -, grows, -⟩
      refine ⟨grown, by simp [prepared, grows, Except.map], fun begun _ => ?_⟩
      exact sustains.insertMember told (fun _ _ _ _ => trivial) grows begun trivial trivial
        inserting
  | removeMember reference =>
      rcases removeMember_ok done with ⟨parent, shrunk, removed, pass, -, shrinks, removing, rfl⟩
      refine ⟨shrunk, by simp [prepared, shrinks, Except.map], fun begun _ => ?_⟩
      exact sustains.afterRemoval told (fun _ _ _ _ => trivial) begun trivial
        (fun _ _ => trivial) removing

theorem perform_sustains : ∃ base, form.prepared request = .ok base ∧
    (holds (.start base) →
      (∀ reference node current, base.find? reference = some node →
        sameAnswer node.facts.answer current = false →
        holds (Engine.edited base reference node.facts.answer current)) →
      holds outcome.pass) := by
  rcases perform_sustains_cast sustains told done with ⟨base, prepared, ends⟩
  exact ⟨base, prepared, fun begun edits => ends begun fun reference _ node current _ found _ =>
    edits reference node current found⟩

end Sustained

theorem Reached.rulebook {form current : Form} (reached : form.Reached current) :
    current.engine.rulebook = form.engine.rulebook := by
  induction reached with
  | start => rfl
  | perform _ done induction => exact (perform_rulebook done).trans induction
  | evaluate _ _ induction => exact induction

end Form

/-! Properties that last. -/

/-- A property of trees that is kept by the work of rules and by edits, wherever they are
done, and when members are inserted or removed. -/
structure AnswerTree.IsLasting (holds : AnswerTree → Prop) : Prop where
  adjusts : ∀ {tree : AnswerTree} {place : Reference} {change : Node → Node}, holds tree →
    Node.IsAdjustment change → holds (tree.change place change)
  insert : ∀ {tree grown : AnswerTree} {parent inserted : Reference} {name : String}
    {position : Nat}, holds tree → tree.insert parent name position = .ok (grown, inserted) →
    holds grown
  remove : ∀ {tree shrunk : AnswerTree} {reference : Reference} {removed : Node}, holds tree →
    tree.remove reference = .ok (shrunk, removed) → holds shrunk

namespace AnswerTree.IsLasting

variable {holds others : AnswerTree → Prop}

theorem and (first : IsLasting holds) (second : IsLasting others) :
    IsLasting fun tree => holds tree ∧ others tree where
  adjusts := fun ⟨held, heldToo⟩ adjusts =>
    ⟨first.adjusts held adjusts, second.adjusts heldToo adjusts⟩
  insert := fun ⟨held, heldToo⟩ done => ⟨first.insert held done, second.insert heldToo done⟩
  remove := fun ⟨held, heldToo⟩ done => ⟨first.remove held done, second.remove heldToo done⟩

theorem congr (lasting : IsLasting holds) (same : ∀ tree, others tree ↔ holds tree) :
    IsLasting others := by
  rwa [show others = holds from funext fun tree => propext (same tree)]

variable (lasting : IsLasting holds)

include lasting

theorem keeps (engine : Engine) : engine.Keeps holds fun _ => True :=
  ⟨fun _ _ => trivial, fun _ _ _ _ _ _ => trivial, fun held _ => lasting.adjusts held⟩

theorem edited {tree : AnswerTree} (held : holds tree) (reference : Reference)
    (before current : Option Value) :
    holds (Engine.edited tree reference before current).tree :=
  lasting.adjusts held (.facts fun _ => ⟨rfl, rfl, rfl, rfl, rfl⟩)

variable {form : Form} {request : Request}

theorem prepared {base : AnswerTree} (held : holds form.tree)
    (prepared : form.prepared request = .ok base) : holds base :=
  Form.prepared_holds held (lasting.insert held) (lasting.remove held) prepared

theorem perform {outcome : Outcome} (held : holds form.tree)
    (done : form.perform request = .ok outcome) : holds outcome.form.tree := by
  have keeps := lasting.keeps form.engine
  rcases Form.perform_sustains keeps.sustains (fun _ _ _ held => held) done with
    ⟨base, prepared, ends⟩
  have begun := lasting.prepared held prepared
  exact ends begun fun reference node current _ _ => lasting.edited begun reference _ current

theorem reached {current : Form} (held : holds form.tree) (reached : form.Reached current) :
    holds current.tree := by
  induction reached with
  | start => exact held
  | perform _ done induction => exact lasting.perform induction done
  | evaluate _ _ induction => exact induction

end AnswerTree.IsLasting

end ReactiveForm
