import ReactiveForm.Proofs.Agreement
import ReactiveForm.Proofs.Isolation

/-! What rules leave as it is. What every node holds by itself is compared in document
order, templates and all; what it has been told of the nodes above it does not count. A
rule works at its targets, and below them only where hidden answers are dropped. -/

namespace ReactiveForm

def Facts.own (facts : Facts) : Facts := { facts with underRelevant := true }

variable {touched more : Reference → Prop} {place : Reference}

/-- Two lists are of the same places in the same order, and what is held there by itself
is the same, but for some places. -/
def StillBut (touched : Reference → Prop) (entries later : List (Reference × Facts)) : Prop :=
  List.Forall₂ (fun entry other =>
    entry.1 = other.1 ∧ (¬ touched entry.1 → entry.2.own = other.2.own)) entries later

namespace StillBut

variable {entries between later : List (Reference × Facts)}

theorem refl (touched : Reference → Prop) (entries : List (Reference × Facts)) :
    StillBut touched entries entries :=
  List.forall₂_same.mpr fun _ _ => ⟨rfl, fun _ => rfl⟩

theorem mono (still : StillBut touched entries later)
    (wider : ∀ place, touched place → more place) : StillBut more entries later :=
  still.imp fun _ _ ⟨same, held⟩ => ⟨same, fun free => held fun inside => free (wider _ inside)⟩

theorem trans (first : StillBut touched entries between)
    (second : StillBut touched between later) : StillBut touched entries later := by
  rw [StillBut, List.forall₂_iff_get] at first second ⊢
  rcases first with ⟨length, first⟩
  rcases second with ⟨lengthToo, second⟩
  refine ⟨length.trans lengthToo, fun position inFirst inLast => ?_⟩
  rcases first position inFirst (length ▸ inFirst) with ⟨same, held⟩
  rcases second position (length ▸ inFirst) inLast with ⟨sameToo, heldToo⟩
  exact ⟨same.trans sameToo, fun free => (held free).trans (heldToo (same ▸ free))⟩

end StillBut

namespace Node

def StaysBut (touched : Reference → Prop) (place : Reference) (node other : Node) : Prop :=
  StillBut touched (node.entries place) (other.entries place)

namespace StaysBut

variable {node other : Node}

theorem of_children (here : ¬ touched place → node.facts.own = other.facts.own)
    (below : List.Forall₂ (fun child another => another.step = child.step ∧
      child.StaysBut touched (place.child child.facts.name child.facts.multiplicity) another)
      node.children other.children) : node.StaysBut touched place other := by
  rcases node with ⟨facts, children⟩
  rcases other with ⟨others, otherChildren⟩
  rw [StaysBut, StillBut, entries, entries, entriesUnder_eq_flatten, entriesUnder_eq_flatten]
  refine .cons ⟨rfl, here⟩ (List.rel_flatten ?_)
  rw [List.forall₂_map_left_iff, List.forall₂_map_right_iff]
  refine below.imp fun child another related => ?_
  rcases related with ⟨same, stays⟩
  rcases Step.mk.injEq .. ▸ same with ⟨name, multiplicity⟩
  rw [name, multiplicity]
  exact stays

theorem refl (touched : Reference → Prop) (place : Reference) (node : Node) :
    node.StaysBut touched place node := StillBut.refl touched _

theorem same_children (touched : Reference → Prop) (place : Reference) (children : List Node) :
    List.Forall₂ (fun child another => another.step = child.step ∧
      child.StaysBut touched (place.child child.facts.name child.facts.multiplicity) another)
      children children :=
  List.forall₂_same.mpr fun child _ => ⟨rfl, refl touched _ child⟩

theorem withFacts (here : touched place) (node : Node) (change : Facts → Facts) :
    node.StaysBut touched place (node.withFacts change) :=
  of_children (fun free => absurd here free) (same_children touched place node.children)

theorem of_map {facts others : Facts} {children : List Node} {change : Node → Node}
    (here : ¬ touched place → facts.own = others.own)
    (steps : ∀ child ∈ children, (change child).step = child.step)
    (below : ∀ child ∈ children,
      child.StaysBut touched (place.child child.facts.name child.facts.multiplicity)
        (change child)) :
    StaysBut touched place ⟨facts, children⟩ ⟨others, children.map change⟩ :=
  of_children here (List.forall₂_map_right_iff.mpr
    (List.forall₂_same.mpr fun child member => ⟨steps child member, below child member⟩))

theorem inherit (touched : Reference → Prop) (place : Reference) (node : Node) (above : Bool) :
    node.StaysBut touched place (node.inherit above) := by
  induction node using Node.induct generalizing place above with
  | step facts children induction =>
      rw [Node.inherit, inheritAll_eq_map]
      exact of_map (fun _ => rfl) (fun child _ => step_inherit child _)
        fun child member => induction child member _ _

theorem setRelevant (here : touched place) (node : Node) (relevant : Bool) :
    node.StaysBut touched place (node.setRelevant relevant) :=
  StillBut.trans (withFacts here node _) (inherit touched place _ _)

theorem clearAnswers (here : touched place)
    (closed : ∀ {place : Reference} (name : String) (multiplicity : Multiplicity),
      touched place → touched (place.child name multiplicity)) (node : Node) :
    node.StaysBut touched place node.clearAnswers := by
  induction node using Node.induct generalizing place with
  | step facts children induction =>
      rw [Node.clearAnswers, clearAllAnswers_eq_map]
      refine of_map (fun free => absurd here free) (fun child _ => ?_) fun child member => ?_
      · split
        · rfl
        · rw [step, step, (clearAnswers_keeps child).1, (clearAnswers_keeps child).2]
      · split
        · exact refl touched _ child
        · exact induction child member (closed _ _ here)

theorem changeDescendant {change : Node → Node} {steps : List Step}
    (keeps : ∀ node, (change node).facts.name = node.facts.name ∧
      (change node).facts.multiplicity = node.facts.multiplicity)
    (stays : ∀ found : Node,
      found.StaysBut touched { place with steps := place.steps ++ steps } (change found)) :
    node.StaysBut touched place (node.changeDescendant change steps) := by
  induction steps generalizing place node with
  | nil =>
      rw [List.append_nil] at stays
      exact stays node
  | cons step rest induction =>
      rw [place.below_cons] at stays
      refine of_children (fun _ => rfl) ?_
      rw [Node.changeDescendant]
      rcases node.changeChild_cases step (Node.changeDescendant change rest) with
        ⟨-, same⟩ | ⟨before, child, after, -, rfl, children, changed⟩
      · rw [same]
        exact same_children touched place node.children
      · rw [children, changed]
        refine List.rel_append (same_children touched place before)
          (.cons ⟨?_, induction stays⟩ (same_children touched place after))
        rcases changeDescendant_keeps keeps rest child with ⟨name, multiplicity⟩
        exact Step.mk.injEq .. ▸ ⟨name, multiplicity⟩

end StaysBut

end Node

/-! Trees. -/

theorem AnswerTree.change_stillBut (tree : AnswerTree) {change : Node → Node}
    (keeps : ∀ node, (change node).facts.name = node.facts.name ∧
      (change node).facts.multiplicity = node.facts.multiplicity)
    (stays : place.IsPlace → ∀ found : Node, found.StaysBut touched place (change found)) :
    StillBut touched tree.entries (tree.change place change).entries := by
  cases steps : tree.steps? place with
  | none =>
      rw [change_of_none steps]
      exact .refl touched tree.entries
  | some path =>
      have root : (tree.change place change).rootReference = tree.rootReference := by
        rw [rootReference, rootReference, change_rootName keeps]
      rw [entries, entries, root, change_of_some steps]
      apply Node.StaysBut.changeDescendant keeps
      rw [whole_of_steps? steps]
      exact stays (steps?_eq_some_iff.mp steps).1

/-! Rules. -/

/-- What a rule may change when it fires: its targets, and if it hides nodes whose answers
are dropped, what is below its targets. -/
def Rule.Governs (rule : Rule) (settings : Settings) (place : Reference) : Prop :=
  place.genericize = rule.target ∨
    rule.effect = .relevant ∧ settings.hiddenAnswers = .clear ∧
      ∃ above : Reference, above.genericize = rule.target ∧ place.IsInside above

theorem Effect.making_staysBut (settings : Settings) (rule : Rule)
    (outcome : Except EvaluationError Value) (isPlace : place.IsPlace)
    (isTarget : place.genericize = rule.target) (node : Node) :
    node.StaysBut (rule.Governs settings) place (rule.effect.making settings outcome node) := by
  have here : rule.Governs settings place := .inl isTarget
  cases effect : rule.effect with
  | calculate | setValue _ | required =>
      cases outcome with
      | error _ => exact .refl _ place node
      | ok result =>
          rw [making]
          exact Node.StaysBut.withFacts here node _
  | constraint message =>
      rw [making]
      exact Node.StaysBut.withFacts here node _
  | relevant =>
      cases outcome with
      | error _ => exact .refl _ place node
      | ok result =>
          have shown := Node.StaysBut.setRelevant here node result.truth
          rw [making_relevant settings result _ rfl, Node.clearAnswersIf]
          split
          next drops =>
            have clears := of_decide_eq_true (Bool.and_eq_true_iff.mp drops).2
            have lower : (node.setRelevant result.truth).StaysBut (·.IsInside place) place
                (node.setRelevant result.truth).clearAnswers := by
              refine Node.StaysBut.clearAnswers ⟨isPlace.absolute, List.prefix_refl _⟩ ?_ _
              exact fun name multiplicity inside =>
                ⟨inside.absolute, inside.below.trans (List.prefix_append _ _)⟩
            refine StillBut.trans shown (StillBut.mono lower fun below inside => ?_)
            exact .inr ⟨effect, clears, place, isTarget, inside⟩
          next => exact shown

namespace Engine

variable {engine : Engine} {number : Nat} {rule : Rule}

def Governs (engine : Engine) (fired : List Nat) (place : Reference) : Prop :=
  ∃ number ∈ fired, ∃ rule, engine.rulebook.rule? number = some rule ∧
    rule.Governs engine.settings place

theorem fire_stillBut (engine : Engine) (number : Nat) (bound : rule.IsBound)
    (anchors : List Reference) (pass : Pass) :
    StillBut (rule.Governs engine.settings) pass.tree.entries
      (engine.fire number rule anchors pass).1.tree.entries := by
  have each (found : List Reference) (belongs : ∀ target ∈ found, target.genericize = rule.target)
      (progress : Pass × List Touch) :
      StillBut (rule.Governs engine.settings) progress.1.tree.entries
        (found.foldl (engine.fireAt number rule) progress).1.tree.entries := by
    induction found generalizing progress with
    | nil => exact .refl _ _
    | cons target found induction =>
        rcases List.forall_mem_cons.mp belongs with ⟨isTarget, belongs⟩
        refine StillBut.trans ?_ (induction belongs (engine.fireAt number rule progress target))
        rw [tree_fireAt]
        exact AnswerTree.change_stillBut _ (Effect.making_keeps _ _ _) fun isPlace node =>
          Effect.making_staysBut engine.settings rule _ isPlace isTarget node
  rw [fire]
  split
  next => exact .refl _ _
  next found located =>
    exact each found (genericize_of_mem_targets bound located) (pass.noteFired number, [])

theorem turn_stillBut
    (bound : ∀ {number rule}, engine.rulebook.rule? number = some rule → rule.IsBound)
    (origin : Reference) (spread : Spread) (number : Nat) :
    StillBut (engine.Governs (engine.turn origin spread number).fired) spread.pass.tree.entries
      (engine.turn origin spread number).pass.tree.entries := by
  rcases engine.turn_cases origin spread number with ⟨same, -⟩ | ⟨rule, -, entered, -, turned⟩
  · rw [same]
    exact .refl _ _
  · rw [turned]
    refine (engine.fire_stillBut number (bound entered) _ spread.pass).mono fun place governs => ?_
    exact ⟨number, List.mem_append_right _ List.mem_cons_self, rule, entered, governs⟩

end Engine

end ReactiveForm
