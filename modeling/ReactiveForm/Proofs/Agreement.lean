import ReactiveForm.Proofs.Making

/-! Trees that agree but for some places. Where they may differ is marked out
beforehand. What is done to both alike leaves them in agreement, and so does whatever is
done to either of them where they may differ anyway. -/

namespace ReactiveForm

/-- Where two trees may differ: at loose places in the answer and in what is said of it,
at veiled ones in relevance as well. Relevance is handed down. -/
structure Margin where
  loose : Reference → Prop
  veiled : Reference → Prop
  loose_of_veiled : ∀ {place : Reference}, veiled place → loose place
  veiled_child : ∀ {place : Reference} (name : String) (multiplicity : Multiplicity),
    veiled place → veiled (place.child name multiplicity)

variable {margin : Margin} {place : Reference}

namespace Facts

structure Agrees (margin : Margin) (place : Reference) (left right : Facts) : Prop where
  name : left.name = right.name
  multiplicity : left.multiplicity = right.multiplicity
  attributes : left.attributes = right.attributes
  type : left.type = right.type
  relevant : ¬ margin.veiled place → left.relevant = right.relevant
  underRelevant : ¬ margin.veiled place → left.underRelevant = right.underRelevant
  answer : ¬ margin.loose place → left.answer = right.answer
  required : ¬ margin.loose place → left.required = right.required
  validity : ¬ margin.loose place → left.validity = right.validity

namespace Agrees

variable {left right : Facts}

theorem refl (margin : Margin) (place : Reference) (facts : Facts) :
    facts.Agrees margin place facts :=
  ⟨rfl, rfl, rfl, rfl, fun _ => rfl, fun _ => rfl, fun _ => rfl, fun _ => rfl, fun _ => rfl⟩

theorem eq_of_tight (agrees : left.Agrees margin place right) (tight : ¬ margin.loose place) :
    left = right := by
  have shown : ¬ margin.veiled place := fun veiled => tight (margin.loose_of_veiled veiled)
  cases left
  cases right
  exact Facts.mk.injEq .. ▸ ⟨agrees.name, agrees.multiplicity, agrees.attributes, agrees.type,
    agrees.answer tight, agrees.relevant shown, agrees.underRelevant shown,
    agrees.required tight, agrees.validity tight⟩

end Agrees

end Facts

/-! Nodes. -/

theorem Reference.below_cons (place : Reference) (step : Step) (rest : List Step) :
    { place with steps := place.steps ++ step :: rest } =
      { place.child step.name step.multiplicity with
        steps := (place.child step.name step.multiplicity).steps ++ rest } := by
  simp [Reference.child]

mutual

def Node.Agrees (margin : Margin) (place : Reference) : Node → Node → Prop
  | ⟨facts, children⟩, ⟨others, otherChildren⟩ =>
      facts.Agrees margin place others ∧ Node.AllAgree margin place children otherChildren

def Node.AllAgree (margin : Margin) (place : Reference) : List Node → List Node → Prop
  | [], [] => True
  | node :: rest, other :: others =>
      node.Agrees margin (place.child node.facts.name node.facts.multiplicity) other ∧
        Node.AllAgree margin place rest others
  | _, _ => False

end

mutual

def Node.entries (place : Reference) : Node → List (Reference × Facts)
  | ⟨facts, children⟩ => (place, facts) :: Node.entriesUnder place children

def Node.entriesUnder (place : Reference) : List Node → List (Reference × Facts)
  | [] => []
  | node :: rest =>
      node.entries (place.child node.facts.name node.facts.multiplicity) ++
        Node.entriesUnder place rest

end

theorem forall₂_imp_of_mem {α β : Type} {relation other : α → β → Prop} {list : List α}
    {others : List β} (each : List.Forall₂ relation list others)
    (imp : ∀ element ∈ list, ∀ another, relation element another → other element another) :
    List.Forall₂ other list others := by
  induction each with
  | nil => exact .nil
  | cons related _ induction =>
      rcases List.forall_mem_cons.mp imp with ⟨first, rest⟩
      exact .cons (first _ related) (induction rest)

theorem forall₂_changeFirst {α β : Type} {relation : α → β → Prop} {holds : α → Bool}
    {holdsToo : β → Bool} {change : α → α} {second : β → β} {list : List α} {others : List β}
    (each : List.Forall₂ relation list others)
    (same : ∀ {element other}, relation element other → holds element = holdsToo other)
    (changes : ∀ {element other}, holds element = true → relation element other →
      relation (change element) (second other)) :
    List.Forall₂ relation (changeFirst holds change list) (changeFirst holdsToo second others) := by
  induction each with
  | nil => exact .nil
  | @cons head other _ _ related rest induction =>
      rw [changeFirst, changeFirst, ← same related]
      split
      next here => exact .cons (changes here related) rest
      next => exact .cons related induction

namespace Node

variable {node other : Node}

theorem allAgree_iff : ∀ {nodes others : List Node}, AllAgree margin place nodes others ↔
    List.Forall₂ (fun node other =>
      node.Agrees margin (place.child node.facts.name node.facts.multiplicity) other) nodes others
  | [], [] => by simp [AllAgree]
  | [], _ :: _ => by simp [AllAgree]
  | _ :: _, [] => by simp [AllAgree]
  | _ :: _, _ :: _ => by rw [AllAgree, allAgree_iff, List.forall₂_cons]

theorem agrees_iff : node.Agrees margin place other ↔
    node.facts.Agrees margin place other.facts ∧
      List.Forall₂ (fun child another =>
        child.Agrees margin (place.child child.facts.name child.facts.multiplicity) another)
          node.children other.children := by
  cases node
  cases other
  rw [Agrees, allAgree_iff]

theorem agrees_refl (margin : Margin) (place : Reference) (node : Node) :
    node.Agrees margin place node := by
  induction node using Node.induct generalizing place with
  | step facts children induction =>
      refine agrees_iff.mpr ⟨.refl margin place facts, List.forall₂_same.mpr ?_⟩
      exact fun child member => induction child member _

theorem entriesUnder_eq_flatten (place : Reference) : ∀ nodes : List Node,
    entriesUnder place nodes =
      (nodes.map fun node =>
        node.entries (place.child node.facts.name node.facts.multiplicity)).flatten
  | [] => rfl
  | node :: rest => by
      rw [entriesUnder, entriesUnder_eq_flatten place rest, List.map_cons, List.flatten_cons]

namespace Agrees

theorem facts (agrees : node.Agrees margin place other) :
    node.facts.Agrees margin place other.facts := (agrees_iff.mp agrees).1

theorem isAt_eq (agrees : node.Agrees margin place other) (name : String)
    (multiplicity : Multiplicity) : isAt name multiplicity node = isAt name multiplicity other := by
  rw [isAt, isAt, agrees.facts.name, agrees.facts.multiplicity]

theorem outline_eq (agrees : node.Agrees margin place other) : node.outline = other.outline := by
  induction node using Node.induct generalizing place other with
  | step facts children induction =>
      rcases agrees_iff.mp agrees with ⟨here, below⟩
      rw [outline_eq_iff]
      refine ⟨here.name, here.multiplicity, ?_⟩
      rw [← List.forall₂_eq_eq_eq, List.forall₂_map_left_iff, List.forall₂_map_right_iff]
      exact forall₂_imp_of_mem below fun child member _ agrees => induction child member agrees

theorem entries (agrees : node.Agrees margin place other) :
    List.Forall₂ (fun left right => left.1 = right.1 ∧ left.2.Agrees margin left.1 right.2)
      (node.entries place) (other.entries place) := by
  induction node using Node.induct generalizing place other with
  | step facts children induction =>
      rcases agrees_iff.mp agrees with ⟨here, below⟩
      rcases other with ⟨others, otherChildren⟩
      rw [Node.entries, Node.entries, entriesUnder_eq_flatten, entriesUnder_eq_flatten]
      refine .cons ⟨rfl, here⟩ (List.rel_flatten ?_)
      rw [List.forall₂_map_left_iff, List.forall₂_map_right_iff]
      refine forall₂_imp_of_mem below fun child member another agrees => ?_
      rw [← agrees.facts.name, ← agrees.facts.multiplicity]
      exact induction child member agrees

/-! The same steps lead to nodes that agree. -/

theorem child? (agrees : node.Agrees margin place other) (name : String)
    (multiplicity : Multiplicity) :
    Option.Rel (Node.Agrees margin (place.child name multiplicity))
      (node.child? name multiplicity) (other.child? name multiplicity) := by
  have below := (agrees_iff.mp agrees).2
  rw [Node.child?, Node.child?]
  generalize node.children = children at below
  generalize other.children = others at below
  induction below with
  | nil => exact .none
  | @cons child another _ _ agrees _ induction =>
      rw [List.find?_cons, List.find?_cons, ← agrees.isAt_eq]
      cases here : isAt name multiplicity child with
      | false => exact induction
      | true =>
          simp only [isAt, Bool.and_eq_true, beq_iff_eq] at here
          rw [here.1, here.2] at agrees
          exact .some agrees

theorem descendant? (agrees : node.Agrees margin place other) (steps : List Step) :
    Option.Rel (Node.Agrees margin { place with steps := place.steps ++ steps })
      (node.descendant? steps) (other.descendant? steps) := by
  induction steps generalizing place node other with
  | nil =>
      rw [List.append_nil]
      exact .some agrees
  | cons step rest induction =>
      rw [Node.descendant?, Node.descendant?, place.below_cons]
      have below := agrees.child? step.name step.multiplicity
      generalize node.child? step.name step.multiplicity = child at below
      generalize other.child? step.name step.multiplicity = another at below
      cases below with
      | none => exact .none
      | some agrees => exact induction agrees

theorem changeDescendant (agrees : node.Agrees margin place other) {change second : Node → Node}
    (keeps : ∀ node, (change node).facts.name = node.facts.name ∧
      (change node).facts.multiplicity = node.facts.multiplicity) {steps : List Step}
    (changes : ∀ {node other},
      node.Agrees margin { place with steps := place.steps ++ steps } other →
      (change node).Agrees margin { place with steps := place.steps ++ steps } (second other)) :
    (node.changeDescendant change steps).Agrees margin place
      (other.changeDescendant second steps) := by
  induction steps generalizing place node other with
  | nil =>
      rw [List.append_nil] at changes
      exact changes agrees
  | cons step rest induction =>
      rw [place.below_cons] at changes
      rcases agrees_iff.mp agrees with ⟨here, below⟩
      refine agrees_iff.mpr ⟨here, forall₂_changeFirst below (fun agrees => agrees.isAt_eq _ _) ?_⟩
      intro child another reached agrees
      rcases changeDescendant_keeps keeps rest child with ⟨name, multiplicity⟩
      simp only [isAt, Bool.and_eq_true, beq_iff_eq] at reached
      rw [reached.1, reached.2] at agrees
      rw [name, multiplicity, reached.1, reached.2]
      exact induction agrees changes

end Agrees

/-! What is done at a node. -/

theorem Agrees.withFacts (agrees : node.Agrees margin place other) {change second : Facts → Facts}
    (held : (change node.facts).Agrees margin place (second other.facts)) :
    (node.withFacts change).Agrees margin place (other.withFacts second) :=
  agrees_iff.mpr ⟨held, (agrees_iff.mp agrees).2⟩

def hear : Option Bool → Node → Node
  | none, node => node
  | some above, node => node.inherit above

theorem hear_mk (news : Option Bool) (facts : Facts) (children : List Node) :
    hear news ⟨facts, children⟩ =
      ⟨{ facts with underRelevant := news.getD facts.underRelevant },
        children.map (hear (news.map (facts.relevant && ·)))⟩ := by
  cases news with
  | none =>
      have unheard : hear none = id := rfl
      rw [Option.map_none, unheard, List.map_id]
      rfl
  | some above =>
      rw [hear, inherit, inheritAll_eq_map]
      rfl

theorem Agrees.hear (agrees : node.Agrees margin place other) {news others : Option Bool}
    (same : ¬ margin.veiled place → news = others) :
    (node.hear news).Agrees margin place (other.hear others) := by
  induction node using Node.induct generalizing place other news others with
  | step facts children induction =>
      rcases other with ⟨otherFacts, otherChildren⟩
      rcases agrees_iff.mp agrees with ⟨here, below⟩
      rw [hear_mk, hear_mk, agrees_iff]
      refine ⟨{ here with underRelevant := fun shown => ?_ }, ?_⟩
      · change news.getD facts.underRelevant = others.getD otherFacts.underRelevant
        rw [same shown, here.underRelevant shown]
      · rw [List.forall₂_map_left_iff, List.forall₂_map_right_iff]
        refine forall₂_imp_of_mem below fun child member another agrees => ?_
        have keeps : (child.hear (news.map (facts.relevant && ·))).facts.name = child.facts.name ∧
            (child.hear (news.map (facts.relevant && ·))).facts.multiplicity =
              child.facts.multiplicity := by
          rcases child with ⟨childFacts, grandchildren⟩
          rw [hear_mk]
          exact ⟨rfl, rfl⟩
        rw [keeps.1, keeps.2]
        refine induction child member agrees fun shown => ?_
        have shown : ¬ margin.veiled place := fun veiled => shown (margin.veiled_child _ _ veiled)
        rw [same shown, here.relevant shown]

theorem Agrees.clearAnswersIf (agrees : node.Agrees margin place other) {drops others : Bool}
    (same : ¬ margin.veiled place → drops = others) :
    (node.clearAnswersIf drops).Agrees margin place (other.clearAnswersIf others) := by
  induction node using Node.induct generalizing place other with
  | step facts children induction =>
      rcases other with ⟨otherFacts, otherChildren⟩
      rcases agrees_iff.mp agrees with ⟨here, below⟩
      rw [clearAnswersIf_mk, clearAnswersIf_mk, agrees_iff]
      refine ⟨{ here with answer := fun tight => ?_ }, ?_⟩
      · have shown : ¬ margin.veiled place := fun veiled => tight (margin.loose_of_veiled veiled)
        change (if drops then none else facts.answer) = if others then none else otherFacts.answer
        rw [same shown, here.answer tight]
      · rw [List.forall₂_map_left_iff, List.forall₂_map_right_iff]
        refine forall₂_imp_of_mem below fun child member another agrees => ?_
        have template : another.isTemplate = child.isTemplate := by
          rw [isTemplate, isTemplate, agrees.facts.multiplicity]
        rw [template]
        split
        · exact agrees
        · rw [(clearAnswersIf_keeps drops child).1, (clearAnswersIf_keeps drops child).2]
          refine induction child member agrees fun shown => same ?_
          exact fun veiled => shown (margin.veiled_child _ _ veiled)

end Node

/-! Trees. -/

namespace AnswerTree

variable {left right : AnswerTree}

def Agrees (margin : Margin) (left right : AnswerTree) : Prop :=
  left.root.Agrees margin left.rootReference right.root

def entries (tree : AnswerTree) : List (Reference × Facts) := tree.root.entries tree.rootReference

theorem agrees_refl (margin : Margin) (tree : AnswerTree) : tree.Agrees margin tree :=
  tree.root.agrees_refl margin tree.rootReference

theorem whole_of_steps? {tree : AnswerTree} {steps : List Step}
    (found : tree.steps? place = some steps) :
    { tree.rootReference with steps := tree.rootReference.steps ++ steps } = place := by
  rcases steps?_eq_some_iff.mp found with ⟨isPlace, whole⟩
  cases place
  cases isPlace.absolute
  exact congrArg _ whole.symm

namespace Agrees

theorem sameShape (agrees : left.Agrees margin right) : left.SameShape right :=
  Node.Agrees.outline_eq agrees

theorem rootReference_eq (agrees : left.Agrees margin right) :
    right.rootReference = left.rootReference := by
  rw [rootReference, rootReference, agrees.sameShape.rootName]

theorem steps?_eq (agrees : left.Agrees margin right) (place : Reference) :
    left.steps? place = right.steps? place := by
  rw [steps?, steps?, agrees.sameShape.rootName]

theorem entries (agrees : left.Agrees margin right) :
    List.Forall₂ (fun entry other => entry.1 = other.1 ∧ entry.2.Agrees margin entry.1 other.2)
      left.entries right.entries := by
  rw [AnswerTree.entries, AnswerTree.entries, agrees.rootReference_eq]
  exact Node.Agrees.entries agrees

theorem find? (agrees : left.Agrees margin right) (place : Reference) :
    Option.Rel (Node.Agrees margin place) (left.find? place) (right.find? place) := by
  rw [AnswerTree.find?, AnswerTree.find?, ← agrees.steps?_eq]
  cases steps : left.steps? place with
  | none => exact .none
  | some path =>
      have below := Node.Agrees.descendant? agrees path
      rw [whole_of_steps? steps] at below
      exact below

theorem answer?_eq (agrees : left.Agrees margin right) (tight : ¬ margin.loose place) :
    left.answer? place = right.answer? place := by
  have found := agrees.find? place
  rw [answer?, answer?]
  generalize left.find? place = node at found
  generalize right.find? place = other at found
  cases found with
  | none => rfl
  | some agrees => exact agrees.facts.answer tight

theorem change (agrees : left.Agrees margin right) {change second : Node → Node}
    (keeps : ∀ node, (change node).facts.name = node.facts.name ∧
      (change node).facts.multiplicity = node.facts.multiplicity)
    (changes : place.IsPlace → ∀ {node other}, node.Agrees margin place other →
      (change node).Agrees margin place (second other)) :
    (left.change place change).Agrees margin (right.change place second) := by
  cases steps : left.steps? place with
  | none =>
      rw [change_of_none steps, change_of_none (agrees.steps?_eq place ▸ steps)]
      exact agrees
  | some path =>
      have root : (left.change place change).rootReference = left.rootReference := by
        rw [rootReference, rootReference, change_rootName keeps]
      rw [Agrees, root, change_of_some steps, change_of_some (agrees.steps?_eq place ▸ steps)]
      apply Node.Agrees.changeDescendant agrees keeps
      rw [whole_of_steps? steps]
      exact changes (steps?_eq_some_iff.mp steps).1

end Agrees

end AnswerTree

end ReactiveForm
