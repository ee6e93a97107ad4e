import ReactiveForm.Proofs.Regularity

/-! What the nodes of a tree hold, templates included. Flags, verdicts and numbers in a
series come and go, and answers may be dropped. What holds of facts whatever becomes of
these, holds in the whole tree after members have been copied, moved or removed. -/

namespace ReactiveForm

/-- Facts that come of others. The answer is the same unless it was dropped. -/
structure Facts.ComesOf (facts source : Facts) : Prop where
  name : facts.name = source.name
  type : facts.type = source.type
  attributes : facts.attributes = source.attributes
  answer : facts.answer = source.answer ∨ facts.answer = none

namespace Facts.ComesOf

variable {facts middle source : Facts}

theorem refl (facts : Facts) : facts.ComesOf facts := ⟨rfl, rfl, rfl, .inl rfl⟩

theorem trans (comes : facts.ComesOf middle) (before : middle.ComesOf source) :
    facts.ComesOf source := by
  refine ⟨comes.name.trans before.name, comes.type.trans before.type,
    comes.attributes.trans before.attributes, ?_⟩
  cases comes.answer with
  | inl same => exact same ▸ before.answer
  | inr dropped => exact .inr dropped

end Facts.ComesOf

namespace Node

mutual

def contents : Node → List Facts
  | ⟨facts, children⟩ => facts :: contentsOfAll children

def contentsOfAll : List Node → List Facts
  | [] => []
  | node :: rest => node.contents ++ contentsOfAll rest

end

theorem contentsOfAll_eq_flatMap : ∀ nodes : List Node,
    contentsOfAll nodes = nodes.flatMap contents
  | [] => rfl
  | node :: rest => by rw [contentsOfAll, contentsOfAll_eq_flatMap rest, List.flatMap_cons]

theorem contents_eq (node : Node) :
    node.contents = node.facts :: node.children.flatMap contents := by
  cases node
  rw [contents, contentsOfAll_eq_flatMap]

theorem forall_contents_iff {node : Node} {holds : Facts → Prop} :
    (∀ facts ∈ node.contents, holds facts) ↔
      holds node.facts ∧ ∀ child ∈ node.children, ∀ facts ∈ child.contents, holds facts := by
  rw [contents_eq, List.forall_mem_cons]
  refine and_congr_right fun _ => ?_
  simp only [List.mem_flatMap, forall_exists_index, and_imp]
  exact forall_comm.trans (forall_congr' fun child => forall_comm)

/-! One node that comes of another, with all that is below it. -/

def ComesOf (node source : Node) : Prop :=
  List.Forall₂ Facts.ComesOf node.contents source.contents

namespace ComesOf

variable {node middle source : Node}

theorem refl (node : Node) : node.ComesOf node :=
  List.forall₂_same.mpr fun facts _ => .refl facts

theorem of_children (own : node.facts.ComesOf source.facts)
    (below : List.Forall₂ ComesOf node.children source.children) : node.ComesOf source := by
  rw [ComesOf, contents_eq, contents_eq]
  exact .cons own (List.rel_flatMap below fun _ _ comes => comes)

theorem trans (comes : node.ComesOf middle) (before : middle.ComesOf source) :
    node.ComesOf source := by
  rw [ComesOf, List.forall₂_iff_get] at comes before ⊢
  rcases comes with ⟨length, comes⟩
  rcases before with ⟨lengthToo, before⟩
  refine ⟨length.trans lengthToo, fun position inNode inSource => ?_⟩
  have inMiddle := length ▸ inNode
  exact (comes position inNode inMiddle).trans (before position inMiddle inSource)

theorem withFacts {change : Facts → Facts} (own : (change node.facts).ComesOf node.facts) :
    (node.withFacts change).ComesOf node :=
  of_children own (List.forall₂_same.mpr fun child _ => .refl child)

theorem of_map {facts own : Facts} {children : List Node} {change : Node → Node}
    (here : facts.ComesOf own) (below : ∀ child ∈ children, (change child).ComesOf child) :
    ComesOf ⟨facts, children.map change⟩ ⟨own, children⟩ :=
  of_children here (List.forall₂_map_left_iff.mpr (List.forall₂_same.mpr below))

theorem inherit (node : Node) (above : Bool) : (node.inherit above).ComesOf node := by
  induction node using Node.induct generalizing above with
  | step facts children induction =>
      rw [Node.inherit, inheritAll_eq_map]
      exact of_map ⟨rfl, rfl, rfl, .inl rfl⟩ fun child member => induction child member _

theorem reset (node : Node) : node.reset.ComesOf node := by
  induction node using Node.induct with
  | step facts children induction =>
      rw [Node.reset, resetAll_eq_map]
      exact of_map ⟨rfl, rfl, rfl, .inl rfl⟩ induction

theorem clearAnswers (node : Node) : node.clearAnswers.ComesOf node := by
  induction node using Node.induct with
  | step facts children induction =>
      rw [Node.clearAnswers, clearAllAnswers_eq_map]
      refine of_map ⟨rfl, rfl, rfl, .inr rfl⟩ fun child member => ?_
      split
      · exact .refl child
      · exact induction child member

theorem placed (node : Node) (multiplicity : Multiplicity) :
    (node.placed multiplicity).ComesOf node :=
  withFacts ⟨rfl, rfl, rfl, .inl rfl⟩

theorem copy (node : Node) (multiplicity : Multiplicity) :
    (node.copy multiplicity).ComesOf node :=
  (placed node.reset multiplicity).trans (reset node)

theorem setRelevant (node : Node) (relevant : Bool) : (node.setRelevant relevant).ComesOf node :=
  (inherit _ _).trans (withFacts ⟨rfl, rfl, rfl, .inl rfl⟩)

theorem shift (node : Node) (name : String) (position : Nat) :
    (node.shift name position).ComesOf node := by
  rcases node.shift_cases name position with ⟨number, -, -, -, moved⟩ | same
  · rw [moved]
    exact placed _ _
  · rw [same]
    exact refl _

end ComesOf

/-! What holds everywhere in a node. -/

def Everywhere (holds : Facts → Prop) (node : Node) : Prop := ∀ facts ∈ node.contents, holds facts

end Node

def Facts.Persists (holds : Facts → Prop) : Prop :=
  ∀ {facts source : Facts}, facts.ComesOf source → holds source → holds facts

namespace Node.Everywhere

variable {holds : Facts → Prop} {node : Node}

theorem child (everywhere : node.Everywhere holds) :
    ∀ child ∈ node.children, child.Everywhere holds :=
  (forall_contents_iff.mp everywhere).2

theorem withFacts (everywhere : node.Everywhere holds) {change : Facts → Facts}
    (own : holds node.facts → holds (change node.facts)) :
    (node.withFacts change).Everywhere holds := by
  rcases forall_contents_iff.mp everywhere with ⟨here, below⟩
  exact forall_contents_iff.mpr ⟨own here, below⟩

theorem changeDescendant (everywhere : node.Everywhere holds) {change : Node → Node}
    {path : List Step}
    (keeps : ∀ found, node.descendant? path = some found → found.Everywhere holds →
      (change found).Everywhere holds) :
    (node.changeDescendant change path).Everywhere holds := by
  induction path generalizing node with
  | nil => exact keeps node rfl everywhere
  | cons step path induction =>
      rcases forall_contents_iff.mp everywhere with ⟨own, below⟩
      refine forall_contents_iff.mpr ⟨own, ?_⟩
      rw [Node.changeDescendant]
      rcases node.changeChild_cases step (Node.changeDescendant change path) with
        ⟨-, same⟩ | ⟨before, child, after, found, -, children, changed⟩
      · rw [same]
        exact below
      · rw [children] at below
        rcases List.forall_mem_append.mp below with ⟨early, late⟩
        rcases List.forall_mem_cons.mp late with ⟨first, late⟩
        rw [descendant?_cons found] at keeps
        rw [changed]
        exact List.forall_mem_append.mpr
          ⟨early, List.forall_mem_cons.mpr ⟨induction first keeps, late⟩⟩

section Persists

variable (persists : Facts.Persists holds)

include persists

theorem comesOf {other : Node} (everywhere : node.Everywhere holds) (comes : other.ComesOf node) :
    other.Everywhere holds := by
  rw [Node.ComesOf] at comes
  rw [Everywhere] at everywhere ⊢
  generalize other.contents = contents at comes ⊢
  generalize node.contents = sources at everywhere comes
  induction comes with
  | nil => exact everywhere
  | cons first _ induction =>
      rcases List.forall_mem_cons.mp everywhere with ⟨here, rest⟩
      exact List.forall_mem_cons.mpr ⟨persists first here, induction rest⟩

theorem append (everywhere : node.Everywhere holds) {child : Node}
    (below : child.Everywhere holds) : (node.append child).Everywhere holds := by
  rcases forall_contents_iff.mp everywhere with ⟨own, others⟩
  refine forall_contents_iff.mpr ⟨own, List.forall_mem_append.mpr ⟨others, ?_⟩⟩
  refine List.forall_mem_singleton.mpr (comesOf persists ?_ (.inherit _ _))
  split
  · exact below
  · exact comesOf persists below (.placed _ _)

theorem insertMember (everywhere : node.Everywhere holds) {child : Node}
    (below : child.Everywhere holds) (position : Nat) :
    (node.insertMember child position).Everywhere holds := by
  rcases forall_contents_iff.mp everywhere with ⟨own, others⟩
  refine forall_contents_iff.mpr ⟨own, fun sibling member => ?_⟩
  rcases (insertMember_grows node child position).mem_cases member with
    rfl | ⟨original, inChildren, rfl⟩
  · exact comesOf persists below ((ComesOf.inherit _ _).trans (.placed _ _))
  · exact comesOf persists (others original inChildren) (.shift _ _ _)

theorem renumber (everywhere : node.Everywhere holds) (name : String) :
    (node.renumber name).Everywhere holds := by
  rcases forall_contents_iff.mp everywhere with ⟨own, others⟩
  refine forall_contents_iff.mpr ⟨own, fun sibling member => ?_⟩
  rcases mem_renumberFrom member with ⟨original, inChildren, rfl | ⟨number, rfl⟩⟩
  · exact others sibling inChildren
  · exact comesOf persists (others original inChildren) (.placed _ _)

theorem removeMember (everywhere : node.Everywhere holds) {removed remaining : Node}
    {name : String} {position : Nat}
    (found : node.removeMember? name position = some (removed, remaining)) :
    remaining.Everywhere holds := by
  rw [removeMember?] at found
  rcases Option.map_eq_some_iff.mp found with ⟨⟨taken, rest⟩, took, equal⟩
  cases equal
  rcases takeFirst?_eq_some took with ⟨before, after, children, rfl, -⟩
  rcases forall_contents_iff.mp everywhere with ⟨own, below⟩
  rw [children] at below
  rcases List.forall_mem_append.mp below with ⟨early, late⟩
  have fewer : Everywhere holds { node with children := before ++ after } :=
    forall_contents_iff.mpr
      ⟨own, List.forall_mem_append.mpr ⟨early, (List.forall_mem_cons.mp late).2⟩⟩
  exact fewer.renumber persists name

end Persists

end Node.Everywhere

namespace AnswerTree

variable {holds : Facts → Prop} {tree : AnswerTree}

theorem everywhere_change (everywhere : tree.root.Everywhere holds) {place : Reference}
    {change : Node → Node}
    (keeps : ∀ found, tree.find? place = some found → found.Everywhere holds →
      (change found).Everywhere holds) :
    (tree.change place change).root.Everywhere holds := by
  refine change_cases (·.root.Everywhere holds) everywhere fun path reaches => ?_
  exact everywhere.changeDescendant fun found reached => keeps found (reaches found reached)

section Persists

variable (persists : Facts.Persists holds)

include persists

theorem everywhere_insert (everywhere : tree.root.Everywhere holds) {grown : AnswerTree}
    {parent inserted : Reference} {name : String} {position : Nat}
    (done : tree.insert parent name position = .ok (grown, inserted)) :
    grown.root.Everywhere holds := by
  rcases insert_ok done with ⟨node, template, found, here, rfl, -⟩
  refine everywhere_change everywhere fun other foundToo held => ?_
  cases found.symm.trans foundToo
  refine held.insertMember persists ?_ position
  exact (held.child template (Node.mem_of_child? here)).comesOf persists (.copy _ _)

theorem everywhere_remove (everywhere : tree.root.Everywhere holds) {shrunk : AnswerTree}
    {reference : Reference} {removed : Node}
    (done : tree.remove reference = .ok (shrunk, removed)) : shrunk.root.Everywhere holds := by
  rcases remove_ok done with
    ⟨position, name, parent, node, remaining, -, -, -, found, -, taken, rfl⟩
  refine everywhere_change everywhere fun other foundToo held => ?_
  cases found.symm.trans foundToo
  exact held.removeMember persists taken

end Persists

end AnswerTree

end ReactiveForm
