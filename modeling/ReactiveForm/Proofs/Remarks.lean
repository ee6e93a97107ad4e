import ReactiveForm.Proofs.Contents

/-! The attributes of nodes. In the tree that a definition describes no node has
two attributes of one name. That stays so when saved answers are restored, and
whatever is asked of a form after that. -/

namespace ReactiveForm

/-! Lists of attributes. -/

namespace Attribute

def key (entry : Attribute) : Option String × String := (entry.space, entry.name)

def AreApart (entries : List Attribute) : Prop := (entries.map key).Nodup

theorem key_eq_iff {left right : Attribute} :
    left.key = right.key ↔ left.space = right.space ∧ left.name = right.name :=
  Prod.mk.injEq .. ▸ Iff.rfl

theorem map_key_putInto (entry : Attribute) (entries : List Attribute) :
    (entry.putInto entries).map key =
      if entry.key ∈ entries.map key then entries.map key else entries.map key ++ [entry.key] := by
  induction entries with
  | nil => rfl
  | cons first rest induction =>
      rw [putInto]
      split
      next same =>
        have known : entry.key ∈ (first :: rest).map key := by
          rw [List.map_cons, key_eq_iff.mpr same]
          exact List.mem_cons_self
        rw [if_pos known]
        rfl
      next apart =>
        have different : entry.key ≠ first.key := fun same => apart (key_eq_iff.mp same.symm)
        simp only [List.map_cons, induction, List.mem_cons, or_iff_right different]
        split <;> rfl

theorem putInto_of_new {entry : Attribute} {entries : List Attribute}
    (new : entry.key ∉ entries.map key) : entry.putInto entries = entries ++ [entry] := by
  induction entries with
  | nil => rfl
  | cons first rest induction =>
      rw [List.map_cons, List.mem_cons, not_or] at new
      rw [putInto, if_neg fun same => new.1 (key_eq_iff.mpr same).symm, induction new.2,
        List.cons_append]

namespace AreApart

theorem putInto {entries : List Attribute} (apart : AreApart entries) (entry : Attribute) :
    AreApart (entry.putInto entries) := by
  rw [AreApart, map_key_putInto]
  split
  · exact apart
  next new =>
    refine List.nodup_append.mpr ⟨apart, List.nodup_singleton _, fun key member other last => ?_⟩
    rw [List.mem_singleton.mp last]
    exact fun same => new (same ▸ member)

theorem foldl_putInto {base : List Attribute} (apart : AreApart base) (entries : List Attribute) :
    AreApart (entries.foldl (fun entries entry => entry.putInto entries) base) := by
  induction entries generalizing base with
  | nil => exact apart
  | cons entry rest induction => exact induction (apart.putInto entry)

/-- Put into one list after the other, attributes of different names are that
list. -/
theorem foldl_putInto_eq {base entries : List Attribute} (apart : AreApart (base ++ entries)) :
    entries.foldl (fun entries entry => entry.putInto entries) base = base ++ entries := by
  induction entries generalizing base with
  | nil => rw [List.foldl_nil, List.append_nil]
  | cons entry rest induction =>
      have new : entry.key ∉ base.map key := by
        rw [AreApart, List.map_append, List.nodup_append] at apart
        exact fun member => apart.2.2 _ member _ List.mem_cons_self rfl
      rw [List.append_cons] at apart ⊢
      rw [List.foldl_cons, putInto_of_new new, induction apart]

end AreApart

end Attribute

/-! Nodes. -/

namespace Node

def IsTidy (node : Node) : Prop :=
  ∀ facts ∈ node.contents, Attribute.AreApart facts.attributes

theorem isTidy_iff {node : Node} :
    node.IsTidy ↔
      Attribute.AreApart node.facts.attributes ∧ ∀ child ∈ node.children, child.IsTidy :=
  forall_contents_iff

def remarks (node : Node) : List (List Attribute) :=
  node.contents.map (·.attributes)

theorem remarks_eq (node : Node) :
    node.remarks = node.facts.attributes :: node.children.flatMap remarks := by
  rw [remarks, contents_eq, List.map_cons, List.map_flatMap]
  rfl

theorem IsTidy.child {node : Node} (tidy : node.IsTidy) : ∀ child ∈ node.children, child.IsTidy :=
  (isTidy_iff.mp tidy).2

theorem IsTidy.congr {node other : Node} (tidy : node.IsTidy) (same : other.remarks = node.remarks) :
    other.IsTidy := by
  have onRemarks (node : Node) : node.IsTidy ↔ ∀ entries ∈ node.remarks, Attribute.AreApart entries :=
    List.forall_mem_map.symm
  rwa [onRemarks, same, ← onRemarks]

/-! Changes of nodes that leave their attributes. -/

theorem remarks_withFacts {node : Node} {change : Facts → Facts}
    (same : (change node.facts).attributes = node.facts.attributes) :
    (node.withFacts change).remarks = node.remarks := by
  rw [remarks_eq, remarks_eq node, withFacts, same]

theorem ComesOf.remarks_eq {node source : Node} (comes : node.ComesOf source) :
    node.remarks = source.remarks := by
  rw [remarks, remarks, ← List.forall₂_eq_eq_eq, List.forall₂_map_left_iff,
    List.forall₂_map_right_iff]
  exact comes.imp fun _ _ comes => comes.attributes

theorem remarks_copy (node : Node) (multiplicity : Multiplicity) :
    (node.copy multiplicity).remarks = node.remarks :=
  (ComesOf.copy node multiplicity).remarks_eq

theorem remarks_placed (node : Node) (multiplicity : Multiplicity) :
    (node.placed multiplicity).remarks = node.remarks :=
  (ComesOf.placed node multiplicity).remarks_eq

theorem IsAdjustment.remarks_eq {change : Node → Node} (adjusts : IsAdjustment change)
    (node : Node) : (change node).remarks = node.remarks := by
  cases adjusts with
  | facts revises => exact remarks_withFacts (revises node.facts).attributes
  | relevance relevant => exact (ComesOf.setRelevant node relevant).remarks_eq
  | clear => exact (ComesOf.clearAnswers node).remarks_eq

theorem attributes_persist : Facts.Persists (Attribute.AreApart ·.attributes) :=
  fun comes apart => (congrArg Attribute.AreApart comes.attributes).mpr apart

/-! Changes among children. -/

namespace IsTidy

variable {node : Node}

theorem append (tidy : node.IsTidy) {child : Node} (childTidy : child.IsTidy) :
    (node.append child).IsTidy :=
  Everywhere.append attributes_persist tidy childTidy

theorem renumber (tidy : node.IsTidy) (name : String) : (node.renumber name).IsTidy :=
  Everywhere.renumber attributes_persist tidy name

theorem changeDescendant (tidy : node.IsTidy) {change : Node → Node} {path : List Step}
    (keeps : ∀ found, node.descendant? path = some found → found.IsTidy → (change found).IsTidy) :
    (node.changeDescendant change path).IsTidy :=
  Everywhere.changeDescendant tidy keeps

theorem setAttribute (tidy : node.IsTidy) (entry : Attribute) : (node.setAttribute entry).IsTidy :=
  Everywhere.withFacts tidy fun own => own.putInto entry

/-! Restoring. -/

theorem takeOver (tidy : node.IsTidy) (saved : Facts) :
    (node.withFacts (Node.takeOver saved)).IsTidy :=
  Everywhere.withFacts tidy fun own => own.foldl_putInto saved.attributes

theorem provide (tidy : node.IsTidy) (name : String) (multiplicity : Multiplicity) :
    (node.provide name multiplicity).IsTidy := by
  rw [Node.provide]
  split
  · exact tidy
  · split
    · exact tidy
    next template found =>
      have templateTidy := tidy.child template (mem_of_child? found)
      exact (tidy.append (templateTidy.congr (remarks_copy _ _))).renumber name

end IsTidy

theorem restores_isTidy : Restores fun node other => node.IsTidy → other.IsTidy where
  refl _ := id
  trans first second := second ∘ first
  takeOver _ saved := fun tidy => tidy.takeOver saved
  provide _ name multiplicity _ := fun tidy => tidy.provide name multiplicity
  changeChild _ step change each := fun tidy =>
    @IsTidy.changeDescendant _ tidy change [step] fun found _ => each found

end Node

end ReactiveForm
