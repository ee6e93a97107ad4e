import ReactiveForm.Proofs.Storing
import ReactiveForm.Proofs.Upholding

/-! Effective relevance. Every node has been told whether all nodes above it are relevant,
and above the root there is none. So a node is relevant exactly if it is so by itself and
all nodes above it are, whichever way its tree came about: described or read from a file,
over saved answers or not, and changed since by whatever was asked. -/

namespace ReactiveForm

namespace Node

/-- Where a node stands in the tree of a root, with the nodes above it, the nearest first.
Templates stand there as well, and all that is below them. -/
inductive StandsUnder (root : Node) : List Node → Node → Prop where
  | root : StandsUnder root [] root
  | child {above : List Node} {node child : Node} (stands : StandsUnder root above node)
      (member : child ∈ node.children) : StandsUnder root (node :: above) child

theorem StandsUnder.told {root node : Node} {above : List Node} (told : root.inherit true = root)
    (stands : root.StandsUnder above node) :
    node.inherit (above.all (·.facts.relevant)) = node := by
  induction stands with
  | root => exact told
  | @child above node child _ member induction =>
      rcases inherit_eq_self_iff.mp induction with ⟨isTold, handsDown⟩
      have here := handsDown_iff.mp handsDown child member
      rw [isRelevant, isTold] at here
      exact here

theorem StandsUnder.of_descendant? {root node other : Node} {above : List Node}
    (stands : root.StandsUnder above node) {steps : List Step}
    (reached : node.descendant? steps = some other) : ∃ lower, root.StandsUnder lower other := by
  induction steps generalizing node above with
  | nil =>
      cases reached
      exact ⟨above, stands⟩
  | cons step rest induction =>
      rw [descendant?] at reached
      rcases Option.bind_eq_some_iff.mp reached with ⟨child, here, reached⟩
      exact induction (stands.child (mem_of_child? here)) reached

end Node

/-! Trees that are stored. Whatever is appended to a node is told what the node knows. -/

namespace StoredNode

theorem appendNodes_inherit {constructors : Constructors} {stored : List StoredNode}
    {parent result : Node} (told : parent.inherit true = parent)
    (appended : appendNodes constructors parent stored = .ok result) :
    result.inherit true = result := by
  induction stored generalizing parent with
  | nil =>
      cases appended
      exact told
  | cons child rest induction =>
      rw [appendNodes] at appended
      rcases bind_eq_ok.mp appended with ⟨node, -, appended⟩
      exact induction (Node.append_inherit told node) appended

theorem node_inherit {constructors : Constructors} {stored : StoredNode} {node : Node}
    (restored : stored.node constructors = .ok node) : node.inherit true = node := by
  rcases stored with ⟨name, isTemplate, type, value, attributes, relevant, required, validity,
    children⟩
  rw [StoredNode.node] at restored
  rcases bind_eq_ok.mp restored with ⟨held, described, appended⟩
  refine appendNodes_inherit ?_ appended
  rw [StoredNode.facts] at described
  split at described
  · rcases bind_eq_ok.mp described with ⟨type, -, described⟩
    rcases bind_eq_ok.mp described with ⟨answer, -, described⟩
    cases described
    rfl
  · cases described

end StoredNode

theorem StoredForm.tree_isInformed {constructors : Constructors} {bytes : List UInt8}
    {stored : StoredForm} (read : StoredForm.ofBytes constructors bytes = .ok stored) :
    stored.tree.IsInformed := by
  rcases bind_eq_ok.mp read with ⟨parts, -, read⟩
  rcases bind_eq_ok.mp read with ⟨particulars, -, read⟩
  rcases bind_eq_ok.mp read with ⟨rules, -, read⟩
  rcases bind_eq_ok.mp read with ⟨nodes, -, read⟩
  rcases bind_eq_ok.mp read with ⟨root, restored, read⟩
  cases read
  exact .ofRoot (StoredNode.node_inherit (mapError_eq_ok.mp restored))

/-! Forms. -/

namespace Form

variable {form : Form}

theorem build_isInformed {material : Material} (informed : material.tree.IsInformed)
    {evaluator : Evaluator} {saved : Option AnswerTree}
    (built : Form.build material evaluator saved = .ok form) : form.tree.IsInformed := by
  rcases (Form.build_ok built).1 with same | ⟨earlier, restored⟩
  · rwa [same]
  · exact informed.restore restored

/-- A form that a definition or a file makes, over saved answers or not, and after any
requests. It may be put away in between and be built again, with other settings. -/
inductive Arises : Form → Prop where
  | defined {definition : Definition} {constructors : Constructors} {settings : Settings}
      {material : Material} {evaluator : Evaluator} {saved : Option AnswerTree} {form : Form}
      (made : definition.material constructors settings = .ok material)
      (built : Form.build material evaluator saved = .ok form) : Arises form
  | opened {constructors : Constructors} {bytes : List UInt8} {stored : StoredForm}
      {settings : Settings} {evaluator : Evaluator} {saved : Option AnswerTree} {form : Form}
      (read : StoredForm.ofBytes constructors bytes = .ok stored)
      (built : Form.build { stored with settings } evaluator saved = .ok form) : Arises form
  | reopened {kept : Form} {settings : Settings} {evaluator : Evaluator}
      {saved : Option AnswerTree} {form : Form} (arises : Arises kept)
      (built : Form.build { kept.stored with settings } evaluator saved = .ok form) : Arises form
  | reached {form current : Form} (arises : Arises form) (reached : form.Reached current) :
      Arises current

theorem Arises.isInformed (arises : form.Arises) : form.tree.IsInformed := by
  induction arises with
  | defined made built =>
      exact build_isInformed (Definition.tree_isInformed (Definition.material_ok made).1) built
  | @opened _ _ stored settings _ _ _ read built =>
      have informed := StoredForm.tree_isInformed read
      exact @build_isInformed _ { stored with settings } informed _ _ built
  | @reopened kept settings _ _ _ _ built induction =>
      exact @build_isInformed _ { kept.stored with settings } induction _ _ built
  | reached _ reached induction => exact AnswerTree.lasting_isInformed.reached induction reached

/-- In every form that a definition or a file makes, over saved answers or not, and after
any requests: a node is relevant, be it a template or below one, exactly if it is so by
itself and all nodes above it are. -/
theorem Arises.isRelevant_iff (arises : form.Arises) {above : List Node} {node : Node}
    (stands : form.tree.root.StandsUnder above node) :
    node.isRelevant = true ↔ ∀ other ∈ node :: above, other.facts.relevant = true := by
  have told := (Node.inherit_eq_self_iff.mp (stands.told arises.isInformed)).1
  rw [Node.isRelevant, told, ← List.all_cons (f := fun node : Node => node.facts.relevant),
    List.all_eq_true]

end Form

/-- A box is hidden, and put away with the order. In the order that is opened again its
weight is not relevant, although it is so by itself. -/
theorem weighed_isRelevant_iff : ∃ material form filled opened above node,
    Order.weighed.material .standard .standard = .ok material ∧
    Form.build material (Expression.evaluator .startOf2020) none = .ok form ∧
    form.initial.form.perform (.insertMember (.root "data") "box" 0) = .ok filled ∧
    Form.build filled.form.stored (Expression.evaluator .startOf2020) none = .ok opened ∧
    opened.tree.find? (((Reference.root "data").child "box" (.index 0)).child "weight"
      (.index 0)) = some node ∧
    opened.tree.root.StandsUnder above node ∧ node.facts.relevant = true ∧
    node.isRelevant = false ∧ ∃ other ∈ above, other.facts.relevant = false := by
  have ready : (Order.weighed.material .standard .standard).toOption.any (fun material =>
      (Form.build material (Expression.evaluator .startOf2020) none).toOption.any fun form =>
        (form.initial.form.perform (.insertMember (.root "data") "box" 0)).toOption.any
          fun filled =>
            (Form.build filled.form.stored (Expression.evaluator .startOf2020) none).toOption.any
              fun opened => (opened.tree.find? (((Reference.root "data").child "box"
                (.index 0)).child "weight" (.index 0))).any fun node =>
                  node.facts.relevant && !node.isRelevant) = true := by
    decide +kernel
  rcases exists_ok_of_any ready with ⟨material, made, ready⟩
  rcases exists_ok_of_any ready with ⟨form, built, ready⟩
  rcases exists_ok_of_any ready with ⟨filled, inserted, ready⟩
  rcases exists_ok_of_any ready with ⟨opened, builtToo, ready⟩
  rcases (Option.any_eq_true _ _).mp ready with ⟨node, found, ready⟩
  rcases Bool.and_eq_true_iff.mp ready with ⟨shown, hidden⟩
  have hidden : node.isRelevant = false := by simpa using hidden
  rcases Option.bind_eq_some_iff.mp found with ⟨steps, -, reached⟩
  rcases Node.StandsUnder.root.of_descendant? reached with ⟨above, stands⟩
  have arises : opened.Arises :=
    .reopened (.reached (.defined made built) ((Form.Reached.initial form).perform inserted))
      builtToo
  have seen := arises.isRelevant_iff stands
  rw [hidden, List.forall_mem_cons, shown] at seen
  refine ⟨material, form, filled, opened, above, node, made, built, inserted, builtToo, found,
    stands, shown, hidden, ?_⟩
  simpa using seen

end ReactiveForm
