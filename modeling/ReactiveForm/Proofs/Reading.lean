import ReactiveForm.Expression.Evaluation
import ReactiveForm.Proofs.Holding
import ReactiveForm.Rule.Basic

/-! What an expression reads at a node. Its value depends on nothing else, and
a rule is bound to all of it. -/

namespace ReactiveForm

inductive Look where
  | answer (reference : Reference)
  | position (reference : Reference)
  | count (reference : Reference)
  | sum (reference : Reference)

namespace Look

def reference : Look → Reference
  | answer reference | position reference | count reference | sum reference => reference

def expression : Look → Expression
  | answer reference => .answer reference
  | position reference => .position reference
  | count reference => .count reference
  | sum reference => .sum reference

def isAggregate : Look → Bool
  | answer _ | position _ => false
  | count _ | sum _ => true

def isWhole : Look → Bool
  | answer _ | position _ => false
  | count reference | sum reference => reference.isAbsolute

def followed (look : Look) (context : Reference) : Except ReferenceError Reference :=
  if look.isWhole then .ok look.reference else look.reference.anchor context

def Sees (look : Look) (context place : Reference) : Prop :=
  ∃ followed, look.followed context = .ok followed ∧ followed.intersects place = true

theorem isAggregate_of_isWhole {look : Look} (whole : look.isWhole = true) :
    look.isAggregate = true := by
  cases look with
  | answer | position => cases whole
  | count | sum => rfl

theorem followed_origin {look : Look} {context followed : Reference}
    (found : look.followed context = .ok followed) : followed.origin = .absolute := by
  rw [Look.followed] at found
  split at found
  next whole =>
    cases found
    cases look with
    | answer | position => cases whole
    | count reference => exact beq_iff_eq.mp whole
    | sum reference => exact beq_iff_eq.mp whole
  next => exact Reference.anchor_origin found

end Look

namespace Expression

def looks : Expression → List Look
  | .answer reference => [.answer reference]
  | .position reference => [.position reference]
  | .count reference => [.count reference]
  | .sum reference => [.sum reference]
  | .literal _ | .now | .today => []
  | .binary _ left right => left.looks ++ right.looks
  | .not operand => operand.looks
  | .choose condition yes no => condition.looks ++ yes.looks ++ no.looks
  | .concat parts => looksOfAll parts
where
  looksOfAll : List Expression → List Look
    | [] => []
    | part :: rest => part.looks ++ looksOfAll rest

mutual

theorem mentions_eq_looks : ∀ expression : Expression,
    expression.mentions = expression.looks.map Look.reference
  | .literal _ | .now | .today => rfl
  | .answer _ | .position _ | .count _ | .sum _ => rfl
  | .binary _ left right => by
      simp only [mentions, looks, List.map_append, mentions_eq_looks left, mentions_eq_looks right]
  | .not operand => mentions_eq_looks operand
  | .choose condition yes no => by
      simp only [mentions, looks, List.map_append, mentions_eq_looks condition,
        mentions_eq_looks yes, mentions_eq_looks no]
  | .concat parts => mentionsOfAll_eq_looks parts

theorem mentionsOfAll_eq_looks : ∀ parts : List Expression,
    mentions.mentionsOfAll parts = (looks.looksOfAll parts).map Look.reference
  | [] => rfl
  | part :: rest => by
      simp only [mentions.mentionsOfAll, looks.looksOfAll, List.map_append, mentions_eq_looks part,
        mentionsOfAll_eq_looks rest]

end

section Congruence

variable {now : DateTime} {tree other : AnswerTree} {context viewpoint : Reference}

mutual

/-- The value of an expression depends only on what its looks find. -/
theorem evaluate_congr : ∀ expression : Expression,
    (∀ look ∈ expression.looks, evaluate now tree context look.expression =
      evaluate now other viewpoint look.expression) →
    evaluate now tree context expression = evaluate now other viewpoint expression
  | .literal _, _ | .now, _ | .today, _ => by simp only [evaluate]
  | .answer _, same | .position _, same | .count _, same | .sum _, same =>
      same _ List.mem_cons_self
  | .binary operator left right, same => by
      rw [looks, List.forall_mem_append] at same
      have left := evaluate_congr left same.1
      have right := evaluate_congr right same.2
      cases operator <;> simp only [evaluate, left, right]
  | .not operand, same => by
      have operand := evaluate_congr operand same
      simp only [evaluate, operand]
  | .choose condition yes no, same => by
      rw [looks, List.forall_mem_append, List.forall_mem_append] at same
      have condition := evaluate_congr condition same.1.1
      have yes := evaluate_congr yes same.1.2
      have no := evaluate_congr no same.2
      simp only [evaluate, condition, yes, no]
  | .concat parts, same => by
      have parts := evaluateAll_congr parts same
      simp only [evaluate, parts]

theorem evaluateAll_congr : ∀ parts : List Expression,
    (∀ look ∈ looks.looksOfAll parts, evaluate now tree context look.expression =
      evaluate now other viewpoint look.expression) →
    evaluateAll now tree context parts = evaluateAll now other viewpoint parts
  | [], _ => by simp only [evaluateAll]
  | part :: rest, same => by
      rw [looks.looksOfAll, List.forall_mem_append] at same
      have part := evaluate_congr part same.1
      have rest := evaluateAll_congr rest same.2
      simp only [evaluateAll, part, rest]

end

end Congruence

end Expression

/-! What a look finds. -/

namespace Look

def nodes (look : Look) (tree : AnswerTree) (context : Reference) :
    Except EvaluationError (List Reference) :=
  match look.followed context with
  | .error error => .error (.tree (.badReference error))
  | .ok followed => (tree.expand followed none).mapError .tree

theorem nodes_eq_ok {look : Look} {tree : AnswerTree} {context : Reference}
    {found : List Reference} : look.nodes tree context = .ok found ↔
      ∃ followed, look.followed context = .ok followed ∧ tree.expand followed none = .ok found := by
  rw [nodes]
  cases look.followed context with
  | error _ => simp
  | ok followed => simp [mapError_eq_ok]

def result (tree : AnswerTree) : Look → List Reference → Except EvaluationError Value
  | .answer _, nodes => .ok (Expression.firstAnswer tree nodes)
  | .position reference, nodes => Expression.firstPosition reference nodes
  | .count _, nodes => .ok (.decimal (Float.ofNat nodes.length))
  | .sum _, nodes => (Expression.addUp tree 0.0 nodes).map .decimal

theorem nodes_of_whole {look : Look} (whole : look.isWhole = true) (tree : AnswerTree)
    (context : Reference) : look.nodes tree context =
      Expression.everywhere tree context look.reference := by
  have absolute : look.reference.isAbsolute = true := by
    cases look with
    | answer | position => cases whole
    | count | sum => exact whole
  simp [nodes, followed, whole, Expression.everywhere, absolute]

theorem nodes_of_not_whole {look : Look} (near : look.isWhole = false) (tree : AnswerTree)
    (context : Reference) : look.nodes tree context =
      Expression.nearby tree context look.reference := by
  rw [nodes, followed, near, Expression.nearby]
  cases look.reference.anchor context <;> simp

theorem evaluate_expression (now : DateTime) (tree : AnswerTree) (context : Reference)
    (look : Look) : Expression.evaluate now tree context look.expression =
      (look.nodes tree context).bind (look.result tree) := by
  have everywhere (reference : Reference) (look : Look)
      (same : look.reference = reference) (whole : look.isWhole = reference.isAbsolute) :
      look.nodes tree context = Expression.everywhere tree context reference := by
    subst same
    cases absolute : look.reference.isAbsolute with
    | true => rw [nodes_of_whole (whole.trans absolute)]
    | false =>
        rw [nodes_of_not_whole (whole.trans absolute), Expression.everywhere, absolute]
        rfl
  have nearby (reference : Reference) (look : Look)
      (same : look.reference = reference) (near : look.isWhole = false) :
      look.nodes tree context = Expression.nearby tree context reference := by
    rw [nodes_of_not_whole near, same]
  cases look with
  | answer reference =>
      rw [nearby reference (.answer reference) rfl rfl, expression, Expression.evaluate]
      cases Expression.nearby tree context reference <;> rfl
  | position reference =>
      rw [nearby reference (.position reference) rfl rfl, expression, Expression.evaluate]
      rfl
  | count reference =>
      rw [everywhere reference (.count reference) rfl rfl, expression, Expression.evaluate]
      cases Expression.everywhere tree context reference <;> rfl
  | sum reference =>
      rw [everywhere reference (.sum reference) rfl rfl, expression, Expression.evaluate]
      cases Expression.everywhere tree context reference with
      | error _ => rfl
      | ok nodes =>
          change (Expression.addUp tree 0.0 nodes).bind _ = (Expression.addUp tree 0.0 nodes).map _
          cases Expression.addUp tree 0.0 nodes <;> rfl

end Look

/-! Trees of one shape. -/

namespace Expression

def Reads (expression : Expression) (tree : AnswerTree) (context place : Reference) : Prop :=
  ∃ look ∈ expression.looks, ∃ nodes, look.nodes tree context = .ok nodes ∧ place ∈ nodes

theorem Reads.exists_sees {expression : Expression} {tree : AnswerTree} {context place : Reference}
    (reads : expression.Reads tree context place) :
    ∃ look ∈ expression.looks, look.Sees context place := by
  rcases reads with ⟨look, member, nodes, found, inNodes⟩
  refine ⟨look, member, ?_⟩
  rcases Look.nodes_eq_ok.mp found with ⟨reference, followed, expanded⟩
  exact ⟨reference, followed,
    AnswerTree.intersects_of_mem_expand (look.followed_origin followed) expanded inNodes⟩

theorem nodes_sameShape {tree other : AnswerTree} (shape : tree.SameShape other) (look : Look)
    (context : Reference) : look.nodes tree context = look.nodes other context := by
  simp only [Look.nodes, shape.expand]

theorem reads_sameShape {tree other : AnswerTree} (shape : tree.SameShape other)
    {expression : Expression} {context place : Reference} :
    expression.Reads tree context place ↔ expression.Reads other context place := by
  simp only [Reads, nodes_sameShape shape]

theorem addUp_congr {tree other : AnswerTree} {total : Float} {nodes : List Reference}
    (same : ∀ node ∈ nodes, tree.answer? node = other.answer? node) :
    addUp tree total nodes = addUp other total nodes := by
  induction nodes generalizing total with
  | nil => rfl
  | cons node rest induction =>
      rcases List.forall_mem_cons.mp same with ⟨here, rest⟩
      simp only [addUp, here, induction rest]

theorem result_congr {tree other : AnswerTree} {look : Look} {nodes : List Reference}
    (same : ∀ node ∈ nodes, tree.answer? node = other.answer? node) :
    look.result tree nodes = look.result other nodes := by
  cases look with
  | answer reference =>
      cases nodes with
      | nil => rfl
      | cons node rest => simp [Look.result, firstAnswer, same node List.mem_cons_self]
  | position reference => rfl
  | count reference => rfl
  | sum reference => simp only [Look.result, addUp_congr same]

theorem evaluate_sameShape {now : DateTime} {tree other : AnswerTree}
    (shape : tree.SameShape other) {expression : Expression} {context : Reference}
    (same : ∀ place, expression.Reads other context place →
      tree.answer? place = other.answer? place) :
    evaluate now tree context expression = evaluate now other context expression := by
  apply evaluate_congr
  intro look member
  rw [look.evaluate_expression, look.evaluate_expression, nodes_sameShape shape]
  cases found : look.nodes other context with
  | error _ => rfl
  | ok nodes =>
      exact result_congr fun place inNodes => same place ⟨look, member, nodes, found, inNodes⟩

end Expression

/-! Where the nodes are that an expression reads. -/

namespace Look

theorem Sees.origin {look : Look} {context place : Reference} (sees : look.Sees context place) :
    place.origin = .absolute := by
  rcases sees with ⟨followed, found, overlap⟩
  rw [← (Reference.intersects_iff.mp overlap).1, look.followed_origin found]

theorem Sees.exists_anchor {look : Look} {context place : Reference}
    (sees : look.Sees context place) {other : Reference}
    (same : context.genericize = other.genericize) :
    ∃ anchored, look.reference.anchor other = .ok anchored ∧
      anchored.genericize = place.genericize := by
  rcases sees with ⟨followed, found, overlap⟩
  rw [← Reference.genericize_eq_of_intersects overlap]
  have absolute := look.followed_origin found
  rw [Look.followed] at found
  split at found
  · cases found
    exact Reference.exists_anchor_of_absolute absolute other
  · exact Reference.exists_anchor_genericize same found

/-- A look is narrow at a target if its reference is a pattern, and one that is
counted or summed up has only the root in common with the target. -/
structure IsNarrow (look : Look) (target : Reference) : Prop where
  isPattern : look.reference.IsPattern
  apart : look.isAggregate = true → look.reference.shared target ≤ 1

instance (look : Look) (target : Reference) : Decidable (look.IsNarrow target) :=
  decidable_of_iff (look.reference.IsPattern ∧
      (look.isAggregate = true → look.reference.shared target ≤ 1))
    ⟨fun ⟨isPattern, apart⟩ => ⟨isPattern, apart⟩, fun narrow =>
      ⟨narrow.isPattern, narrow.apart⟩⟩

theorem Sees.isNear {look : Look} {context place : Reference} (sees : look.Sees context place)
    (narrow : look.IsNarrow context.genericize) {root : Step} {contextRest placeRest : List Step}
    (contextSteps : context.steps = root :: contextRest)
    (placeSteps : place.steps = root :: placeRest)
    (contextPlace : context.IsPlace) (isPlace : place.IsPlace) : context.IsNear place := by
  rcases sees with ⟨followed, found, overlap⟩
  rw [Look.followed] at found
  split at found
  next whole =>
    cases found
    rw [Reference.isNear_comm]
    apply Reference.isNear_of_shared_le_one placeSteps contextSteps
    have names := narrow.isPattern.intersects_iff.mp overlap
    have generic : context.genericize.genericize = context.genericize :=
      (Reference.genericize_isPattern contextPlace.absolute).genericize_eq
    rw [Reference.shared_congr (names.trans narrow.isPattern.genericize_eq.symm) generic.symm]
    exact narrow.apart (isAggregate_of_isWhole whole)
  next =>
    rcases narrow.isPattern.exists_anchor contextPlace with ⟨near, anchored, denotes⟩
    rw [anchored] at found
    cases found
    exact ((denotes place isPlace).mp overlap).2

end Look

end ReactiveForm
