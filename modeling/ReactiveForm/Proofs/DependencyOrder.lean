import Mathlib.Data.List.Chain
import Mathlib.Data.List.NodupEquivFin
import Mathlib.Data.List.Range
import Mathlib.Logic.Relation
import ReactiveForm.Rule.Dependencies

/-! The order of dependencies: the search either puts every rule in front of
those that read what it does, or finds rules that feed one another in a
circle. -/

namespace ReactiveForm

/-! Lists in which every edge points forward. -/

/-- All that a node of the list leads to stands behind it, and no node stands
there twice. -/
inductive Forward (successors : Nat → List Nat) : List Nat → Prop where
  | nil : Forward successors []
  | cons {node : Nat} {rest : List Nat} (ahead : ∀ next ∈ successors node, next ∈ rest)
      (fresh : node ∉ rest) (forward : Forward successors rest) :
      Forward successors (node :: rest)

namespace Forward

variable {successors : Nat → List Nat} {order : List Nat}

theorem nodup (forward : Forward successors order) : order.Nodup := by
  induction forward with
  | nil => exact List.nodup_nil
  | cons _ fresh _ induction => exact List.nodup_cons.mpr ⟨fresh, induction⟩

theorem mem_of_mem (forward : Forward successors order) {node next : Nat}
    (member : node ∈ order) (edge : next ∈ successors node) : next ∈ order := by
  induction forward with
  | nil => cases member
  | cons ahead _ _ induction =>
      rcases List.mem_cons.mp member with rfl | member
      · exact List.mem_cons_of_mem _ (ahead next edge)
      · exact List.mem_cons_of_mem _ (induction member)

theorem idxOf_lt (forward : Forward successors order) {node next : Nat}
    (member : node ∈ order) (edge : next ∈ successors node) :
    order.idxOf node < order.idxOf next := by
  induction forward with
  | nil => cases member
  | @cons head rest ahead fresh rest_forward induction =>
      have headNe : ∀ other ∈ rest, head ≠ other := fun other inRest equal =>
        fresh (equal ▸ inRest)
      rcases List.mem_cons.mp member with rfl | member
      · rw [List.idxOf_cons_self, List.idxOf_cons_ne _ (headNe next (ahead next edge))]
        exact Nat.succ_pos _
      · have nextMember := rest_forward.mem_of_mem member edge
        rw [List.idxOf_cons_ne _ (headNe node member),
          List.idxOf_cons_ne _ (headNe next nextMember)]
        exact Nat.succ_lt_succ (induction member)

theorem not_transGen_self (forward : Forward successors order) {node : Nat}
    (member : node ∈ order) :
    ¬ Relation.TransGen (fun left right => right ∈ successors left) node node := by
  have increases : ∀ {first last : Nat}, first ∈ order →
      Relation.TransGen (fun left right => right ∈ successors left) first last →
      last ∈ order ∧ order.idxOf first < order.idxOf last := by
    intro first last firstMember path
    induction path with
    | single edge =>
        exact ⟨forward.mem_of_mem firstMember edge, forward.idxOf_lt firstMember edge⟩
    | tail _ edge induction =>
        exact ⟨forward.mem_of_mem induction.1 edge,
          induction.2.trans (forward.idxOf_lt induction.1 edge)⟩
  intro path
  exact Nat.lt_irrefl _ (increases member path).2

end Forward

/-! Circles of nodes. -/

def IsCircle (edge : Nat → Nat → Prop) (circle : List Nat) : Prop :=
  ∃ first rest, circle = first :: rest ∧ circle.Nodup ∧ (circle ++ [first]).IsChain edge

theorem IsCircle.imp {edge edge' : Nat → Nat → Prop} {circle : List Nat}
    (closed : IsCircle edge circle) (implies : ∀ {left right}, edge left right → edge' left right) :
    IsCircle edge' circle := by
  rcases closed with ⟨first, rest, equal, distinct, walk⟩
  exact ⟨first, rest, equal, distinct, walk.imp fun _ _ => implies⟩

theorem IsCircle.exists_transGen {edge : Nat → Nat → Prop} {circle : List Nat}
    (closed : IsCircle edge circle) : ∃ node, Relation.TransGen edge node node := by
  rcases closed with ⟨first, rest, rfl, -, walk⟩
  have reaches : ∀ (start : Nat) (between : List Nat),
      (start :: between ++ [first]).IsChain edge → Relation.TransGen edge start first := by
    intro start between
    induction between generalizing start with
    | nil =>
        intro walk
        exact .single (List.isChain_cons_cons.mp walk).1
    | cons next between induction =>
        intro walk
        have parts := List.isChain_cons_cons.mp walk
        exact .head parts.1 (induction next parts.2)
  exact ⟨first, reaches first rest walk⟩

/-! The search. -/

/-- What holds whenever a node is about to be visited: the path is a walk
without repetitions whose last node comes first, the order is forward, and the
two have no node in common. -/
structure SearchState (successors : Nat → List Nat) (size : Nat)
    (path order : List Nat) : Prop where
  chain : path.IsChain fun later earlier => later ∈ successors earlier
  distinct : path.Nodup
  pathBelow : ∀ node ∈ path, node < size
  forward : Forward successors order
  orderBelow : ∀ node ∈ order, node < size
  apart : ∀ node ∈ path, node ∉ order

def SearchEnd (successors : Nat → List Nat) (size : Nat) (path order nodes : List Nat) :
    Except (List Nat) (List Nat) → Prop
  | .ok found =>
      SearchState successors size path found ∧ order <:+ found ∧
        ∀ node ∈ nodes, node ∈ found
  | .error circle =>
      IsCircle (fun left right => right ∈ successors left) circle ∧
        ∀ node ∈ circle, node < size

section Search

variable {successors : Nat → List Nat} {size : Nat}

theorem SearchState.length_lt {path order : List Nat}
    (state : SearchState successors size path order) {node : Nat} (below : node < size)
    (notOnPath : node ∉ path) : path.length < size := by
  have distinct : (node :: path).Nodup := List.nodup_cons.mpr ⟨notOnPath, state.distinct⟩
  have within : node :: path ⊆ List.range size := by
    intro other member
    rw [List.mem_range]
    rcases List.mem_cons.mp member with rfl | member
    · exact below
    · exact state.pathBelow other member
  have bound := (List.subperm_of_subset distinct within).length_le
  rw [List.length_cons, List.length_range] at bound
  exact bound

theorem SearchState.isCircle {path order : List Nat}
    (state : SearchState successors size path order) {node : Nat} (onPath : node ∈ path)
    (edge : ∀ last ∈ path.head?, node ∈ successors last) :
    IsCircle (fun left right => right ∈ successors left)
      (node :: (path.takeWhile (· != node)).reverse) := by
  rcases List.append_of_mem onPath with ⟨recent, older, rfl⟩
  have apart := List.disjoint_of_nodup_append state.distinct
  have notRecent : node ∉ recent := fun member => apart member List.mem_cons_self
  have recentDistinct := (List.nodup_append.mp state.distinct).1
  have cut : (recent ++ node :: older).takeWhile (· != node) = recent := by
    rw [List.takeWhile_append_of_pos, List.takeWhile_cons_of_neg, List.append_nil]
    · simp
    · intro other member
      simpa using fun equal : other = node => notRecent (equal ▸ member)
  rw [cut]
  refine ⟨node, recent.reverse, rfl, ?_, ?_⟩
  · exact List.nodup_cons.mpr ⟨by simpa using notRecent, by simpa using recentDistinct⟩
  · -- The walk is the stretch of the path between the two visits, turned around.
    have stretch : (node :: recent ++ [node]).IsChain
        fun later earlier => later ∈ successors earlier := by
      have whole : (node :: (recent ++ node :: older)).IsChain
          fun later earlier => later ∈ successors earlier :=
        state.chain.cons edge
      have split : node :: (recent ++ node :: older) = (node :: recent ++ [node]) ++ older := by
        simp
      rw [split] at whole
      exact whole.left_of_append
    have turned := List.isChain_reverse.mpr stretch
    simpa using turned

theorem SearchState.circleEnd {path order nodes : List Nat}
    (state : SearchState successors size path order) {node : Nat} (onPath : node ∈ path)
    (edge : ∀ last ∈ path.head?, node ∈ successors last) :
    SearchEnd successors size path order nodes
      (.error (node :: (path.takeWhile (· != node)).reverse)) := by
  refine ⟨state.isCircle onPath edge, ?_⟩
  intro other member
  rcases List.mem_cons.mp member with rfl | member
  · exact state.pathBelow other onPath
  · exact state.pathBelow other
      (List.takeWhile_subset _ (List.mem_reverse.mp member))

theorem SearchState.step {path order : List Nat}
    (state : SearchState successors size path order) {node : Nat} (notOnPath : node ∉ path)
    (notPlaced : node ∉ order) (below : node < size)
    (edge : ∀ last ∈ path.head?, node ∈ successors last) :
    SearchState successors size (node :: path) order where
  chain := state.chain.cons edge
  distinct := List.nodup_cons.mpr ⟨notOnPath, state.distinct⟩
  pathBelow := List.forall_mem_cons.mpr ⟨below, state.pathBelow⟩
  forward := state.forward
  orderBelow := state.orderBelow
  apart := List.forall_mem_cons.mpr ⟨notPlaced, state.apart⟩

theorem SearchState.enter {path order : List Nat} {node : Nat}
    (state : SearchState successors size (node :: path) order)
    (ahead : ∀ next ∈ successors node, next ∈ order) :
    SearchState successors size path (node :: order) where
  chain := state.chain.tail
  distinct := state.distinct.of_cons
  pathBelow := fun other member => state.pathBelow other (.tail _ member)
  forward := .cons ahead (state.apart node List.mem_cons_self) state.forward
  orderBelow := List.forall_mem_cons.mpr
    ⟨state.pathBelow node List.mem_cons_self, state.orderBelow⟩
  apart := by
    intro other member inOrder
    rcases List.mem_cons.mp inOrder with rfl | inOrder
    · exact (List.nodup_cons.mp state.distinct).1 member
    · exact state.apart other (.tail _ member) inOrder

theorem foldlM_searchEnd {path nodes order : List Nat}
    {search : List Nat → Nat → Except (List Nat) (List Nat)}
    (each : ∀ order, SearchState successors size path order →
      ∀ node ∈ nodes, SearchEnd successors size path order [node] (search order node))
    (state : SearchState successors size path order) :
    SearchEnd successors size path order nodes (nodes.foldlM search order) := by
  induction nodes generalizing order with
  | nil => exact ⟨state, List.suffix_rfl, by simp⟩
  | cons node nodes induction =>
      rw [List.foldlM_cons]
      have first := each order state node List.mem_cons_self
      cases outcome : search order node with
      | error circle =>
          rw [outcome] at first
          exact first
      | ok found =>
          rw [outcome] at first
          rcases first with ⟨foundState, continues, placed⟩
          have others := induction
            (fun order state other member => each order state other (.tail _ member))
            foundState
          change SearchEnd successors size path order (node :: nodes)
            (nodes.foldlM search found)
          cases rest : nodes.foldlM search found with
          | error circle =>
              rw [rest] at others
              exact others
          | ok last =>
              rw [rest] at others
              rcases others with ⟨lastState, lastContinues, allPlaced⟩
              refine ⟨lastState, continues.trans lastContinues, ?_⟩
              intro other member
              rcases List.mem_cons.mp member with rfl | member
              · exact lastContinues.subset (placed other List.mem_cons_self)
              · exact allPlaced other member

/-- A visit never runs out of levels: the path and the levels left are together
as many as there are nodes. -/
theorem visit_searchEnd (levels : Nat) {path order : List Nat} {node : Nat}
    (inside : ∀ node < size, ∀ next ∈ successors node, next < size)
    (state : SearchState successors size path order) (below : node < size)
    (edge : ∀ last ∈ path.head?, node ∈ successors last)
    (enough : size ≤ levels + path.length) :
    SearchEnd successors size path order [node]
      (visit successors levels path order node) := by
  induction levels generalizing path order node with
  | zero =>
      rw [visit]
      split
      next placed => exact ⟨state, List.suffix_rfl, by simpa using placed⟩
      next =>
        split
        next onPath => exact state.circleEnd onPath edge
        next notOnPath =>
          -- There is no node left for which levels would be missing.
          have short := state.length_lt below notOnPath
          omega
  | succ levels induction =>
      rw [visit]
      split
      next placed => exact ⟨state, List.suffix_rfl, by simpa using placed⟩
      next notPlaced =>
        split
        next onPath => exact state.circleEnd onPath edge
        next notOnPath =>
          have deeper := state.step notOnPath notPlaced below edge
          have each : ∀ order, SearchState successors size (node :: path) order →
              ∀ next ∈ (successors node).reverse, SearchEnd successors size (node :: path) order
                [next] (visit successors levels (node :: path) order next) := by
            intro order state next member
            have nextEdge := List.mem_reverse.mp member
            exact induction state (inside node below next nextEdge) (by simpa using nextEdge)
              (by rw [List.length_cons]; omega)
          have others := foldlM_searchEnd each deeper
          change SearchEnd successors size path order [node]
            ((successors node).reverse.foldlM (visit successors levels (node :: path)) order
              >>= fun order => .ok (node :: order))
          cases outcome : (successors node).reverse.foldlM
              (visit successors levels (node :: path)) order with
          | error circle =>
              rw [outcome] at others
              exact others
          | ok found =>
              rw [outcome] at others
              rcases others with ⟨foundState, continues, placed⟩
              refine ⟨foundState.enter fun next nextEdge =>
                placed next (List.mem_reverse.mpr nextEdge), ?_, by simp⟩
              exact continues.trans (List.suffix_cons node found)

theorem topologicalOrder_searchEnd
    (inside : ∀ node < size, ∀ next ∈ successors node, next < size) :
    SearchEnd successors size [] [] (List.range size).reverse
      (topologicalOrder size successors) := by
  apply foldlM_searchEnd
  · intro order state node member
    have below := List.mem_range.mp (List.mem_reverse.mp member)
    exact visit_searchEnd size inside state below (by simp) (by simp)
  · exact ⟨List.isChain_nil, List.nodup_nil, by simp, .nil, by simp, by simp⟩

end Search

/-! The rules of a form. -/

namespace Rulebook

/-- The second rule reads what the first one does. A rule that reads its own
target is in its own way only if it writes an answer there. -/
def Feeds (book : Rulebook) (number next : Nat) : Prop :=
  ∃ rule other, book.rule? number = some rule ∧ book.rule? next = some other ∧
    (∃ trigger ∈ other.triggers, rule.feeds trigger = true) ∧
    (number = next → rule.effect.writesAnswer = true)

theorem rule?_eq_some_lt {book : Rulebook} {number : Nat} {rule : Rule}
    (found : book.rule? number = some rule) : number < book.size :=
  (List.getElem?_eq_some_iff.mp found).1

end Rulebook

namespace Dependencies

theorem isEdge_eq_true {number next : Nat} {rule other : Rule} :
    isEdge number rule next other = true ↔
      (∃ trigger ∈ other.triggers, rule.feeds trigger = true) ∧
        (number = next → rule.effect.writesAnswer = true) := by
  by_cases equal : number = next <;> simp [isEdge, equal, and_comm]

theorem mem_edgesFrom {book : Rulebook} {number next : Nat} {rule : Rule} :
    next ∈ edgesFrom book number rule ↔
      ∃ other, book.rule? next = some other ∧ isEdge number rule next other = true := by
  simp [edgesFrom, Rulebook.rule?, List.mem_zipIdx_iff_getElem?]

theorem edgesFrom_nodup (book : Rulebook) (number : Nat) (rule : Rule) :
    (edgesFrom book number rule).Nodup := by
  have positions : (book.rules.zipIdx.map (·.2)).Nodup := by
    rw [List.zipIdx_map_snd]
    exact List.nodup_range'
  exact positions.sublist (List.filter_sublist.map _)

theorem edges_getElem? (book : Rulebook) (number : Nat) :
    (edges book)[number]? = (book.rule? number).map (edgesFrom book number) := by
  simp [edges, Rulebook.rule?, Function.comp_def]

theorem mem_edges {book : Rulebook} {number next : Nat} :
    next ∈ ((edges book)[number]?).getD [] ↔ book.Feeds number next := by
  rw [edges_getElem?]
  cases found : book.rule? number with
  | none => simp [Rulebook.Feeds, found]
  | some rule => simp [Rulebook.Feeds, found, mem_edgesFrom, isEdge_eq_true]

theorem ofRulebook_searchEnd (book : Rulebook) :
    SearchEnd (fun number => ((edges book)[number]?).getD []) book.size [] []
      (List.range book.size).reverse
      (topologicalOrder book.size fun number => ((edges book)[number]?).getD []) := by
  apply topologicalOrder_searchEnd
  intro number _ next edge
  rcases mem_edges.mp edge with ⟨_, other, _, found, _⟩
  exact Rulebook.rule?_eq_some_lt found

structure Orders (dependencies : Dependencies) (book : Rulebook) : Prop where
  mem_successorsOf : ∀ {number next : Nat},
    next ∈ dependencies.successorsOf number ↔ book.Feeds number next
  nodup_successorsOf : ∀ number, (dependencies.successorsOf number).Nodup
  forward : Forward dependencies.successorsOf dependencies.order
  mem_order : ∀ {number : Nat}, number ∈ dependencies.order ↔ number < book.size

theorem ofRulebook_orders {book : Rulebook} {dependencies : Dependencies}
    (built : ofRulebook book = .ok dependencies) : dependencies.Orders book := by
  have search := ofRulebook_searchEnd book
  rw [ofRulebook] at built
  cases outcome : topologicalOrder book.size
      fun number => ((edges book)[number]?).getD [] with
  | error path =>
      rw [outcome] at built
      cases built
  | ok order =>
      rw [outcome] at built search
      cases built
      rcases search with ⟨state, -, placed⟩
      refine ⟨mem_edges, ?_, state.forward, ?_⟩
      · intro number
        rw [successorsOf, edges_getElem?]
        cases book.rule? number with
        | none => exact List.nodup_nil
        | some rule => exact edgesFrom_nodup book number rule
      · intro number
        refine ⟨state.orderBelow number, fun below => placed number ?_⟩
        exact List.mem_reverse.mpr (List.mem_range.mpr below)

namespace Orders

variable {book : Rulebook} {dependencies : Dependencies}

theorem perm (orders : dependencies.Orders book) :
    dependencies.order.Perm book.numbers := by
  have distinct : book.numbers.Nodup := List.nodup_range
  rw [List.perm_ext_iff_of_nodup orders.forward.nodup distinct]
  intro number
  rw [orders.mem_order, Rulebook.numbers, List.mem_range]

theorem rank?_eq_some_iff (orders : dependencies.Orders book) {number position : Nat} :
    dependencies.rank? number = some position ↔
      dependencies.order[position]? = some number := by
  rw [rank?, List.idxOf?_eq_some_iff, List.getElem?_eq_some_iff]
  constructor
  · rintro ⟨inside, found, -⟩
    exact ⟨inside, found⟩
  · rintro ⟨inside, found⟩
    refine ⟨inside, found, ?_⟩
    intro earlier less again
    have equal := (orders.forward.nodup.getElem_inj_iff).mp (again.trans found.symm)
    omega

theorem rank?_of_lt (orders : dependencies.Orders book) {number : Nat}
    (below : number < book.size) :
    dependencies.rank? number = some (dependencies.order.idxOf number) := by
  have member := orders.mem_order.mpr below
  rw [orders.rank?_eq_some_iff, List.getElem?_eq_some_iff]
  exact ⟨List.idxOf_lt_length_of_mem member, List.getElem_idxOf _⟩

theorem rank?_lt (orders : dependencies.Orders book) {number next : Nat}
    (feeds : book.Feeds number next) :
    ∃ rank later, dependencies.rank? number = some rank ∧
      dependencies.rank? next = some later ∧ rank < later := by
  rcases id feeds with ⟨rule, other, found, nextFound, -⟩
  have below := Rulebook.rule?_eq_some_lt found
  refine ⟨_, _, orders.rank?_of_lt below,
    orders.rank?_of_lt (Rulebook.rule?_eq_some_lt nextFound), ?_⟩
  exact orders.forward.idxOf_lt (orders.mem_order.mpr below)
    (orders.mem_successorsOf.mpr feeds)

theorem not_transGen_self (orders : dependencies.Orders book) (number : Nat) :
    ¬ Relation.TransGen book.Feeds number number := by
  intro path
  have edges : (fun left right => right ∈ dependencies.successorsOf left) = book.Feeds := by
    funext left right
    exact propext orders.mem_successorsOf
  have below : number < book.size := by
    rcases Relation.TransGen.head'_iff.mp path with ⟨next, ⟨rule, other, found, _⟩, -⟩
    exact Rulebook.rule?_eq_some_lt found
  exact orders.forward.not_transGen_self (orders.mem_order.mpr below) (edges ▸ path)

end Orders

/-! Circles of rules. -/

/-- Rules of the book, each of which feeds the next, and the last of which feeds
the first. -/
structure IsCycle (book : Rulebook) (cycle : Cycle) : Prop where
  entered : ∀ member ∈ cycle, member? book member.number = some member
  isCircle : IsCircle book.Feeds (cycle.map (·.number))

theorem member?_number {book : Rulebook} {number : Nat} {member : CycleMember}
    (found : member? book number = some member) : member.number = number := by
  rcases Option.map_eq_some_iff.mp found with ⟨rule, -, rfl⟩
  rfl

theorem map_number_filterMap {book : Rulebook} {path : List Nat}
    (below : ∀ number ∈ path, number < book.size) :
    (path.filterMap (member? book)).map (·.number) = path := by
  induction path with
  | nil => rfl
  | cons number path induction =>
      have rest := induction fun other member => below other (.tail _ member)
      have inside : number < book.rules.length := below number List.mem_cons_self
      have first : member? book number =
          some ⟨number, book.rules[number].effect.label, book.rules[number].target⟩ := by
        rw [member?, Rulebook.rule?, List.getElem?_eq_getElem inside]
        rfl
      rw [List.filterMap_cons_some first, List.map_cons, rest]

theorem ofRulebook_isCycle {book : Rulebook} {cycle : Cycle}
    (failed : ofRulebook book = .error cycle) : IsCycle book cycle := by
  have search := ofRulebook_searchEnd book
  rw [ofRulebook] at failed
  cases outcome : topologicalOrder book.size
      fun number => ((edges book)[number]?).getD [] with
  | ok order =>
      rw [outcome] at failed
      cases failed
  | error path =>
      rw [outcome] at failed search
      cases failed
      rcases search with ⟨circle, below⟩
      refine ⟨?_, ?_⟩
      · intro member inCycle
        rcases List.mem_filterMap.mp inCycle with ⟨number, -, found⟩
        rw [member?_number found, found]
      · rw [map_number_filterMap below]
        exact circle.imp mem_edges.mp

/-- Dependencies are found exactly when no rule feeds itself in the end, and they
hold all rules in an order in which every edge points forward. Otherwise the
answer is a circle of rules. -/
theorem ofRulebook_ok_iff_acyclic (book : Rulebook) :
    ((∃ dependencies, ofRulebook book = .ok dependencies) ↔
      ∀ number, ¬ Relation.TransGen book.Feeds number number) ∧
    match ofRulebook book with
    | .ok dependencies =>
        dependencies.order.Perm book.numbers ∧
        (∀ number position, dependencies.rank? number = some position ↔
          dependencies.order[position]? = some number) ∧
        (∀ number, (dependencies.successorsOf number).Nodup ∧
          ∀ next, next ∈ dependencies.successorsOf number ↔ book.Feeds number next) ∧
        ∀ number next, book.Feeds number next →
          ∃ rank later, dependencies.rank? number = some rank ∧
            dependencies.rank? next = some later ∧ rank < later
    | .error cycle => IsCycle book cycle := by
  cases outcome : ofRulebook book with
  | ok dependencies =>
      have orders := ofRulebook_orders outcome
      refine ⟨⟨fun _ => orders.not_transGen_self, fun _ => ⟨dependencies, rfl⟩⟩, orders.perm,
        fun _ _ => orders.rank?_eq_some_iff, ?_, fun _ _ => orders.rank?_lt⟩
      intro number
      exact ⟨orders.nodup_successorsOf number, fun _ => orders.mem_successorsOf⟩
  | error cycle =>
      have circular := ofRulebook_isCycle outcome
      refine ⟨⟨?_, ?_⟩, circular⟩
      · rintro ⟨_, found⟩
        cases found
      · intro acyclic
        rcases circular.isCircle.exists_transGen with ⟨number, path⟩
        exact absurd path (acyclic number)

end Dependencies

end ReactiveForm
