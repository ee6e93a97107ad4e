import ReactiveForm.Proofs.Following

/-! The order in which rules fire. Rules fire in the order of entry whenever that is an order
in which every edge points forward. The rules that a change may reach are those that a seed
leads to, and they stand among themselves as they do among all rules. -/

namespace ReactiveForm

theorem filter_mem_of_sublist {members list : List Nat} (part : members.Sublist list)
    (nodup : list.Nodup) : list.filter (· ∈ members) = members := by
  induction part with
  | slnil => rfl
  | @cons members list head part induction =>
      rcases List.nodup_cons.mp nodup with ⟨apart, nodup⟩
      have outside : head ∉ members := fun member => apart (part.subset member)
      rw [List.filter_cons_of_neg (by simpa using outside), induction nodup]
  | @cons_cons members list head part induction =>
      rcases List.nodup_cons.mp nodup with ⟨apart, nodup⟩
      rw [List.filter_cons_of_pos (by simp)]
      refine congrArg (head :: ·) (Eq.trans (List.filter_congr fun number member => ?_)
        (induction nodup))
      have differs : number ≠ head := fun same => apart (same ▸ member)
      simp [differs]

/-! Lists in which every edge points forward. -/

section Forward

variable {successors : Nat → List Nat} {order nodes : List Nat}

theorem Forward.sublist (forward : Forward successors order) (part : nodes.Sublist order)
    (closed : ∀ node ∈ nodes, ∀ next ∈ successors node, next ∈ nodes) :
    Forward successors nodes := by
  induction forward generalizing nodes with
  | nil =>
      rw [List.sublist_nil.mp part]
      exact .nil
  | @cons head rest ahead fresh forward induction =>
      -- Nothing in the rest leads back to the head.
      have away : ∀ node ∈ rest, ∀ next ∈ successors node, next ≠ head :=
        fun node member next edge same => fresh (same ▸ forward.mem_of_mem member edge)
      cases part with
      | cons _ part => exact induction part closed
      | @cons_cons members _ _ part =>
          rw [List.forall_mem_cons] at closed
          have apart : head ∉ members := fun member => fresh (part.subset member)
          refine .cons (fun next edge => ?_) apart
            (induction part fun node member next edge => ?_)
          · refine (List.mem_cons.mp (closed.1 next edge)).resolve_left fun same => ?_
            exact fresh (same ▸ ahead next edge)
          · exact (List.mem_cons.mp (closed.2 node member next edge)).resolve_left
              (away node (part.subset member) next edge)

theorem forward_of_pairwise (sorted : nodes.Pairwise (· < ·))
    (edges : ∀ node ∈ nodes, ∀ next ∈ successors node, node < next ∧ next ∈ nodes) :
    Forward successors nodes := by
  induction sorted with
  | nil => exact .nil
  | @cons head rest least sorted induction =>
      have later : ∀ node ∈ head :: rest, ∀ next ∈ successors node, head ≤ node →
          next ∈ rest := by
        intro node member next edge atLeast
        rcases edges node member next edge with ⟨greater, inside⟩
        exact (List.mem_cons.mp inside).resolve_left (by omega)
      refine .cons (fun next edge => later head List.mem_cons_self next edge (Nat.le_refl _))
        (fun member => Nat.lt_irrefl _ (least head member))
        (induction fun node member next edge => ?_)
      have inside := List.mem_cons_of_mem head member
      exact ⟨(edges node inside next edge).1,
        later node inside next edge (Nat.le_of_lt (least node member))⟩

theorem forward_range_iff {size : Nat} : Forward successors (List.range size) ↔
    ∀ node < size, ∀ next ∈ successors node, node < next ∧ next < size := by
  constructor
  · intro forward node below next edge
    have position : ∀ number < size, (List.range size).idxOf number = number := by
      intro number below
      have inside : number < (List.range size).length := by rwa [List.length_range]
      have found := List.nodup_range.idxOf_getElem number inside
      rwa [List.getElem_range] at found
    have member : node ∈ List.range size := List.mem_range.mpr below
    have inside := List.mem_range.mp (forward.mem_of_mem member edge)
    have before := forward.idxOf_lt member edge
    rw [position node below, position next inside] at before
    exact ⟨before, inside⟩
  · intro ascends
    refine forward_of_pairwise List.pairwise_lt_range fun node member next edge => ?_
    rw [List.mem_range] at member ⊢
    exact ascends node member next edge

end Forward

/-! A search over nodes that stand in order already. -/

section Search

variable {successors : Nat → List Nat} {levels : Nat} {path order nodes : List Nat} {node : Nat}

theorem visit_of_mem (placed : node ∈ order) :
    visit successors levels path order node = .ok order := by
  rw [visit.eq_def]
  exact if_pos placed

theorem foldlM_visit_of_mem (placed : ∀ node ∈ nodes, node ∈ order) :
    nodes.foldlM (visit successors levels path) order = .ok order := by
  induction nodes with
  | nil => rfl
  | cons node nodes induction =>
      rw [List.forall_mem_cons] at placed
      rw [List.foldlM_cons, visit_of_mem placed.1]
      exact induction placed.2

theorem visit_of_ahead (ahead : ∀ next ∈ successors node, next ∈ order) (fresh : node ∉ order) :
    visit successors (levels + 1) [] order node = .ok (node :: order) := by
  rw [visit, if_neg fresh, if_neg List.not_mem_nil,
    foldlM_visit_of_mem fun next member => ahead next (List.mem_reverse.mp member)]
  rfl

/-- A search from the last node to the first leaves nodes as they stand. -/
theorem Forward.foldlM_visit (forward : Forward successors nodes) :
    nodes.reverse.foldlM (visit successors (levels + 1) []) [] = .ok nodes := by
  induction forward with
  | nil => rfl
  | @cons head rest ahead fresh forward induction =>
      rw [List.reverse_cons, List.foldlM_append, induction]
      exact congrArg (· >>= pure) (visit_of_ahead ahead fresh)

theorem topologicalOrder_of_forward {size : Nat}
    (forward : Forward successors (List.range size)) :
    topologicalOrder size successors = .ok (List.range size) := by
  cases size with
  | zero => rfl
  | succ size => exact forward.foldlM_visit

end Search

namespace Dependencies

variable {dependencies : Dependencies} {book : Rulebook} {seeds affected : List Nat}

/-! The order of entry. -/

/-- Rules fire in the order of entry if and only if no rule feeds one that was entered
before it, or itself. -/
theorem ofRulebook_order_eq_range_iff (book : Rulebook) :
    (∃ dependencies, ofRulebook book = .ok dependencies ∧
        dependencies.order = List.range book.size) ↔
      ∀ number next, book.Feeds number next → number < next := by
  constructor
  · rintro ⟨dependencies, found, inOrder⟩ number next feeds
    have orders := ofRulebook_orders found
    have forward := orders.forward
    rw [inOrder] at forward
    rcases id feeds with ⟨rule, -, entered, -⟩
    exact (forward_range_iff.mp forward number (Rulebook.rule?_eq_some_lt entered) next
      (orders.mem_successorsOf.mpr feeds)).1
  · intro ascends
    have forward : Forward (fun number => ((edges book)[number]?).getD [])
        (List.range book.size) := by
      refine forward_range_iff.mpr fun number _ next edge => ?_
      have feeds := mem_edges.mp edge
      rcases id feeds with ⟨-, other, -, entered, -⟩
      exact ⟨ascends number next feeds, Rulebook.rule?_eq_some_lt entered⟩
    refine ⟨⟨edges book, List.range book.size⟩, ?_, rfl⟩
    rw [ofRulebook, topologicalOrder_of_forward forward]

/-! What a change may reach. -/

namespace Reaches

variable (reaches : dependencies.Reaches seeds affected)

include reaches

theorem forward (orders : dependencies.Orders book) :
    Forward dependencies.successorsOf affected :=
  orders.forward.sublist reaches.ordered reaches.closed

end Reaches

/-- Of all rules in the order in which they fire, those are affected that a seed leads to.
What an affected rule feeds is affected too, and stands behind it. -/
theorem ofRulebook_affectedBy [DecidablePred (dependencies.IsReached seeds)]
    (found : ofRulebook book = .ok dependencies) (entered : ∀ seed ∈ seeds, seed < book.size) :
    dependencies.affectedBy seeds = dependencies.order.filter (dependencies.IsReached seeds ·) ∧
    (∀ number, number ∈ dependencies.affectedBy seeds ↔ dependencies.IsReached seeds number) ∧
    (dependencies.affectedBy seeds).Nodup ∧
    ∀ number ∈ dependencies.affectedBy seeds, ∀ next ∈ dependencies.successorsOf number,
      next ∈ dependencies.affectedBy seeds ∧
        (dependencies.affectedBy seeds).idxOf number <
          (dependencies.affectedBy seeds).idxOf next := by
  have orders := ofRulebook_orders found
  have reaches := affectedBy_reaches orders entered
  refine ⟨orders.affectedBy_eq entered, fun _ => mem_affectedBy_iff,
    dependencies.affectedBy_nodup seeds, fun number member next edge =>
      ⟨reaches.closed number member next edge, ?_⟩⟩
  exact (reaches.forward orders).idxOf_lt member edge

end Dependencies

/-! A bill whose last line was entered first. -/

namespace Bill

def line (name : String) : Reference := .absolute [.unbound "data", .unbound name]

def rules : List Rule := [
  ⟨.calculate, .binary .add (.answer (line "total")) (.answer (line "tax")), line "due",
    [line "tax", line "total"]⟩,
  ⟨.calculate, .binary .div (.answer (line "total")) (.literal (.int 5)), line "tax",
    [line "total"]⟩,
  ⟨.calculate, .binary .mul (.answer (line "price")) (.answer (line "count")), line "total",
    [line "count", line "price"]⟩,
  ⟨.required, .answer (line "address"), line "name", [line "address"]⟩]

def book : Rulebook := .ofRules rules

end Bill

/-- The tax leads to the amount due, which was entered before it. -/
theorem bill_affectedBy : ∃ dependencies,
    Dependencies.ofRulebook Bill.book = .ok dependencies ∧
    (∀ seed ∈ [1, 1], seed < Bill.book.size) ∧
    dependencies.order = [2, 1, 0, 3] ∧ dependencies.affectedBy [1, 1] = [1, 0] ∧
    (∀ number, dependencies.IsReached [1, 1] number ↔ number = 1 ∨ number = 0) ∧
    ∀ next ∈ dependencies.successorsOf 1, next ∈ dependencies.affectedBy [1, 1] := by
  have ready : (Dependencies.ofRulebook Bill.book).toOption.any (fun dependencies =>
      decide ((∀ seed ∈ [1, 1], seed < Bill.book.size) ∧ dependencies.order = [2, 1, 0, 3] ∧
        dependencies.affectedBy [1, 1] = [1, 0])) = true := by
    decide +kernel
  rcases exists_ok_of_any ready with ⟨dependencies, found, ready⟩
  rcases of_decide_eq_true ready with ⟨entered, order, affected⟩
  classical
  rcases Dependencies.ofRulebook_affectedBy found entered with ⟨-, reached, -, later⟩
  refine ⟨dependencies, found, entered, order, affected, fun number => ?_, fun next edge => ?_⟩
  · simpa [affected] using (reached number).symm
  · exact (later 1 (by simp [affected]) next edge).1

end ReactiveForm
