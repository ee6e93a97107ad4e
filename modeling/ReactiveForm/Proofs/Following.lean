import Mathlib.Data.List.Sort
import ReactiveForm.Proofs.Rules

/-! Which rules a change may reach. Rules taken from a queue come to those that a seed leads
to over some edges, and to no others, whatever the edges are. Sorted by rank they stand as
they do among all rules, so that every edge between them points forward. -/

namespace ReactiveForm

section Sorting

variable {α : Type} {key : α → Nat}

theorem insertByKey_eq (member : α) (list : List α) :
    insertByKey key member list = list.orderedInsert (key · ≤ key ·) member := by
  induction list with
  | nil => rfl
  | cons head tail induction => rw [insertByKey, induction, List.orderedInsert_cons]

theorem sortByKey_eq (list : List α) :
    sortByKey key list = list.insertionSort (key · ≤ key ·) := by
  induction list with
  | nil => rfl
  | cons member rest induction =>
      rw [sortByKey, insertByKey_eq, induction, List.insertionSort_cons]

theorem sortByKey_perm (list : List α) : (sortByKey key list).Perm list := by
  rw [sortByKey_eq]
  exact List.perm_insertionSort _ list

theorem sortByKey_pairwise (list : List α) :
    (sortByKey key list).Pairwise (key · ≤ key ·) := by
  have : Std.Total fun left right => key left ≤ key right := ⟨fun _ _ => Nat.le_total _ _⟩
  have : IsTrans α fun left right => key left ≤ key right := ⟨fun _ _ _ => Nat.le_trans⟩
  rw [sortByKey_eq]
  exact List.pairwise_insertionSort _ list

end Sorting

namespace Dependencies

variable {dependencies : Dependencies} {book : Rulebook} {seeds reached queue : List Nat}
  {number : Nat}

/-- A seed is the rule, or leads to it over some edges. -/
def IsReached (dependencies : Dependencies) (seeds : List Nat) (number : Nat) : Prop :=
  ∃ seed ∈ seeds,
    Relation.ReflTransGen (fun left right => right ∈ dependencies.successorsOf left) seed number

theorem IsReached.seed (member : number ∈ seeds) : dependencies.IsReached seeds number :=
  ⟨number, member, .refl⟩

theorem IsReached.next {later : Nat} (reached : dependencies.IsReached seeds number)
    (edge : later ∈ dependencies.successorsOf number) : dependencies.IsReached seeds later := by
  rcases reached with ⟨seed, member, path⟩
  exact ⟨seed, member, path.tail edge⟩

/-! The queue. -/

/-- What holds whenever the next rule is about to be taken from the queue. -/
structure Follows (dependencies : Dependencies) (seeds reached queue : List Nat) : Prop where
  sound : ∀ number ∈ reached ++ queue, dependencies.IsReached seeds number
  seed : ∀ number ∈ seeds, number ∈ reached ++ queue
  closed : ∀ number ∈ reached, ∀ next ∈ dependencies.successorsOf number, next ∈ reached ++ queue

namespace Follows

theorem start : dependencies.Follows seeds [] seeds where
  sound := fun _ member => .seed member
  seed := fun _ member => member
  closed := List.forall_mem_nil _

theorem pass (follows : dependencies.Follows seeds reached (number :: queue))
    (known : number ∈ reached) : dependencies.Follows seeds reached queue := by
  have same (other : Nat) : other ∈ reached ++ number :: queue ↔ other ∈ reached ++ queue := by
    rw [List.mem_append, List.mem_append, List.mem_cons]
    constructor
    · rintro (member | rfl | member)
      exacts [.inl member, .inl known, .inr member]
    · exact Or.imp_right .inr
  rcases follows with ⟨sound, seed, closed⟩
  simp only [same] at sound seed closed
  exact ⟨sound, seed, closed⟩

theorem take (follows : dependencies.Follows seeds reached (number :: queue)) :
    dependencies.Follows seeds (number :: reached)
      (queue ++ dependencies.successorsOf number) := by
  have isReached := follows.sound number (by simp)
  have kept {other : Nat} (member : other ∈ reached ++ number :: queue) :
      other ∈ number :: reached ++ (queue ++ dependencies.successorsOf number) := by
    simp only [List.mem_append, List.mem_cons] at member ⊢
    tauto
  refine ⟨fun other member => ?_, fun other member => kept (follows.seed other member), ?_⟩
  · simp only [List.mem_append, List.mem_cons] at member
    rcases member with (rfl | known) | waiting | edge
    · exact isReached
    · exact follows.sound other (by simp [known])
    · exact follows.sound other (by simp [waiting])
    · exact isReached.next edge
  · refine List.forall_mem_cons.mpr ⟨fun next edge => by simp [edge], ?_⟩
    exact fun other member next edge => kept (follows.closed other member next edge)

theorem finish (follows : dependencies.Follows seeds reached queue) :
    dependencies.Follows seeds (dependencies.follow reached queue) [] := by
  fun_induction follow dependencies reached queue with
  | case1 reached => exact follows
  | case2 reached number queue known induction => exact induction (follows.pass known)
  | case3 reached number queue fresh induction => exact induction follows.take

theorem mem_iff (follows : dependencies.Follows seeds reached []) :
    number ∈ reached ↔ dependencies.IsReached seeds number := by
  rcases follows with ⟨sound, seed, closed⟩
  rw [List.append_nil] at sound seed closed
  refine ⟨sound number, ?_⟩
  rintro ⟨first, member, path⟩
  induction path with
  | refl => exact seed first member
  | tail _ edge induction => exact closed _ induction _ edge

end Follows

theorem mem_affectedBy_iff :
    number ∈ dependencies.affectedBy seeds ↔ dependencies.IsReached seeds number := by
  rw [affectedBy, (sortByKey_perm _).mem_iff,
    mem_ascending fun _ _ => Std.LawfulEqCmp.eq_of_compare]
  exact Follows.start.finish.mem_iff

theorem affectedBy_nodup (dependencies : Dependencies) (seeds : List Nat) :
    (dependencies.affectedBy seeds).Nodup :=
  (sortByKey_perm _).nodup_iff.mpr ((ascending_pairwise _).imp Nat.ne_of_lt)

/-! The order. -/

namespace Orders

variable (orders : dependencies.Orders book)

include orders

theorem sortingRank_eq (member : number ∈ dependencies.order) :
    dependencies.sortingRank number = dependencies.order.idxOf number := by
  rw [sortingRank, orders.rank?_of_lt (orders.mem_order.mp member), Option.getD_some]

theorem order_pairwise :
    dependencies.order.Pairwise (dependencies.sortingRank · ≤ dependencies.sortingRank ·) := by
  rw [List.pairwise_iff_getElem]
  intro first second inside insideToo before
  rw [orders.sortingRank_eq (List.getElem_mem inside),
    orders.sortingRank_eq (List.getElem_mem insideToo),
    orders.forward.nodup.idxOf_getElem first inside,
    orders.forward.nodup.idxOf_getElem second insideToo]
  exact Nat.le_of_lt before

theorem mem_order_of_isReached (entered : ∀ seed ∈ seeds, seed < book.size)
    (reached : dependencies.IsReached seeds number) : number ∈ dependencies.order := by
  rcases reached with ⟨seed, member, path⟩
  induction path with
  | refl => exact orders.mem_order.mpr (entered seed member)
  | tail _ edge induction => exact orders.forward.mem_of_mem induction edge

/-- Sorting what is reached by rank comes to the same as leaving the rest out of the order. -/
theorem affectedBy_eq [DecidablePred (dependencies.IsReached seeds)]
    (entered : ∀ seed ∈ seeds, seed < book.size) :
    dependencies.affectedBy seeds = dependencies.order.filter (dependencies.IsReached seeds ·) := by
  have inOrder {number : Nat} (member : number ∈ dependencies.affectedBy seeds) :
      number ∈ dependencies.order :=
    orders.mem_order_of_isReached entered (mem_affectedBy_iff.mp member)
  have perm : (dependencies.affectedBy seeds).Perm
      (dependencies.order.filter (dependencies.IsReached seeds ·)) := by
    rw [List.perm_ext_iff_of_nodup (dependencies.affectedBy_nodup seeds)
      (orders.forward.nodup.filter _)]
    intro number
    rw [List.mem_filter, decide_eq_true_iff, ← mem_affectedBy_iff]
    exact ⟨fun member => ⟨inOrder member, member⟩, And.right⟩
  refine perm.eq_of_pairwise (fun left right member other less greater => ?_)
    (sortByKey_pairwise _) (orders.order_pairwise.filter _)
  have other := (List.mem_filter.mp other).1
  have same := Nat.le_antisymm less greater
  rw [orders.sortingRank_eq (inOrder member), orders.sortingRank_eq other] at same
  exact (List.idxOf_inj (inOrder member)).mp same

end Orders

/-- The rules that a change may reach: the seeds and whatever reads what one of
them does, each before those that it feeds. -/
structure Reaches (dependencies : Dependencies) (seeds affected : List Nat) : Prop where
  seed : ∀ number ∈ seeds, number ∈ affected
  closed : ∀ number ∈ affected, ∀ next ∈ dependencies.successorsOf number, next ∈ affected
  ordered : affected.Sublist dependencies.order

theorem affectedBy_reaches (orders : dependencies.Orders book)
    (below : ∀ number ∈ seeds, number < book.size) :
    dependencies.Reaches seeds (dependencies.affectedBy seeds) where
  seed := fun _ member => mem_affectedBy_iff.mpr (.seed member)
  closed := fun _ member _ edge =>
    mem_affectedBy_iff.mpr ((mem_affectedBy_iff.mp member).next edge)
  ordered := by
    classical
    rw [orders.affectedBy_eq below]
    exact List.filter_sublist

end Dependencies

end ReactiveForm
