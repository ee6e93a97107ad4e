import ReactiveForm.Rule.Rulebook

namespace ReactiveForm

/-! Which rules have to fire after which. There is an edge from one rule to
another that reads what the first one does. Rules fire in an order in which
every edge points forward; where the edges leave a choice, rules keep their
order of entry. -/

structure CycleMember where
  number : Nat
  label : String
  target : Reference
  deriving DecidableEq, Repr

def CycleMember.text (member : CycleMember) : String :=
  "#" ++ toString member.number ++ " " ++ member.label ++ " " ++ member.target.text

abbrev Cycle := List CycleMember

def Cycle.message (cycle : Cycle) : String :=
  let back := (cycle.take 1).map fun member => "#" ++ toString member.number
  "dependency cycle: " ++ " -> ".intercalate (cycle.map CycleMember.text ++ back)

/-! Depth-first search. Nodes are entered into the order when everything they
lead to is in it, always at the front. -/

/-- Visit a node that was reached over `path`, whose last node comes first.
The answer is the order with the node and all that it leads to, or the nodes of
a cycle. -/
def visit (successors : Nat → List Nat) :
    (levels : Nat) → (path : List Nat) → (order : List Nat) → (node : Nat) →
    Except (List Nat) (List Nat)
  | levels, path, order, node =>
      if node ∈ order then .ok order
      else if node ∈ path then
        .error (node :: (path.takeWhile (· != node)).reverse)
      else
        match levels with
        -- No path is longer than there are nodes, so that many levels do.
        | 0 => .ok order
        | levels + 1 => do
            let order ← (successors node).reverse.foldlM
              (visit successors levels (node :: path)) order
            return node :: order

def topologicalOrder (size : Nat) (successors : Nat → List Nat) :
    Except (List Nat) (List Nat) :=
  (List.range size).reverse.foldlM (visit successors size []) []

structure Dependencies where
  /-- For every rule the rules that read what it does, in ascending order. -/
  successors : Array (List Nat)
  order : List Nat

namespace Dependencies

/-- Does the second rule read what the first one does? Only a rule that writes
an answer can be in its own way. -/
def isEdge (number : Nat) (rule : Rule) (otherNumber : Nat) (other : Rule) : Bool :=
  (number != otherNumber || rule.effect.writesAnswer) &&
    other.triggers.any rule.feeds

def edgesFrom (book : Rulebook) (number : Nat) (rule : Rule) : List Nat :=
  (book.rules.zipIdx.filter fun (other, otherNumber) =>
    isEdge number rule otherNumber other).map (·.2)

def edges (book : Rulebook) : Array (List Nat) :=
  (book.rules.zipIdx.map fun (rule, number) => edgesFrom book number rule).toArray

def member? (book : Rulebook) (number : Nat) : Option CycleMember :=
  (book.rule? number).map fun rule => ⟨number, rule.effect.label, rule.target⟩

def ofRulebook (book : Rulebook) : Except Cycle Dependencies :=
  let successors := edges book
  match topologicalOrder book.size fun number => (successors[number]?).getD [] with
  | .ok order => .ok ⟨successors, order⟩
  | .error path => .error (path.filterMap (member? book))

def successorsOf (dependencies : Dependencies) (number : Nat) : List Nat :=
  (dependencies.successors[number]?).getD []

def rank? (dependencies : Dependencies) (number : Nat) : Option Nat :=
  dependencies.order.idxOf? number

def size (dependencies : Dependencies) : Nat := dependencies.order.length

def edgeCount (dependencies : Dependencies) : Nat :=
  dependencies.successors.toList.flatten.length

/-! What a change leads to. A rule is reached once, and only then are its edges followed. -/

def unfollowedFrom (dependencies : Dependencies) (reached : List Nat) (number : Nat) : Nat :=
  if number ∈ reached then 0 else (dependencies.successorsOf number).length

def unfollowedAmong (dependencies : Dependencies) (reached : List Nat) : List Nat → Nat
  | [] => 0
  | number :: rest =>
      dependencies.unfollowedFrom reached number + dependencies.unfollowedAmong reached rest

def unfollowed (dependencies : Dependencies) (reached : List Nat) : Nat :=
  dependencies.unfollowedAmong reached (List.range dependencies.successors.size)

section Unfollowed

variable (dependencies : Dependencies) (reached : List Nat) (number : Nat)

theorem unfollowedFrom_cons_le (other : Nat) :
    dependencies.unfollowedFrom (number :: reached) other ≤
      dependencies.unfollowedFrom reached other := by
  simp only [unfollowedFrom, List.mem_cons]
  split <;> split <;> simp_all

theorem unfollowedAmong_cons_le (numbers : List Nat) :
    dependencies.unfollowedAmong (number :: reached) numbers ≤
      dependencies.unfollowedAmong reached numbers := by
  induction numbers with
  | nil => exact Nat.le_refl _
  | cons head rest induction =>
      exact Nat.add_le_add (dependencies.unfollowedFrom_cons_le reached number head) induction

theorem unfollowedAmong_cons {numbers : List Nat} (member : number ∈ numbers) :
    dependencies.unfollowedAmong (number :: reached) numbers +
        dependencies.unfollowedFrom reached number ≤
      dependencies.unfollowedAmong reached numbers := by
  induction numbers with
  | nil => cases member
  | cons head rest induction =>
      rw [unfollowedAmong, unfollowedAmong]
      rcases List.mem_cons.mp member with rfl | member
      · have none : dependencies.unfollowedFrom (number :: reached) number = 0 :=
          if_pos List.mem_cons_self
        have others := dependencies.unfollowedAmong_cons_le reached number rest
        omega
      · have first := dependencies.unfollowedFrom_cons_le reached number head
        have others := induction member
        omega

theorem unfollowed_cons {reached : List Nat} {number : Nat} (fresh : number ∉ reached) :
    dependencies.unfollowed (number :: reached) + (dependencies.successorsOf number).length ≤
      dependencies.unfollowed reached := by
  have whole : dependencies.unfollowedFrom reached number =
      (dependencies.successorsOf number).length := if_neg fresh
  by_cases inside : number < dependencies.successors.size
  · rw [← whole]
    exact dependencies.unfollowedAmong_cons reached number (List.mem_range.mpr inside)
  · have none : dependencies.successorsOf number = [] := by
      rw [successorsOf, Array.getElem?_eq_none (by omega), Option.getD_none]
    rw [none]
    exact dependencies.unfollowedAmong_cons_le reached number _

end Unfollowed

/-- Take rules from the front of a queue. One that has not been reached before is
reached now, and all that it leads to goes to the end of the queue. -/
def follow (dependencies : Dependencies) (reached queue : List Nat) : List Nat :=
  match queue with
  | [] => reached
  | number :: queue =>
      if number ∈ reached then dependencies.follow reached queue
      else dependencies.follow (number :: reached) (queue ++ dependencies.successorsOf number)
-- What a rule leads to is put into the queue once, when the rule is reached.
termination_by dependencies.unfollowed reached + queue.length
decreasing_by
  · simp
  · have released := dependencies.unfollowed_cons ‹number ∉ reached›
    rw [List.length_append, List.length_cons]
    omega

def sortingRank (dependencies : Dependencies) (number : Nat) : Nat :=
  (dependencies.rank? number).getD dependencies.size

def affectedBy (dependencies : Dependencies) (seeds : List Nat) : List Nat :=
  sortByKey dependencies.sortingRank (ascending compare (dependencies.follow [] seeds))

end Dependencies

end ReactiveForm
