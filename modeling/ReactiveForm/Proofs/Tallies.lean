import ReactiveForm.Proofs.Counterparts
import ReactiveForm.Proofs.Isolation

/-! Tallies: calculations that number the members of a series, or count nodes. What a
tally comes to depends on nothing but the shape of the tree. In a tree that has grown by
one member it comes to the same at the counterpart of a node, unless what it reads there
is new or has got another number. -/

namespace ReactiveForm

/-! The parent of a node. -/

namespace Reference

theorem anchor_up {place : Reference} (absolute : place.origin = .absolute)
    (nonempty : place.steps ≠ []) :
    (relative 1 []).anchor place = .ok (.absolute place.steps.dropLast) := by
  have deep : ¬ place.steps.length < 1 := by
    rw [Nat.lt_one_iff, List.length_eq_zero_iff]
    exact nonempty
  simp [anchor, relative, isAbsolute, absolute, deep, List.dropLast_eq_take]

theorem parent?_eq_some {place parent : Reference} (absolute : place.origin = .absolute) :
    place.parent? = some parent ↔
      1 < place.steps.length ∧ parent = .absolute place.steps.dropLast := by
  rw [parent?, absolute]
  dsimp only
  split
  next short => simp [Nat.not_lt.mpr short]
  next long => simp [Nat.lt_of_not_le long, eq_comm]

theorem inside_of_parent? {place parent : Reference} (absolute : place.origin = .absolute)
    (isParent : place.parent? = some parent) : ∃ last, place.steps = parent.steps ++ [last] := by
  rcases (parent?_eq_some absolute).mp isParent with ⟨long, rfl⟩
  have nonempty : place.steps ≠ [] := List.ne_nil_of_length_pos (Nat.zero_lt_of_lt long)
  exact ⟨place.steps.getLast nonempty, (List.dropLast_append_getLast nonempty).symm⟩

theorem IsPlace.eq_of_intersects {left right : Reference} (isPlace : left.IsPlace)
    (isPlaceToo : right.IsPlace) (overlap : left.intersects right = true) : left = right := by
  rcases left with ⟨origin, steps⟩
  rcases right with ⟨originToo, stepsToo⟩
  rcases intersects_iff.mp overlap with ⟨rfl, overlaps⟩
  have bound : ∀ step ∈ steps, step.multiplicity.isBound = true := isPlace.bound
  have boundToo : ∀ step ∈ stepsToo, step.multiplicity.isBound = true := isPlaceToo.bound
  clear isPlace isPlaceToo overlap
  congr 1
  dsimp only at overlaps
  induction overlaps with
  | nil => rfl
  | cons first _ induction =>
      rcases List.forall_mem_cons.mp bound with ⟨here, below⟩
      rcases List.forall_mem_cons.mp boundToo with ⟨hereToo, belowToo⟩
      rw [(Step.overlaps_of_bound here hereToo).mp first, induction below belowToo]

end Reference

theorem moveSteps_take (name : String) (position count : Nat) (path steps : List Step) :
    moveSteps name position path (steps.take count) =
      (moveSteps name position path steps).take count := by
  induction path generalizing count steps with
  | nil => cases count <;> cases steps <;> simp
  | cons first path induction =>
      cases count with
      | zero => simp
      | succ count =>
          cases steps with
          | nil => simp
          | cons step rest =>
              by_cases same : step = first
              · simp [same, induction]
              · simp [moveSteps_cons_other same]

theorem Gap.parent?_move (gap : Gap) {place : Reference} (absolute : place.origin = .absolute) :
    (gap.move place).parent? = place.parent?.map gap.move := by
  have length : (gap.move place).steps.length = place.steps.length := by
    have names : ((gap.move place).steps.map Step.name).length =
        (place.steps.map Step.name).length :=
      congrArg List.length (map_name_moveSteps gap.parent.steps place.steps)
    rwa [List.length_map, List.length_map] at names
  have dropped : (gap.move place).steps.dropLast =
      moveSteps gap.name gap.position gap.parent.steps place.steps.dropLast := by
    rw [List.dropLast_eq_take, length, List.dropLast_eq_take, moveSteps_take]
    rfl
  have origin : (gap.move place).origin = .absolute := absolute
  rw [Reference.parent?, Reference.parent?, origin, absolute]
  dsimp only
  rw [length, dropped]
  split <;> rfl

theorem AnswerTree.mem_references_of_parent? {tree : AnswerTree} (numbered : tree.root.Numbered)
    {place parent : Reference} (member : place ∈ tree.references)
    (isParent : place.parent? = some parent) : parent ∈ tree.references := by
  rcases mem_references_iff.mp member with ⟨facts, inCensus⟩
  rcases of_mem_census numbered inCensus with ⟨live, -, node, found, -⟩
  rcases (Reference.parent?_eq_some live.absolute).mp isParent with ⟨long, rfl⟩
  let above : Reference := .absolute place.steps.dropLast
  have prefixes : above.steps <+: place.steps := List.dropLast_prefix _
  have nonempty : above.steps ≠ [] := by
    rw [← List.length_pos_iff]
    change 0 < place.steps.dropLast.length
    rw [List.length_dropLast]
    omega
  have isThere : ∃ node, tree.find? above = some node := exists_above found rfl nonempty prefixes
  rcases isThere with ⟨parentNode, parentFound⟩
  refine mem_references_iff.mpr ⟨parentNode.facts, mem_census_of_find? parentFound ?_⟩
  intro step inSteps
  rcases live.indexed step (prefixes.subset inSteps) with ⟨number, index⟩
  simp [index]

/-! Tallies. -/

/-- What is counted, and noted at every node of a target: which member of its series the
parent of the node is, or how many nodes there are of some pattern. -/
inductive Tally where
  | position
  | count (pattern : Reference)

namespace Tally

def expression : Tally → Expression
  | position => .position (.relative 1 [])
  | count pattern => .count pattern

theorem eq_of_same {tally : Tally} {expression : Expression}
    (same : tally.expression.same expression = true) : expression = tally.expression := by
  cases tally <;> cases expression <;> simp_all [Tally.expression, Expression.same]

theorem same_self (tally : Tally) : tally.expression.same tally.expression = true := by
  cases tally <;> simp [expression, Expression.same]

instance (tally : Tally) (expression : Expression) : Decidable (expression = tally.expression) :=
  decidable_of_iff (tally.expression.same expression = true)
    ⟨eq_of_same, fun equal => equal ▸ tally.same_self⟩

def IsApart (target : Reference) : Tally → Prop
  | position => True
  | count pattern => pattern.IsPattern ∧ pattern.shared target ≤ 1

/-- What the tally comes to: the number of the parent, counted from one, or the number of
live nodes that the pattern denotes. -/
def amount? (tree : AnswerTree) (place : Reference) : Tally → Option Nat
  | position =>
      ((place.parent?.bind (·.lastMultiplicity?)).bind Multiplicity.position?).map (· + 1)
  | count pattern => some (tree.references.countP pattern.intersects)

def Regards (place read : Reference) : Tally → Prop
  | position => place.parent? = some read
  | count pattern => pattern.intersects read = true

def Shown (tally : Tally) (tree : AnswerTree) (place : Reference) : Prop :=
  ∃ amount, tally.amount? tree place = some amount ∧ ∃ node, tree.find? place = some node ∧
    Effect.calculate.Settled node.facts (.ok (.decimal (Float.ofNat amount)))

variable {tally : Tally} {tree other : AnswerTree} {place there read target : Reference}
  {rule : Rule}

theorem amount?_sameShape (shape : other.SameShape tree) :
    tally.amount? other place = tally.amount? tree place := by
  cases tally with
  | position => rfl
  | count pattern => rw [amount?, amount?, shape.references]

theorem Shown.congr (shown : tally.Shown tree place)
    (amount : tally.amount? other there = tally.amount? tree place)
    (type : other.held .type there = tree.held .type place)
    (answer : other.held .answer there = tree.held .answer place) : tally.Shown other there := by
  rcases shown with ⟨number, isAmount, settled⟩
  exact ⟨number, amount.trans isAmount, Engine.settled_congr type answer (.inl rfl) settled⟩

/-! Evaluation. -/

theorem evaluate_ok (numbered : tree.root.Numbered) (member : place ∈ tree.references)
    (apart : tally.IsApart target) {now : DateTime} {value : Value}
    (evaluated : Expression.evaluate now tree place tally.expression = .ok value) :
    ∃ amount, tally.amount? tree place = some amount ∧
      value = .decimal (Float.ofNat amount) := by
  rcases AnswerTree.isLive_of_mem numbered member with ⟨live, below, steps⟩
  cases tally with
  | position =>
      -- The only node that `..` denotes is the parent.
      rcases bind_eq_ok.mp evaluated with ⟨nodes, nearby, first⟩
      rw [Expression.nearby, Reference.anchor_up live.absolute (by simp [steps])] at nearby
      have above : ∀ step ∈ place.steps.dropLast, ∃ number, step.multiplicity = .index number :=
        fun step inAbove => live.indexed step ((List.dropLast_subset _) inAbove)
      have expanded := AnswerTree.expand_ok numbered rfl (fun step inAbove => by
        rcases above step inAbove with ⟨number, index⟩
        simp [index]) (mapError_eq_ok.mp nearby)
      cases nodes with
      | nil => cases first
      | cons parent rest =>
          have inFilter : parent ∈ tree.references.filter
              ((Reference.absolute place.steps.dropLast).intersects ·) := by simp [← expanded]
          rcases List.mem_filter.mp inFilter with ⟨inTree, overlap⟩
          rcases AnswerTree.isLive_of_mem numbered inTree with
            ⟨parentLive, parentBelow, parentSteps⟩
          have abovePlace : (Reference.absolute place.steps.dropLast).IsPlace :=
            Reference.IsLive.isPlace ⟨rfl, above⟩
          have isParent := abovePlace.eq_of_intersects parentLive.isPlace overlap
          have long : 1 < place.steps.length := by
            have lengths := congrArg (·.steps.length) isParent
            simp only [Reference.absolute, List.length_dropLast, parentSteps,
              List.length_cons] at lengths
            omega
          rw [Expression.firstPosition] at first
          split at first
          next number last =>
            cases first
            refine ⟨number + 1, ?_, rfl⟩
            rw [amount?, (Reference.parent?_eq_some live.absolute).mpr ⟨long, rfl⟩, isParent,
              Option.bind_some, last]
            rfl
          next => cases first
  | count pattern =>
      rcases bind_eq_ok.mp evaluated with ⟨nodes, everywhere, counted⟩
      have absolute : pattern.isAbsolute = true := by
        rw [Reference.isAbsolute, apart.1.absolute]
        rfl
      rw [Expression.everywhere, if_pos absolute] at everywhere
      have expanded := AnswerTree.expand_ok numbered apart.1.absolute apart.1.not_template
        (mapError_eq_ok.mp everywhere)
      cases counted
      exact ⟨_, rfl, by rw [List.countP_eq_length_filter, expanded]⟩

/-! What is regarded triggers the calculation, and is near. -/

theorem isTriggeredBy_of_regards (bound : rule.IsBound) (calculates : rule.effect = .calculate)
    (tallies : rule.expression = tally.expression) (apart : tally.IsApart rule.target)
    (absolute : place.origin = .absolute) (belongs : place.genericize = rule.target)
    (regards : tally.Regards place read) : rule.isTriggeredBy read = true := by
  have mentions := bound.mentions (by simp [calculates])
  rw [tallies] at mentions
  rw [bound.isTriggeredBy_iff]
  cases tally with
  | position =>
      rcases mentions _ List.mem_cons_self with ⟨anchored, isAnchored, trigger⟩
      rcases (Reference.parent?_eq_some absolute).mp regards with ⟨long, rfl⟩
      have nonempty : rule.target.steps ≠ [] := by
        rw [← belongs, ← List.length_pos_iff, Reference.genericize, List.length_map]
        omega
      rw [Reference.anchor_up bound.target.absolute nonempty] at isAnchored
      cases isAnchored
      have same : (Reference.absolute place.steps.dropLast).genericize =
          (Reference.absolute rule.target.steps.dropLast).genericize := by
        rw [← belongs, Reference.genericize_eq_iff]
        simp [Reference.absolute, Reference.genericize, Step.unbound, List.map_dropLast,
          Function.comp_def]
      rwa [same]
  | count pattern =>
      rcases mentions _ List.mem_cons_self with ⟨anchored, isAnchored, trigger⟩
      rcases Reference.exists_anchor_of_absolute apart.1.absolute rule.target with
        ⟨reference, found, same⟩
      rw [isAnchored] at found
      cases found
      rwa [apart.1.intersects_iff.mp regards, ← apart.1.genericize_eq, ← same]

theorem isNear_of_regards (numbered : tree.root.Numbered) (apart : tally.IsApart target)
    (member : place ∈ tree.references) (belongs : place.genericize = target)
    (readMember : read ∈ tree.references) (regards : tally.Regards place read) :
    read.IsNear place := by
  rcases AnswerTree.isLive_of_mem numbered member with ⟨live, below, steps⟩
  cases tally with
  | position =>
      rcases Reference.inside_of_parent? live.absolute regards with ⟨last, inside⟩
      exact Reference.near_of_inside inside
  | count pattern =>
      rcases AnswerTree.isLive_of_mem numbered readMember with ⟨readLive, readBelow, readSteps⟩
      have readSame : read.genericize = pattern.genericize := by
        rw [apart.1.intersects_iff.mp regards, apart.1.genericize_eq]
      have same : place.genericize = target.genericize := by
        rw [← belongs, (Reference.genericize_isPattern live.absolute).genericize_eq]
      refine Reference.isNear_of_shared_le_one readSteps steps ?_
      rw [Reference.shared_congr readSame same]
      exact apart.2

/-! Growth. -/

/-- In a tree that has grown by one member, a tally comes to the same at the counterpart of
a node, unless it regards a node of the new member, or one whose number has changed. -/
theorem amount?_move_or {gap : Gap} {small big : AnswerTree} (grows : small.Grows gap big)
    (apart : tally.IsApart target) (member : place ∈ small.references) :
    tally.amount? big (gap.move place) = tally.amount? small place ∨
      (∃ read ∈ big.references, (∃ below, read.steps = gap.member.steps ++ below) ∧
        tally.Regards (gap.move place) read) ∨
      ∃ number, gap.position ≤ number ∧ gap.sibling number ∈ small.references ∧
        tally.Regards place (gap.sibling number) := by
  have live := (AnswerTree.isLive_of_mem grows.smallNumbered member).1
  cases tally with
  | position =>
      rw [amount?, amount?, gap.parent?_move live.absolute]
      cases isParent : place.parent? with
      | none => exact .inl rfl
      | some parent =>
          have inSmall := AnswerTree.mem_references_of_parent? grows.smallNumbered member isParent
          have parentLive := (AnswerTree.isLive_of_mem grows.smallNumbered inSmall).1
          rcases Gap.lastMultiplicity?_move
            (grows.parent.absolute.trans parentLive.absolute.symm) with
            same | ⟨number, behind, rfl⟩
          · left
            rw [Option.map_some, Option.bind_some, Option.bind_some, same]
          · exact .inr (.inr ⟨number, behind, inSmall, isParent⟩)
  | count pattern =>
      by_cases new : ∃ read ∈ big.references, (∃ below, read.steps = gap.member.steps ++ below) ∧
          pattern.intersects read = true
      · exact .inr (.inl new)
      · left
        have counterparts : big.references.filter pattern.intersects =
            (small.references.filter pattern.intersects).map gap.move := by
          refine grows.filter_references (fun read _ => ?_) fun read inBig inside => ?_
          · rw [Bool.eq_iff_iff, apart.1.intersects_iff, apart.1.intersects_iff,
              Gap.genericize_move]
          · rw [← Bool.not_eq_true]
            exact fun overlap => new ⟨read, inBig, inside, overlap⟩
        rw [amount?, amount?, List.countP_eq_length_filter, counterparts, List.length_map,
          List.countP_eq_length_filter]

end Tally

end ReactiveForm
