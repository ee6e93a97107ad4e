import Mathlib.Data.List.Forall2
import ReactiveForm.Proofs.DependencyOrder
import ReactiveForm.Proofs.Reading

/-! The rules of a form: what binding a rule makes sure of, and how the rules that
read a node are found. -/

namespace ReactiveForm

/-! Lists that are built step by step. -/

theorem mem_insertAscending {α : Type} {order : α → α → Ordering}
    (lawful : ∀ left right, order left right = .eq → left = right) {member other : α}
    {list : List α} : other ∈ insertAscending order member list ↔ other = member ∨ other ∈ list := by
  induction list with
  | nil => simp [insertAscending]
  | cons head tail induction =>
      rw [insertAscending]
      split
      next => simp
      next same => simp [lawful member head same]
      next => rw [List.mem_cons, induction, List.mem_cons, or_left_comm]

theorem mem_ascending {α : Type} {order : α → α → Ordering}
    (lawful : ∀ left right, order left right = .eq → left = right) {other : α} {list : List α} :
    other ∈ ascending order list ↔ other ∈ list := by
  induction list with
  | nil => simp [ascending]
  | cons head tail induction =>
      rw [ascending, mem_insertAscending lawful, induction, List.mem_cons]

section Ascending

variable {α : Type} {order : α → α → Ordering} {member : α} {members : List α}

def IsAscending (order : α → α → Ordering) (members : List α) : Prop :=
  members.IsChain fun left right => order left right = .lt

theorem IsAscending.insert (swap : ∀ left right, order left right = .gt → order right left = .lt)
    (isAscending : IsAscending order members) :
    IsAscending order (insertAscending order member members) := by
  rw [IsAscending] at isAscending ⊢
  induction members with
  | nil => exact .singleton _
  | cons head tail induction =>
      rw [insertAscending]
      split
      next less => exact isAscending.cons_cons less
      next => exact isAscending
      next greater =>
        have before : order head member = .lt := swap _ _ greater
        cases tail with
        | nil => exact (List.IsChain.singleton _).cons_cons before
        | cons next tail =>
            rw [List.isChain_cons_cons] at isAscending
            have later := induction isAscending.2
            rw [insertAscending] at later ⊢
            generalize order member next = place at later ⊢
            cases place with
            | lt => exact later.cons_cons before
            | eq => exact later.cons_cons isAscending.1
            | gt => exact later.cons_cons isAscending.1

theorem ascending_isAscending
    (swap : ∀ left right, order left right = .gt → order right left = .lt) (members : List α) :
    IsAscending order (ascending order members) := by
  induction members with
  | nil => exact .nil
  | cons member members induction => exact induction.insert swap

theorem ascending_compare (numbers : List Nat) :
    IsAscending compare (ascending compare numbers) := by
  refine ascending_isAscending (fun left right greater => ?_) numbers
  exact Nat.compare_eq_lt.mpr (Nat.compare_eq_gt.mp greater)

theorem ascending_pairwise (numbers : List Nat) :
    (ascending compare numbers).Pairwise (· < ·) := by
  have ascends := ascending_compare numbers
  rw [IsAscending] at ascends
  simp only [Nat.compare_eq_lt] at ascends
  exact List.isChain_iff_pairwise.mp ascends

theorem IsAscending.ascending_eq (isAscending : IsAscending order members) :
    ascending order members = members := by
  rw [IsAscending] at isAscending
  induction members with
  | nil => rfl
  | cons head tail induction =>
      cases tail with
      | nil => rfl
      | cons next tail =>
          rw [List.isChain_cons_cons] at isAscending
          rw [ascending, induction isAscending.2, insertAscending, isAscending.1]

end Ascending

namespace Reference

theorem eq_of_order {left right : Reference} (same : order left right = .eq) : left = right := by
  have multiplicities : ∀ {left right : Multiplicity}, Multiplicity.order left right = .eq →
      left = right := by
    intro left right same
    cases left <;> cases right <;> simp_all [Multiplicity.order]
  have steps : ∀ {lefts rights : List Step}, orderSteps lefts rights = .eq → lefts = rights := by
    intro lefts
    induction lefts with
    | nil =>
        intro rights same
        cases rights with
        | nil => rfl
        | cons _ _ => cases same
    | cons left lefts induction =>
        intro rights same
        cases rights with
        | nil => cases same
        | cons right rights =>
            simp only [orderSteps, Step.order, Ordering.then_eq_eq] at same
            rcases same with ⟨⟨name, multiplicity⟩, below⟩
            have first : left = right := by
              cases left
              cases right
              exact Step.mk.injEq .. ▸
                ⟨Std.LawfulEqCmp.eq_of_compare name, multiplicities multiplicity⟩
            rw [first, induction below]
  rw [order, Ordering.then_eq_eq] at same
  rcases same with ⟨origin, stepsSame⟩
  have origins : left.origin = right.origin := by
    revert origin
    cases left.origin <;> cases right.origin <;> simp [Origin.order]
  cases left
  cases right
  exact Reference.mk.injEq .. ▸ ⟨origins, steps stepsSame⟩

end Reference

/-! Binding. -/

namespace Rule

/-- What binding makes sure of: the target and the triggers are patterns, and a
rule that does not set a value on an occasion has all that it reads among its
triggers. -/
structure IsBound (rule : Rule) : Prop where
  target : rule.target.IsPattern
  triggers : ∀ trigger ∈ rule.triggers, trigger.IsPattern
  mentions : (∀ occasion, rule.effect ≠ .setValue occasion) →
    ∀ mention ∈ rule.expression.mentions, ∃ anchored,
      mention.anchor rule.target = .ok anchored ∧ anchored.genericize ∈ rule.triggers

theorem mem_referenceSet {references : List Reference} {reference : Reference} :
    reference ∈ referenceSet references ↔ reference ∈ references :=
  mem_ascending fun _ _ => Reference.eq_of_order

theorem patternsRead_ok {expression : Expression} {target : Reference} {patterns : List Reference}
    (found : patternsRead expression target = .ok patterns) :
    (∀ pattern ∈ patterns, pattern.IsPattern) ∧
      ∀ mention ∈ expression.mentions, ∃ anchored,
        mention.anchor target = .ok anchored ∧ anchored.genericize ∈ patterns := by
  have each := forall₂_of_mapM_ok found
  constructor
  · intro pattern member
    rcases exists_of_forall₂ each.flip member with ⟨mention, -, mapped⟩
    rcases map_eq_ok.mp mapped with ⟨anchored, found, rfl⟩
    exact Reference.genericize_isPattern (Reference.anchor_origin found)
  · intro mention member
    rcases exists_of_forall₂ each (List.mem_eraseDups.mpr member) with ⟨pattern, inPatterns, mapped⟩
    rcases map_eq_ok.mp mapped with ⟨anchored, found, rfl⟩
    exact ⟨anchored, found, inPatterns⟩

theorem bind_isBound {effect : Effect} {expression : Expression} {target : Reference} {rule : Rule}
    (bound : Rule.bind effect expression target = .ok rule) : rule.IsBound := by
  rw [Rule.bind] at bound
  split at bound
  · cases bound
  next absolute =>
    have isPattern : target.genericize.IsPattern :=
      Reference.genericize_isPattern (by simpa [Reference.isAbsolute] using absolute)
    split at bound
    next =>
      cases bound
      exact ⟨isPattern, by simp, fun other => absurd rfl (other .firstLoad)⟩
    next source =>
      rcases bind_eq_ok.mp bound with ⟨reference, anchored, bound⟩
      cases bound
      refine ⟨isPattern, ?_, fun other => absurd rfl (other (.valueChanged _))⟩
      simpa using Reference.genericize_isPattern (Reference.anchor_origin anchored)
    next =>
      rcases bind_eq_ok.mp bound with ⟨found, patterns, bound⟩
      cases bound
      rcases patternsRead_ok patterns with ⟨arePatterns, covered⟩
      refine ⟨isPattern, fun trigger member => arePatterns trigger (mem_referenceSet.mp member),
        fun _ mention member => ?_⟩
      rcases covered mention member with ⟨anchored, found, inPatterns⟩
      exact ⟨anchored, found, mem_referenceSet.mpr inPatterns⟩

def IsMade (rule : Rule) : Prop :=
  ∃ effect expression target, Rule.bind effect expression target = .ok rule

theorem IsMade.isBound {rule : Rule} (made : rule.IsMade) : rule.IsBound := by
  rcases made with ⟨effect, expression, target, bound⟩
  exact bind_isBound bound

section Bound

variable {rule : Rule}

theorem IsBound.isTriggeredBy_iff (bound : rule.IsBound) {reference : Reference} :
    rule.isTriggeredBy reference = true ↔ reference.genericize ∈ rule.triggers := by
  rw [isTriggeredBy, List.any_eq_true]
  constructor
  · rintro ⟨trigger, member, overlap⟩
    rwa [((bound.triggers trigger member).intersects_iff).mp overlap]
  · intro member
    exact ⟨_, member, ((bound.triggers _ member).intersects_iff).mpr rfl⟩

theorem IsBound.isTriggeredBy_congr (bound : rule.IsBound) {left right : Reference}
    (same : left.genericize = right.genericize) :
    rule.isTriggeredBy left = rule.isTriggeredBy right := by
  rw [Bool.eq_iff_iff, bound.isTriggeredBy_iff, bound.isTriggeredBy_iff, same]

theorem IsBound.isTriggeredBy_of_reads (bound : rule.IsBound)
    (unasked : ∀ occasion, rule.effect ≠ .setValue occasion) {tree : AnswerTree}
    {context place : Reference} (target : context.genericize = rule.target)
    (reads : rule.expression.Reads tree context place) : rule.isTriggeredBy place = true := by
  rcases reads.exists_sees with ⟨look, member, sees⟩
  have generic : context.genericize = rule.target.genericize := by
    rw [target, bound.target.genericize_eq]
  rcases sees.exists_anchor generic with ⟨anchored, found, same⟩
  have mentioned : look.reference ∈ rule.expression.mentions := by
    rw [Expression.mentions_eq_looks]
    exact List.mem_map_of_mem member
  rcases bound.mentions unasked _ mentioned with ⟨anchored', found', trigger⟩
  rw [found] at found'
  cases found'
  rw [bound.isTriggeredBy_iff, ← same]
  exact trigger

theorem IsBound.feeds_of_isTriggeredBy {other : Rule} (bound : rule.IsBound) {place : Reference}
    (target : place.genericize = other.target) (triggered : rule.isTriggeredBy place = true) :
    ∃ trigger ∈ rule.triggers, other.feeds trigger = true := by
  have member := bound.isTriggeredBy_iff.mp triggered
  have isPattern := bound.triggers _ member
  refine ⟨place.genericize, member, ?_⟩
  rw [feeds, Bool.or_eq_true, Reference.intersects_comm, isPattern.intersects_iff, ← target]
  exact .inl isPattern.genericize_eq

end Bound

end Rule

/-! Finding rules. -/

namespace Register

def Files (register : Register) (reference : Reference) (number : Nat) : Prop :=
  ∃ numbers, (reference, numbers) ∈ register ∧ number ∈ numbers

theorem files_file {register : Register} {reference other : Reference} {number next : Nat} :
    (file reference number register).Files other next ↔
      register.Files other next ∨ (other = reference ∧ next = number) := by
  induction register with
  | nil => simp [file, Files, and_comm]
  | cons entry rest induction =>
      rcases entry with ⟨here, numbers⟩
      have consFiles : ∀ (numbers : List Nat) (rest : Register),
          Files ((here, numbers) :: rest) other next ↔
            (other = here ∧ next ∈ numbers) ∨ rest.Files other next := by
        intro numbers rest
        simp only [Files, List.mem_cons, Prod.mk.injEq, or_and_right, exists_or]
        simp
      rw [file]
      split
      next same =>
        rw [consFiles, consFiles, List.mem_append, List.mem_singleton, same]
        rw [and_or_left, or_assoc, or_assoc, or_comm (a := other = reference ∧ next = number)]
      next => rw [consFiles, consFiles, induction, or_assoc]

theorem mem_intersecting {register : Register} {reference : Reference} {number : Nat} :
    number ∈ register.intersecting reference ↔
      ∃ other, register.Files other number ∧ other.intersects reference = true := by
  rw [intersecting, mem_ascending fun _ _ => Std.LawfulEqCmp.eq_of_compare, List.mem_flatMap]
  constructor
  · rintro ⟨⟨other, numbers⟩, found, member⟩
    rcases List.mem_filter.mp found with ⟨inRegister, overlap⟩
    exact ⟨other, ⟨numbers, inRegister, member⟩, overlap⟩
  · rintro ⟨other, ⟨numbers, inRegister, member⟩, overlap⟩
    exact ⟨(other, numbers), List.mem_filter.mpr ⟨inRegister, overlap⟩, member⟩

theorem files_foldl {triggers : List Reference} {number : Nat} {register : Register}
    {other : Reference} {next : Nat} :
    (triggers.foldl (fun register trigger => register.file trigger number) register).Files
        other next ↔
      register.Files other next ∨ (other ∈ triggers ∧ next = number) := by
  induction triggers generalizing register with
  | nil => simp
  | cons trigger triggers induction =>
      rw [List.foldl_cons, induction, files_file, List.mem_cons, or_and_right, or_assoc]

end Register

namespace Rulebook

def IsIndexed (book : Rulebook) : Prop :=
  ∀ trigger number, book.byTrigger.Files trigger number ↔
    ∃ rule, book.rule? number = some rule ∧ trigger ∈ rule.triggers

theorem enter_isIndexed {book : Rulebook} (indexed : book.IsIndexed) (rule : Rule) :
    (book.enter rule).1.IsIndexed := by
  rw [enter]
  split
  · exact indexed
  · intro trigger number
    simp only [Register.files_foldl, indexed trigger number, rule?, size]
    rcases Nat.lt_trichotomy number book.rules.length with less | equal | greater
    · rw [List.getElem?_append_left less]
      simp [Nat.ne_of_lt less]
    · subst equal
      simp
    · have beyond : (book.rules ++ [rule]).length ≤ number := by
        rw [List.length_append]
        exact greater
      rw [List.getElem?_eq_none beyond, List.getElem?_eq_none (Nat.le_of_lt greater)]
      simp [Nat.ne_of_gt greater]

theorem enter_subset (book : Rulebook) (rule : Rule) :
    ∀ other ∈ (book.enter rule).1.rules, other ∈ book.rules ∨ other = rule := by
  intro other member
  rw [enter] at member
  split at member
  · exact .inl member
  · simpa using member

theorem ofRules_isIndexed (rules : List Rule) : (ofRules rules).IsIndexed := by
  have folded : ∀ (rules : List Rule) (book : Rulebook), book.IsIndexed →
      (rules.foldl (fun book rule => (book.enter rule).1) book).IsIndexed := by
    intro rules
    induction rules with
    | nil => exact fun _ indexed => indexed
    | cons rule rules induction =>
        exact fun book indexed => induction _ (enter_isIndexed indexed rule)
  refine folded rules empty fun trigger number => ?_
  simp [Register.Files, empty, rule?]

theorem mem_of_mem_ofRules {rules : List Rule} {rule : Rule}
    (member : rule ∈ (ofRules rules).rules) : rule ∈ rules := by
  have folded : ∀ (rules : List Rule) (book : Rulebook),
      rule ∈ (rules.foldl (fun book rule => (book.enter rule).1) book).rules →
      rule ∈ book.rules ∨ rule ∈ rules := by
    intro rules
    induction rules with
    | nil => exact fun _ member => .inl member
    | cons first rules induction =>
        intro book member
        rcases induction _ member with entered | later
        · exact (enter_subset book first rule entered).imp_right fun equal => by simp [equal]
        · exact .inr (List.mem_cons_of_mem _ later)
  simpa [empty] using folded rules empty member

theorem mem_triggeredBy {book : Rulebook} (indexed : book.IsIndexed) {reference : Reference}
    {number : Nat} : number ∈ book.triggeredBy reference ↔
      ∃ rule, book.rule? number = some rule ∧ rule.isTriggeredBy reference = true := by
  simp only [triggeredBy, Register.mem_intersecting, indexed _ _, Rule.isTriggeredBy,
    List.any_eq_true]
  constructor
  · rintro ⟨trigger, ⟨rule, found, member⟩, overlap⟩
    exact ⟨rule, found, trigger, member, overlap⟩
  · rintro ⟨rule, found, trigger, member, overlap⟩
    exact ⟨trigger, ⟨rule, found, member⟩, overlap⟩

end Rulebook

end ReactiveForm
