import ReactiveForm.Proofs.FiringOrder
import ReactiveForm.Proofs.Firing

/-! The indexes of a rulebook. A rule is entered unless one like it is there already, and
its number is filed under what it acts on and under all that it reads. Whoever looks a node
up in an index finds the numbers that a look at every single rule would find. For this it
has to be known that being the same is an equivalence, of values and of all that is made of
them. -/

namespace ReactiveForm

/-! Expressions that are the same. -/

namespace Expression

mutual

theorem same_congr : ∀ (left : Expression) {right : Expression}, left.same right = true →
    ∀ other : Expression, left.same other = right.same other
  | .literal left, right, isSame, other => by
      cases right with
      | literal right =>
          cases other with
          | literal other => exact Value.same_congr isSame other
          | _ => rfl
      | _ => cases isSame
  | .answer _, right, isSame, other => by
      cases right with
      | answer => rw [eq_of_beq isSame]
      | _ => cases isSame
  | .position _, right, isSame, other => by
      cases right with
      | position => rw [eq_of_beq isSame]
      | _ => cases isSame
  | .count _, right, isSame, other => by
      cases right with
      | count => rw [eq_of_beq isSame]
      | _ => cases isSame
  | .sum _, right, isSame, other => by
      cases right with
      | sum => rw [eq_of_beq isSame]
      | _ => cases isSame
  | .now, right, isSame, other => by
      cases right with
      | now => rfl
      | _ => cases isSame
  | .today, right, isSame, other => by
      cases right with
      | today => rfl
      | _ => cases isSame
  | .binary operator first second, right, isSame, other => by
      cases right with
      | binary =>
          simp only [same, Bool.and_eq_true, beq_iff_eq] at isSame
          rcases isSame with ⟨⟨rfl, sameFirst⟩, sameSecond⟩
          cases other with
          | binary => rw [same, same, same_congr first sameFirst, same_congr second sameSecond]
          | _ => rfl
      | _ => cases isSame
  | .not operand, right, isSame, other => by
      cases right with
      | not =>
          cases other with
          | not other => exact same_congr operand isSame other
          | _ => rfl
      | _ => cases isSame
  | .choose condition yes no, right, isSame, other => by
      cases right with
      | choose =>
          simp only [same, Bool.and_eq_true] at isSame
          rcases isSame with ⟨⟨sameCondition, sameYes⟩, sameNo⟩
          cases other with
          | choose =>
              rw [same, same, same_congr condition sameCondition, same_congr yes sameYes,
                same_congr no sameNo]
          | _ => rfl
      | _ => cases isSame
  | .concat parts, right, isSame, other => by
      cases right with
      | concat =>
          cases other with
          | concat others => exact allSame_congr parts isSame others
          | _ => rfl
      | _ => cases isSame

theorem allSame_congr : ∀ (lefts : List Expression) {rights : List Expression},
    same.allSame lefts rights = true →
    ∀ others, same.allSame lefts others = same.allSame rights others
  | [], [], _, _ => rfl
  | [], _ :: _, areSame, _ => nomatch areSame
  | _ :: _, [], areSame, _ => nomatch areSame
  | _ :: _, _ :: _, _, [] => rfl
  | left :: lefts, right :: rights, areSame, other :: others => by
      simp only [same.allSame, Bool.and_eq_true] at areSame
      rw [same.allSame, same.allSame, same_congr left areSame.1, allSame_congr lefts areSame.2]

end

mutual

theorem same_refl : ∀ expression : Expression, expression.same expression = true
  | .literal value => value.same_self
  | .answer _ | .position _ | .count _ | .sum _ => beq_self_eq_true _
  | .now | .today => rfl
  | .binary operator left right => by
      rw [same, same_refl left, same_refl right, beq_self_eq_true]
      rfl
  | .not operand => same_refl operand
  | .choose condition yes no => by
      rw [same, same_refl condition, same_refl yes, same_refl no]
      rfl
  | .concat parts => allSame_refl parts

theorem allSame_refl : ∀ parts : List Expression, same.allSame parts parts = true
  | [] => rfl
  | part :: rest => by
      rw [same.allSame, same_refl part, allSame_refl rest]
      rfl

end

end Expression

/-! Rules that are the same. -/

namespace Rule

theorem same_refl (rule : Rule) : rule.same rule = true := by
  simp only [same, beq_self_eq_true, Expression.same_refl, Bool.and_self]

theorem same_congr {left right : Rule} (isSame : left.same right = true) (other : Rule) :
    left.same other = right.same other := by
  simp only [same, Bool.and_eq_true, beq_iff_eq] at isSame
  rcases isSame with ⟨⟨⟨effect, expression⟩, target⟩, triggers⟩
  rw [same, same, effect, Expression.same_congr _ expression, target, triggers]

theorem same_symm {left right : Rule} (isSame : left.same right = true) :
    right.same left = true := by
  rw [← same_congr isSame]
  exact left.same_refl

theorem same_comm (left right : Rule) : left.same right = right.same left := by
  rw [Bool.eq_iff_iff]
  exact ⟨same_symm, same_symm⟩

end Rule

/-! Looking things up. -/

theorem Register.filed_file (register : Register) (reference : Reference) (number : Nat)
    (other : Reference) : (register.file reference number).filed other =
      if other = reference then register.filed other ++ [number] else register.filed other := by
  induction register with
  | nil =>
      by_cases same : other = reference
      · simp [file, filed, same]
      · simp [file, filed, same, Ne.symm same]
  | cons entry rest induction =>
      rcases entry with ⟨here, numbers⟩
      have consFiled (numbers : List Nat) (rest : Register) :
          filed ((here, numbers) :: rest) other =
            if here = other then numbers else filed rest other := by
        rw [filed, List.find?_cons]
        by_cases found : here = other
        · simp [found]
        · rw [if_neg found, beq_false_of_ne found]
          rfl
      rw [file]
      split
      next same =>
        rw [consFiled, consFiled, same]
        by_cases found : reference = other
        · rw [if_pos found, if_pos found, if_pos found.symm]
        · rw [if_neg found, if_neg found, if_neg (Ne.symm found)]
      next apart =>
        rw [consFiled, consFiled, induction]
        by_cases found : here = other
        · rw [if_pos found, if_pos found, if_neg (found ▸ apart)]
        · rw [if_neg found, if_neg found]

namespace Rulebook

variable {book : Rulebook} {number : Nat} {rule stored : Rule} {holds : Rule → Bool}

/-- The numbers of the rules of which something holds, found by looking at every rule. -/
def scan (book : Rulebook) (holds : Rule → Bool) : List Nat :=
  book.numbers.filter fun number => (book.rule? number).any holds

theorem mem_scan : number ∈ book.scan holds ↔
    ∃ rule, book.rule? number = some rule ∧ holds rule = true := by
  rw [scan, List.mem_filter, Option.any_eq_true, and_iff_right_of_imp]
  rintro ⟨rule, entered, -⟩
  exact List.mem_range.mpr (rule?_eq_some_lt entered)

theorem scan_pairwise (book : Rulebook) (holds : Rule → Bool) :
    (book.scan holds).Pairwise (· < ·) :=
  List.Pairwise.filter _ List.pairwise_lt_range

theorem scan_append {longer : Rulebook} (rules : longer.rules = book.rules ++ [rule])
    (holds : Rule → Bool) :
    longer.scan holds = book.scan holds ++ if holds rule = true then [book.size] else [] := by
  have size : longer.size = book.size + 1 := by rw [Rulebook.size, rules, List.length_append]; rfl
  have last : longer.rule? book.size = some rule := by
    rw [rule?, rules, Rulebook.size, List.getElem?_concat_length]
  have earlier : ∀ number ∈ book.numbers, longer.rule? number = book.rule? number := by
    intro number member
    rw [rule?, rules, List.getElem?_append_left (List.mem_range.mp member)]
    rfl
  have same : book.numbers.filter (fun number => (longer.rule? number).any holds) =
      book.scan holds := List.filter_congr fun number member => by rw [earlier number member]
  rw [scan, numbers, size, List.range_succ, List.filter_append, ← numbers, same,
    List.filter_singleton, last, Option.any_some]
  cases holds rule <;> rfl

/-- The rules of a book are all different, and both indexes agree with a look at every
rule. -/
structure IsConsistent (book : Rulebook) : Prop where
  distinct : book.rules.Pairwise fun earlier later => earlier.same later = false
  indexed : book.IsIndexed
  filed : ∀ reference, book.byTarget.filed reference = book.scan (·.target == reference)

theorem IsConsistent.number_eq (consistent : book.IsConsistent)
    (entered : book.rule? number = some stored) (isSame : stored.same rule = true) {next : Nat}
    {other : Rule} (enteredToo : book.rule? next = some other) (isSameToo : other.same rule = true) :
    number = next := by
  rcases List.getElem?_eq_some_iff.mp entered with ⟨inRange, rfl⟩
  rcases List.getElem?_eq_some_iff.mp enteredToo with ⟨inRangeToo, rfl⟩
  have both : (book.rules[number]).same book.rules[next] = true := by
    rw [Rule.same_congr isSame, Rule.same_comm]
    exact isSameToo
  have apart := List.pairwise_iff_getElem.mp consistent.distinct
  rcases Nat.lt_trichotomy number next with before | same | behind
  · exact absurd both (by simp [apart number next inRange inRangeToo before])
  · exact same
  · exact absurd (Rule.same_symm both) (by simp [apart next number inRangeToo inRange behind])

theorem IsConsistent.enter_known (consistent : book.IsConsistent)
    (entered : book.rule? number = some stored) (isSame : stored.same rule = true) :
    book.enter rule = (book, number) := by
  rw [enter]
  split
  next next found =>
    rcases List.findIdx?_eq_some_iff_getElem.mp found with ⟨inRange, here, -⟩
    rw [consistent.number_eq entered isSame (List.getElem?_eq_getElem inRange) here]
  next missing =>
    have apart := List.findIdx?_eq_none_iff.mp missing stored (List.mem_of_getElem? entered)
    exact absurd isSame (by simp [apart])

theorem enter_new (book : Rulebook) (fresh : ∀ stored ∈ book.rules, stored.same rule = false) :
    (book.enter rule).2 = book.size ∧ (book.enter rule).1.rules = book.rules ++ [rule] ∧
      (book.enter rule).1.byTarget = book.byTarget.file rule.target book.size := by
  rw [enter, List.findIdx?_eq_none_iff.mpr fresh]
  exact ⟨rfl, rfl, rfl⟩

theorem IsConsistent.enter (consistent : book.IsConsistent) (rule : Rule) :
    (book.enter rule).1.IsConsistent := by
  by_cases known : ∃ stored ∈ book.rules, stored.same rule = true
  · rcases known with ⟨stored, member, isSame⟩
    rcases List.getElem?_of_mem member with ⟨number, entered⟩
    rw [consistent.enter_known entered isSame]
    exact consistent
  · have fresh : ∀ stored ∈ book.rules, stored.same rule = false :=
      fun stored member => Bool.eq_false_iff.mpr fun isSame => known ⟨stored, member, isSame⟩
    rcases book.enter_new fresh with ⟨-, rules, byTarget⟩
    refine ⟨?_, enter_isIndexed consistent.indexed rule, fun reference => ?_⟩
    · rw [rules, List.pairwise_append]
      exact ⟨consistent.distinct, List.pairwise_singleton _ _,
        fun stored member other isLast => List.mem_singleton.mp isLast ▸ fresh stored member⟩
    · rw [byTarget, Register.filed_file, scan_append rules, consistent.filed]
      by_cases same : reference = rule.target
      · simp [same]
      · simp [same, Ne.symm same]

theorem ofRules_isConsistent (rules : List Rule) : (ofRules rules).IsConsistent := by
  have folded : ∀ (rules : List Rule) (book : Rulebook), book.IsConsistent →
      (rules.foldl (fun book rule => (book.enter rule).1) book).IsConsistent := by
    intro rules
    induction rules with
    | nil => exact fun _ consistent => consistent
    | cons rule rules induction =>
        exact fun book consistent => induction _ (consistent.enter rule)
  exact folded rules empty ⟨.nil, ofRules_isIndexed [], fun _ => rfl⟩

theorem triggeredBy_pairwise (book : Rulebook) (reference : Reference) :
    (book.triggeredBy reference).Pairwise (· < ·) :=
  ascending_pairwise _

theorem IsConsistent.triggeredBy_eq (consistent : book.IsConsistent) (reference : Reference) :
    book.triggeredBy reference = book.scan (·.isTriggeredBy reference) := by
  refine (book.triggeredBy_pairwise reference).eq_of_mem_iff (book.scan_pairwise _) fun number => ?_
  rw [mem_triggeredBy consistent.indexed, mem_scan]

/-- Whatever rules have been entered, no two rules of the book are the same. A rule that is
the same as one of them has the number of that one, and entering it changes nothing; any
other gets the next number, and those before it keep theirs. And for every reference, the
rules that read what it can denote, and those that act on its series, are found as if every
rule had been looked at, in ascending order. -/
theorem ofRules_scans (rules : List Rule) :
    ((ofRules rules).rules.Pairwise fun earlier later =>
      earlier.same later = false ∧ later.same earlier = false) ∧
    (∀ rule number stored, (ofRules rules).rule? number = some stored →
      stored.same rule = true → (ofRules rules).enter rule = (ofRules rules, number)) ∧
    (∀ rule, (∀ stored ∈ (ofRules rules).rules, stored.same rule = false) →
      ((ofRules rules).enter rule).2 = (ofRules rules).size ∧
      ((ofRules rules).enter rule).1.rule? (ofRules rules).size = some rule ∧
      ∀ number < (ofRules rules).size,
        ((ofRules rules).enter rule).1.rule? number = (ofRules rules).rule? number) ∧
    ∀ reference,
      (ofRules rules).triggeredBy reference =
        (ofRules rules).scan (·.isTriggeredBy reference) ∧
      (ofRules rules).targeting reference =
        (ofRules rules).scan (·.target == reference.genericize) := by
  have consistent := ofRules_isConsistent rules
  generalize ofRules rules = book at consistent
  refine ⟨consistent.distinct.imp fun apart => ⟨apart, Rule.same_comm _ _ ▸ apart⟩,
    fun rule number stored => consistent.enter_known, fun rule fresh => ?_,
    fun reference => ⟨consistent.triggeredBy_eq reference, consistent.filed _⟩⟩
  rcases book.enter_new fresh with ⟨number, entered, -⟩
  refine ⟨number, ?_, fun earlier before => ?_⟩
  · rw [rule?, entered, size, List.getElem?_concat_length]
  · rw [rule?, entered, List.getElem?_append_left before]
    rfl

end Rulebook

/-! The bill with a discount that was stored for its first two items. -/

namespace Bill

def price (item : Multiplicity) : Reference :=
  .absolute [.unbound "data", ⟨"item", item⟩, .unbound "price"]

def discount : Rule :=
  ⟨.calculate, .binary .sub (.answer (price (.index 0))) (.answer (price (.index 1))),
    line "discount", [price (.index 0), price (.index 1)]⟩

def entered : List Rule := rules ++ [discount, discount]

end Bill

/-- A discount that is entered once more has the number that it had at first, and whoever asks
what reads the prices of the items finds it once. -/
theorem bill_scans :
    (Rulebook.ofRules Bill.entered).enter Bill.discount = (.ofRules Bill.entered, 4) ∧
    (Rulebook.ofRules Bill.entered).triggeredBy (Bill.price .unbound) = [4] ∧
    (Rulebook.ofRules Bill.entered).triggeredBy (Bill.line "total") = [0, 1] ∧
    (Rulebook.ofRules Bill.entered).targeting (.absolute [⟨"data", .index 0⟩, .unbound "due"]) =
      [0] := by
  have discount : ((Rulebook.ofRules Bill.entered).rule? 4).any
      (·.same Bill.discount) = true := by
    decide +kernel
  rcases (Option.any_eq_true _ _).mp discount with ⟨stored, discount, isSame⟩
  rcases Rulebook.ofRules_scans Bill.entered with ⟨-, known, -, found⟩
  refine ⟨known _ 4 stored discount isSame, ?_, ?_, ?_⟩
  · rw [(found _).1]
    decide +kernel
  · rw [(found _).1]
    decide +kernel
  · rw [(found _).2]
    decide +kernel

end ReactiveForm
