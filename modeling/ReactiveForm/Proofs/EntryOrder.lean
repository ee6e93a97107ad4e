import Mathlib.Data.Multiset.AddSub
import ReactiveForm.Proofs.Filling

/-! The order of entry. Two books of the same rules have the same circles, and a
tree that is filled in by one looks as if filled in by the other: rules that stand
in different orders in the two have no edge between them, so that each can do its
work before the other. -/

namespace ReactiveForm

/-- Steps that may stand in either order can be taken in either order. Lists of
the same steps come to the same if each is in an order in which its steps may
stand. -/
theorem foldl_eq_of_perm {α β : Type} {step : β → α → β} {precedes : α → α → Prop}
    {left right : List α} (perm : left.Perm right)
    (commute : ∀ first ∈ left, ∀ second ∈ left, precedes first second → precedes second first →
      ∀ state, step (step state first) second = step (step state second) first)
    (ordered : left.Pairwise precedes) (orderedToo : right.Pairwise precedes) (state : β) :
    left.foldl step state = right.foldl step state := by
  induction left generalizing right state with
  | nil => rw [perm.nil_eq]
  | cons head tail induction =>
      rcases List.append_of_mem (perm.subset List.mem_cons_self) with ⟨front, back, rfl⟩
      rcases List.pairwise_cons.mp ordered with ⟨ahead, ordered⟩
      have rest : tail.Perm (front ++ back) := (perm.trans List.perm_middle).cons_inv
      -- All that stands before the head on the right stands behind it on the left.
      have moved : step (front.foldl step state) head = front.foldl step (step state head) := by
        refine foldl_comm (step · head) (fun other inFront state => ?_) state
        have inTail := rest.symm.subset (List.mem_append_left back inFront)
        have behind := (List.pairwise_append.mp orderedToo).2.2 other inFront head
          List.mem_cons_self
        exact (commute head List.mem_cons_self other (.tail _ inTail) (ahead other inTail) behind
          state).symm
      rw [List.foldl_append, List.foldl_cons, List.foldl_cons, moved, ← List.foldl_append]
      refine induction rest (fun first isFirst second isSecond => ?_) ordered ?_ (step state head)
      · exact commute first (.tail _ isFirst) second (.tail _ isSecond)
      · exact orderedToo.sublist ((List.sublist_cons_self head back).append_left front)

/-! Circles of rules. -/

def Rule.FeedsAmong (rules : List Rule) (rule other : Rule) : Prop :=
  rule ∈ rules ∧ other ∈ rules ∧ rule.IsReadBy other ∧
    (rule = other → rule.effect.writesAnswer = true)

namespace Rulebook

variable {book : Rulebook} {number next : Nat} {rule other : Rule}

theorem rule?_inj (distinct : book.rules.Nodup) (entered : book.rule? number = some rule)
    (enteredToo : book.rule? next = some rule) : number = next := by
  rcases List.getElem?_eq_some_iff.mp entered with ⟨inRange, found⟩
  rcases List.getElem?_eq_some_iff.mp enteredToo with ⟨otherInRange, foundToo⟩
  exact distinct.getElem_inj_iff.mp (found.trans foundToo.symm)

theorem Feeds.feedsAmong (distinct : book.rules.Nodup) (feeds : book.Feeds number next) :
    ∃ rule other, book.rule? number = some rule ∧ book.rule? next = some other ∧
      rule.FeedsAmong book.rules other := by
  rcases feeds with ⟨rule, other, entered, enteredToo, reads, own⟩
  refine ⟨rule, other, entered, enteredToo, List.mem_of_getElem? entered,
    List.mem_of_getElem? enteredToo, reads, fun same => own ?_⟩
  exact rule?_inj distinct entered (same ▸ enteredToo)

theorem transGen_feedsAmong (distinct : book.rules.Nodup)
    (path : Relation.TransGen book.Feeds number next) :
    ∃ rule other, book.rule? number = some rule ∧ book.rule? next = some other ∧
      Relation.TransGen (Rule.FeedsAmong book.rules) rule other := by
  induction path with
  | single feeds =>
      rcases feeds.feedsAmong distinct with ⟨rule, other, entered, enteredToo, feeds⟩
      exact ⟨rule, other, entered, enteredToo, .single feeds⟩
  | tail _ feeds induction =>
      rcases induction with ⟨rule, other, entered, enteredToo, path⟩
      rcases feeds.feedsAmong distinct with ⟨between, last, isBetween, isLast, feeds⟩
      rw [enteredToo] at isBetween
      cases isBetween
      exact ⟨rule, last, entered, isLast, path.tail feeds⟩

theorem exists_feeds (entered : book.rule? number = some rule)
    (feeds : rule.FeedsAmong book.rules other) :
    ∃ next, book.rule? next = some other ∧ book.Feeds number next := by
  rcases feeds with ⟨-, member, reads, own⟩
  rcases List.getElem?_of_mem member with ⟨next, enteredToo⟩
  refine ⟨next, enteredToo, rule, other, entered, enteredToo, reads, fun same => own ?_⟩
  rw [← same] at enteredToo
  exact Option.some.inj (entered.symm.trans enteredToo)

theorem exists_transGen (entered : book.rule? number = some rule)
    (path : Relation.TransGen (Rule.FeedsAmong book.rules) rule other) :
    ∃ next, book.rule? next = some other ∧ Relation.TransGen book.Feeds number next := by
  induction path with
  | single feeds =>
      rcases exists_feeds entered feeds with ⟨next, enteredToo, feeds⟩
      exact ⟨next, enteredToo, .single feeds⟩
  | tail _ feeds induction =>
      rcases induction with ⟨between, isBetween, path⟩
      rcases exists_feeds isBetween feeds with ⟨next, enteredToo, feeds⟩
      exact ⟨next, enteredToo, path.tail feeds⟩

theorem exists_dependencies_iff (distinct : book.rules.Nodup) :
    (∃ dependencies, Dependencies.ofRulebook book = .ok dependencies) ↔
      ∀ rule, ¬ Relation.TransGen (Rule.FeedsAmong book.rules) rule rule := by
  constructor
  · rintro ⟨dependencies, ordered⟩ rule path
    have isRule : rule ∈ book.rules := by
      rcases Relation.TransGen.head'_iff.mp path with ⟨_, feeds, -⟩
      exact feeds.1
    rcases List.getElem?_of_mem isRule with ⟨number, entered⟩
    rcases exists_transGen entered path with ⟨next, enteredToo, path⟩
    rw [rule?_inj distinct enteredToo entered] at path
    exact (Dependencies.ofRulebook_orders ordered).not_transGen_self number path
  · intro acyclic
    cases ordered : Dependencies.ofRulebook book with
    | ok dependencies => exact ⟨dependencies, rfl⟩
    | error cycle =>
        have circular := Dependencies.ofRulebook_isCycle ordered
        rcases circular.isCircle.exists_transGen with ⟨number, path⟩
        rcases transGen_feedsAmong distinct path with ⟨rule, other, entered, enteredToo, path⟩
        rw [entered] at enteredToo
        cases enteredToo
        exact absurd path (acyclic rule)

theorem exists_dependencies_of_perm {another : Rulebook} (perm : book.rules.Perm another.rules)
    (distinct : book.rules.Nodup) :
    (∃ dependencies, Dependencies.ofRulebook book = .ok dependencies) ↔
      ∃ dependencies, Dependencies.ofRulebook another = .ok dependencies := by
  have same : Rule.FeedsAmong book.rules = Rule.FeedsAmong another.rules := by
    funext rule other
    rw [Rule.FeedsAmong, Rule.FeedsAmong, perm.mem_iff, perm.mem_iff]
  rw [exists_dependencies_iff distinct, exists_dependencies_iff (perm.nodup_iff.mp distinct), same]

def firing (book : Rulebook) (dependencies : Dependencies) : List Rule :=
  dependencies.order.filterMap book.rule?

variable {dependencies : Dependencies}

theorem firing_perm (orders : dependencies.Orders book) :
    (book.firing dependencies).Perm book.rules := by
  have all : book.numbers.map book.rule? = book.rules.map some := by
    apply List.ext_getElem
    · simp [numbers, size]
    · simp [numbers, rule?]
  have inOrder : book.numbers.filterMap book.rule? = book.rules :=
    calc book.numbers.filterMap book.rule?
      _ = (book.numbers.map book.rule?).filterMap id := by rw [List.filterMap_map]; rfl
      _ = book.rules := by rw [all]; simp
  exact inOrder ▸ orders.perm.filterMap book.rule?

theorem firing_pairwise (orders : dependencies.Orders book) :
    (book.firing dependencies).Pairwise fun earlier later => ¬ later.IsReadBy earlier := by
  refine orders.pairwise.filterMap book.rule? ?_
  intro number later ⟨distinct, apart⟩ rule entered other enteredToo reads
  exact apart ⟨other, rule, enteredToo, entered, reads, fun same => absurd same.symm distinct⟩

theorem calm (orders : dependencies.Orders book) :
    ∀ rule ∈ book.rules, rule.effect.writesAnswer = true → ¬ rule.IsReadBy rule := by
  intro rule member writes reads
  rcases List.getElem?_of_mem member with ⟨number, entered⟩
  exact orders.not_transGen_self number
    (.single ⟨rule, rule, entered, entered, reads, fun _ => writes⟩)

/-- What failed and where, with the rule itself in place of its number. -/
def explain (book : Rulebook) (failure : Failure) : Option Rule × Reference × String :=
  (book.rule? failure.rule, failure.target, failure.reason)

end Rulebook

/-! Filling in. -/

abbrev Filling := AnswerTree × Multiset (Option Rule × Reference × String)

def Rule.fillIn (now : DateTime) (filling : Filling) (rule : Rule) : Filling :=
  (rule.fill now filling.1 filling.1,
    filling.2 + ↑((rule.objections now filling.1).map fun objection => (some rule, objection)))

/-- A rule may have its turn before another one that does not feed it. -/
structure Rule.Precedes (rule other : Rule) : Prop where
  unread : ¬ other.IsReadBy rule
  apart : rule.Apart other

theorem Rule.fillIn_comm {rule other : Rule} (bound : rule.IsBound) (boundToo : other.IsBound)
    (kept : rule.effect.isKept = true) (keptToo : other.effect.isKept = true)
    (precedes : rule.Precedes other) (unread : ¬ rule.IsReadBy other) (now : DateTime)
    (filling : Filling) :
    Rule.fillIn now (Rule.fillIn now filling rule) other =
      Rule.fillIn now (Rule.fillIn now filling other) rule := by
  rcases filling with ⟨tree, failures⟩
  have alike : rule.Alike (other.fill now tree tree) tree :=
    alike_fill bound boundToo (fun _ => precedes.unread) now tree tree
  have alikeToo : other.Alike (rule.fill now tree tree) tree :=
    alike_fill boundToo bound (fun _ => unread) now tree tree
  simp only [fillIn, alike.fill_eq bound kept, alikeToo.fill_eq boundToo keptToo,
    alike.objections_eq bound kept, alikeToo.objections_eq boundToo keptToo]
  rw [fill_comm bound boundToo precedes.apart, Multiset.add_assoc, Multiset.add_assoc,
    Multiset.add_comm (Multiset.ofList ((rule.objections now tree).map _))]

namespace Engine

variable {engine : Engine} {now : DateTime}

def filling (engine : Engine) (pass : Pass) : Filling :=
  (pass.tree, ↑(pass.report.failures.map engine.rulebook.explain))

theorem filling_fireInitially (retain : engine.settings.hiddenAnswers = .retain)
    (evaluator : engine.evaluator = Expression.evaluator now) {number : Nat} {rule : Rule}
    (entered : engine.rulebook.rule? number = some rule) (bound : rule.IsBound)
    (kept : rule.effect.isKept = true)
    (calm : rule.effect.writesAnswer = true → ¬ rule.IsReadBy rule) (pass : Pass) :
    engine.filling (engine.fireInitially pass number) = rule.fillIn now (engine.filling pass) := by
  rcases fire_fill retain evaluator bound kept calm number pass with ⟨tree, failures⟩
  rw [fireInitially, entered]
  dsimp only
  rw [if_neg (by rw [Effect.waitsForAnswer_of_isKept kept]; exact Bool.false_ne_true), filling,
    tree, failures, Rule.fillIn, filling, List.map_append, List.map_map, Multiset.coe_add]
  refine congrArg _ (congrArg _ (congrArg _ (List.map_congr_left fun objection _ => ?_)))
  rw [Function.comp_apply, Rulebook.explain, failureOf, entered]

section Initial

variable (retain : engine.settings.hiddenAnswers = .retain)
  (evaluator : engine.evaluator = Expression.evaluator now)
  (bound : ∀ rule ∈ engine.rulebook.rules, rule.IsBound)
  (kept : ∀ rule ∈ engine.rulebook.rules, rule.effect.isKept = true)

include retain evaluator bound kept

theorem filling_foldl_fireInitially
    (calm : ∀ rule ∈ engine.rulebook.rules, rule.effect.writesAnswer = true →
      ¬ rule.IsReadBy rule) (numbers : List Nat) (pass : Pass) :
    engine.filling (numbers.foldl engine.fireInitially pass) =
      (numbers.filterMap engine.rulebook.rule?).foldl (Rule.fillIn now) (engine.filling pass) := by
  induction numbers generalizing pass with
  | nil => rfl
  | cons number numbers induction =>
      rw [List.foldl_cons, induction, List.filterMap_cons]
      cases entered : engine.rulebook.rule? number with
      | none => rw [fireInitially, entered]
      | some rule =>
          have member := List.mem_of_getElem? entered
          rw [filling_fireInitially retain evaluator entered (bound rule member) (kept rule member)
            (calm rule member), List.foldl_cons]

theorem filling_initial (orders : engine.dependencies.Orders engine.rulebook) (tree : AnswerTree) :
    engine.filling (engine.initial tree) =
      (engine.rulebook.firing engine.dependencies).foldl (Rule.fillIn now) (tree, 0) :=
  filling_foldl_fireInitially retain evaluator bound kept (Rulebook.calm orders)
    engine.dependencies.order (.start tree)

end Initial

end Engine

namespace Rulebook

variable {book other : Rulebook}

theorem foldl_fillIn_of_perm (perm : book.rules.Perm other.rules)
    (bound : ∀ rule ∈ book.rules, rule.IsBound)
    (kept : ∀ rule ∈ book.rules, rule.effect.isKept = true)
    (apart : book.rules.Pairwise Rule.Apart) {dependencies others : Dependencies}
    (orders : dependencies.Orders book) (ordersToo : others.Orders other) (now : DateTime)
    (filling : Filling) :
    (book.firing dependencies).foldl (Rule.fillIn now) filling =
      (other.firing others).foldl (Rule.fillIn now) filling := by
  have all := firing_perm orders
  have allToo := firing_perm ordersToo
  have symmetric : ∀ {rule another : Rule}, rule.Apart another → another.Apart rule :=
    fun differ same equal => differ same.symm equal.symm
  have ordered : (book.firing dependencies).Pairwise Rule.Precedes := by
    have differ := (all.pairwise_iff symmetric).mpr apart
    exact ((firing_pairwise orders).and differ).imp fun ⟨unread, differ⟩ => ⟨unread, differ⟩
  have orderedToo : (other.firing others).Pairwise Rule.Precedes := by
    have differ := ((allToo.trans perm.symm).pairwise_iff symmetric).mpr apart
    exact ((firing_pairwise ordersToo).and differ).imp fun ⟨unread, differ⟩ => ⟨unread, differ⟩
  refine foldl_eq_of_perm (all.trans (perm.trans allToo.symm)) ?_ ordered orderedToo filling
  intro rule inOrder another inOrderToo precedes precedesToo state
  have member := all.subset inOrder
  have memberToo := all.subset inOrderToo
  exact Rule.fillIn_comm (bound rule member) (bound another memberToo) (kept rule member)
    (kept another memberToo) precedes precedesToo.unread now state

theorem filling_initial_of_perm (perm : book.rules.Perm other.rules)
    (bound : ∀ rule ∈ book.rules, rule.IsBound)
    (kept : ∀ rule ∈ book.rules, rule.effect.isKept = true)
    (apart : book.rules.Pairwise Rule.Apart) {dependencies others : Dependencies}
    (orders : dependencies.Orders book) (ordersToo : others.Orders other) {settings : Settings}
    (retain : settings.hiddenAnswers = .retain) (now : DateTime) (tree : AnswerTree) :
    let engine : Engine := ⟨book, dependencies, settings, Expression.evaluator now⟩
    let another : Engine := ⟨other, others, settings, Expression.evaluator now⟩
    another.filling (another.initial tree) = engine.filling (engine.initial tree) := by
  intro engine another
  have boundToo : ∀ rule ∈ other.rules, rule.IsBound :=
    fun rule member => bound rule (perm.symm.subset member)
  have keptToo : ∀ rule ∈ other.rules, rule.effect.isKept = true :=
    fun rule member => kept rule (perm.symm.subset member)
  have last : engine.filling (engine.initial tree) =
      (book.firing dependencies).foldl (Rule.fillIn now) (tree, 0) :=
    Engine.filling_initial retain rfl bound kept orders tree
  have lastToo : another.filling (another.initial tree) =
      (other.firing others).foldl (Rule.fillIn now) (tree, 0) :=
    Engine.filling_initial retain rfl boundToo keptToo ordersToo tree
  rw [last, lastToo, foldl_fillIn_of_perm perm bound kept apart orders ordersToo]

theorem rules_ofRules {rules : List Rule}
    (distinct : rules.Pairwise fun earlier later => earlier.same later = false) :
    (ofRules rules).rules = rules := by
  have folded : ∀ (rules : List Rule) (book : Rulebook),
      (book.rules ++ rules).Pairwise (fun earlier later => earlier.same later = false) →
      (rules.foldl (fun book rule => (book.enter rule).1) book).rules = book.rules ++ rules := by
    intro rules
    induction rules with
    | nil => exact fun book _ => (List.append_nil _).symm
    | cons rule rules induction =>
        intro book distinct
        have fresh : book.rules.findIdx? (·.same rule) = none := by
          rw [List.findIdx?_eq_none_iff]
          intro earlier member
          exact (List.pairwise_append.mp distinct).2.2 earlier member rule List.mem_cons_self
        have entered : (book.enter rule).1.rules = book.rules ++ [rule] := by rw [enter, fresh]
        rw [List.foldl_cons, induction _ (by rwa [entered, List.append_assoc]), entered,
          List.append_assoc]
        rfl
  exact folded rules empty distinct

/-- The order of entry is of no account. Of two books of the same rules, both have
dependencies or neither has; and a tree filled in by one ends as it does when
filled in by the other, with the same failures. The rules are calculations, and
rules of relevance and of what is required; no two of one kind have the same
target. -/
theorem initial_of_perm (perm : book.rules.Perm other.rules)
    (made : ∀ rule ∈ book.rules, rule.IsMade)
    (kept : ∀ rule ∈ book.rules, rule.effect.isKept = true)
    (apart : book.rules.Pairwise fun rule another =>
      rule.effect = another.effect → rule.target ≠ another.target)
    {settings : Settings} (retain : settings.hiddenAnswers = .retain) (now : DateTime)
    (tree : AnswerTree) :
    match Dependencies.ofRulebook book, Dependencies.ofRulebook other with
    | .ok dependencies, .ok others =>
        let pass := Engine.initial ⟨book, dependencies, settings, Expression.evaluator now⟩ tree
        let again := Engine.initial ⟨other, others, settings, Expression.evaluator now⟩ tree
        again.tree = pass.tree ∧
          (again.report.failures.map other.explain).Perm (pass.report.failures.map book.explain)
    | .error _, .error _ => True
    | _, _ => False := by
  have distinct : book.rules.Nodup := by
    refine apart.imp fun {rule another} differ same => ?_
    exact differ (by rw [same]) (by rw [same])
  have both := exists_dependencies_of_perm perm distinct
  cases ordered : Dependencies.ofRulebook book with
  | error cycle =>
      cases orderedToo : Dependencies.ofRulebook other with
      | error cycle => trivial
      | ok others =>
          rcases both.mpr ⟨others, orderedToo⟩ with ⟨dependencies, found⟩
          rw [ordered] at found
          cases found
  | ok dependencies =>
      cases orderedToo : Dependencies.ofRulebook other with
      | error cycle =>
          rcases both.mp ⟨dependencies, ordered⟩ with ⟨others, found⟩
          rw [orderedToo] at found
          cases found
      | ok others =>
          have same := filling_initial_of_perm perm (fun rule member => (made rule member).isBound)
            kept apart (Dependencies.ofRulebook_orders ordered)
            (Dependencies.ofRulebook_orders orderedToo) retain now tree
          rcases Prod.mk.inj same with ⟨trees, failures⟩
          exact ⟨trees, Multiset.coe_eq_coe.mp failures⟩

end Rulebook

/-! An order that is split. -/

namespace Order

def split : Definition where
  id := none
  title := "split"
  skeleton :=
    let number (name : String) (value : Option String) : Skeleton :=
      { Skeleton.ofName name with type := .int, value }
    { Skeleton.ofName "data" with
      children := [number "paid" (some "30"), number "guests" (some "0"), number "share" none,
        number "due" none, number "reminder" none] }
  binds := [
    { Bind.ofTarget (every ["reminder"]) with relevant := some (.answer (every ["due"])) },
    { Bind.ofTarget (every ["share"]) with
      calculate := some (.binary .div (.answer (every ["paid"])) (.answer (every ["guests"]))) },
    { Bind.ofTarget (every ["due"]) with
      calculate := some (.binary .sub (.literal (.int 40)) (.answer (every ["paid"]))) }]

end Order

/-- The rules of the split order, and the same rules entered the other way
round. -/
theorem split_initial_of_perm : ∃ form dependencies others,
    Order.split.form .standard .standard .startOf2020 none = .ok form ∧
    let book := form.engine.rulebook
    let other := Rulebook.ofRules book.rules.reverse
    Dependencies.ofRulebook book = .ok dependencies ∧ Dependencies.ofRulebook other = .ok others ∧
    dependencies.order.filterMap book.rule? ≠ others.order.filterMap other.rule? ∧
    let pass := Engine.initial
      ⟨book, dependencies, .standard, Expression.evaluator .startOf2020⟩ form.tree
    let again := Engine.initial
      ⟨other, others, .standard, Expression.evaluator .startOf2020⟩ form.tree
    pass.tree.answer? (Order.ofOrder "due") = some (.int 10) ∧
    pass.report.failures = [⟨1, Order.ofOrder "share", "division by zero"⟩] ∧
    again.tree = pass.tree ∧
    (again.report.failures.map other.explain).Perm (pass.report.failures.map book.explain) := by
  have ready : (Order.split.form .standard .standard .startOf2020 none).toOption.any
      (fun form =>
        let book := form.engine.rulebook
        let other := Rulebook.ofRules book.rules.reverse
        decide (book.rules.reverse.Pairwise (fun earlier later => earlier.same later = false) ∧
          (∀ rule ∈ book.rules, rule.effect.isKept = true) ∧
          book.rules.Pairwise fun rule another =>
            rule.effect = another.effect → rule.target ≠ another.target) &&
        (Dependencies.ofRulebook book).toOption.any fun dependencies =>
          (Dependencies.ofRulebook other).toOption.any fun others =>
            let pass := Engine.initial
              ⟨book, dependencies, .standard, Expression.evaluator .startOf2020⟩ form.tree
            decide ((dependencies.order.filterMap book.rule?).map (·.target) ≠
                (others.order.filterMap other.rule?).map (·.target) ∧
              pass.tree.answer? (Order.ofOrder "due") = some (.int 10) ∧
              pass.report.failures = [⟨1, Order.ofOrder "share", "division by zero"⟩])) = true := by
    decide +kernel
  rcases exists_ok_of_any ready with ⟨form, built, ready⟩
  rcases Bool.and_eq_true_iff.mp ready with ⟨isFit, ordered⟩
  rcases decide_eq_true_eq.mp isFit with ⟨distinct, kept, apart⟩
  rcases exists_ok_of_any ordered with ⟨dependencies, ordered, orders⟩
  rcases exists_ok_of_any orders with ⟨others, orderedToo, filled⟩
  rcases decide_eq_true_eq.mp filled with ⟨differs, due, failures⟩
  have made : ∀ rule ∈ form.engine.rulebook.rules, rule.IsMade := by
    intro rule member
    rcases List.getElem?_of_mem member with ⟨number, entered⟩
    exact Definition.form_isMade built entered
  have perm : form.engine.rulebook.rules.Perm
      (Rulebook.ofRules form.engine.rulebook.rules.reverse).rules := by
    rw [Rulebook.rules_ofRules distinct]
    exact (List.reverse_perm _).symm
  have same := Rulebook.initial_of_perm perm made kept apart
    (show Settings.standard.hiddenAnswers = .retain from rfl) .startOf2020 form.tree
  rw [ordered, orderedToo] at same
  refine ⟨form, dependencies, others, built, ordered, orderedToo, fun equal => ?_, due, failures,
    same⟩
  exact differs (congrArg (List.map (·.target)) equal)

end ReactiveForm
