import ReactiveForm.Proofs.ExpressionDocuments
import ReactiveForm.Proofs.ValueEdits
import ReactiveForm.Storage.StoredForm

/-! Rules in files. What is stored for a rule is not what its author wrote but what binding made
of it: the target and the triggers are patterns. A rule is read back where all of these are
legible and its expression does not lie too deep. -/

namespace ReactiveForm

/-! Sets of references. -/

theorem Multiplicity.order_swap (left right : Multiplicity) :
    order left right = (order right left).swap := by
  cases left <;> cases right
  case index.index left right =>
    exact (Std.OrientedCmp.eq_swap : compare left right = (compare right left).swap)
  all_goals rfl

theorem Step.order_swap (left right : Step) : order left right = (order right left).swap := by
  rw [order, order, Ordering.swap_then, ← Multiplicity.order_swap, ← Std.OrientedCmp.eq_swap]

theorem Origin.order_swap (left right : Origin) : order left right = (order right left).swap := by
  cases left <;> cases right
  case relative.relative left right =>
    exact (Std.OrientedCmp.eq_swap : compare left right = (compare right left).swap)
  all_goals rfl

namespace Reference

theorem orderSteps_swap (lefts rights : List Step) :
    orderSteps lefts rights = (orderSteps rights lefts).swap := by
  induction lefts generalizing rights with
  | nil => cases rights <;> rfl
  | cons left lefts induction =>
      cases rights with
      | nil => rfl
      | cons right rights =>
          rw [orderSteps, orderSteps, Ordering.swap_then, ← Step.order_swap, ← induction]

theorem order_swap (left right : Reference) : order left right = (order right left).swap := by
  rw [order, order, Ordering.swap_then, ← Origin.order_swap, ← orderSteps_swap]

theorem order_of_gt (left right : Reference) (greater : order left right = .gt) :
    order right left = .lt := by
  rw [order_swap, greater]
  rfl

end Reference

theorem Rule.referenceSet_isAscending (references : List Reference) :
    IsAscending Reference.order (referenceSet references) :=
  ascending_isAscending Reference.order_of_gt references

/-! Effects. -/

namespace Effect

variable {effect : Effect}

theorem ofJson?_event {event : Json} (usable : event.isUsable = true) :
    ofJson? (.object [("kind", .text "set_value_action"), ("event", event)]) =
      (Occasion.ofJson? event).bind fun occasion => some (.setValue occasion) := by
  have tagged :
      (Json.object [("kind", .text "set_value_action"), ("event", event)]).tagged? "kind" =
        some (.text "set_value_action", .object [("event", event)]) := by
    rw [Json.tagged?, Json.isUsable, Json.isUsable.allMembersUsable, Json.isUsable.allMembersUsable,
      usable]
    rfl
  rw [ofJson?, tagged]
  rfl

theorem ofJson?_source {source : Json} (usable : source.isUsable = true) :
    Occasion.ofJson? (.object [("on", .text "value_changed"), ("source", source)]) =
      (Reference.ofJson? source).bind fun source => some (.valueChanged source) := by
  have tagged : (Json.object [("on", .text "value_changed"), ("source", source)]).tagged? "on" =
      some (.text "value_changed", .object [("source", source)]) := by
    rw [Json.tagged?, Json.isUsable, Json.isUsable.allMembersUsable, Json.isUsable.allMembersUsable,
      usable]
    rfl
  rw [Occasion.ofJson?, tagged]
  rfl

theorem ofJson?_toJson (source : ∀ source, effect = .setValue (.valueChanged source) →
    source.IsParsed) : ofJson? effect.toJson = some effect := by
  cases effect with
  | calculate => rfl
  | relevant => rfl
  | required => rfl
  | constraint message => cases message <;> rfl
  | setValue occasion =>
      cases occasion with
      | firstLoad => rfl
      | valueChanged reference =>
          rw [toJson, ofJson?_event rfl, Occasion.members, ofJson?_source rfl,
            Reference.ofJson?_toJson (source reference rfl)]
          rfl

theorem toJson_isExact : effect.toJson.IsExact := by
  cases effect with
  | constraint message =>
      cases message <;> simp [toJson, Json.member?, Json.IsExact, Json.MembersAreExact]
  | setValue occasion =>
      cases occasion <;> simp [toJson, Occasion.members, Json.IsExact, Json.MembersAreExact,
        Reference.toJson]
  | _ => simp [toJson, Json.IsExact, Json.MembersAreExact]

theorem depth_toJson_le : effect.toJson.depth ≤ 2 := by
  cases effect with
  | constraint message => cases message <;> exact (by decide : 1 ≤ 2)
  | setValue occasion => cases occasion <;> exact (by decide : 2 ≤ 2)
  | _ => exact (by decide : 1 ≤ 2)

end Effect

/-! Lists. -/

section Lists

variable {α β : Type} {decode : β → Option α} {encode : α → β}

theorem mapM_map_eq_some {items : List α}
    (each : ∀ item ∈ items, decode (encode item) = some item) :
    (items.map encode).mapM decode = some items := by
  induction items with
  | nil => rfl
  | cons item items induction =>
      rw [List.forall_mem_cons] at each
      rw [List.map_cons, List.mapM_cons, each.1, induction each.2]
      rfl

theorem mapM_eq_none {items : List β} (refused : ∃ item ∈ items, decode item = none) :
    items.mapM decode = none := by
  induction items with
  | nil =>
      rcases refused with ⟨item, member, -⟩
      cases member
  | cons item items induction =>
      rw [List.mapM_cons]
      cases read : decode item with
      | none => rfl
      | some value =>
          have later : ∃ item ∈ items, decode item = none := by simpa [read] using refused
          rw [induction later]
          rfl

end Lists

namespace Json

theorem itemsWithin_eq_map (remaining : Nat) (items : List Json) :
    itemsWithin remaining items = items.map (within remaining) := by
  induction items with
  | nil => rfl
  | cons item items induction => rw [itemsWithin, induction, List.map_cons]

theorem exists_deep {remaining : Nat} {items : List Json}
    (deep : remaining < depth.depthOfItems items) : ∃ item ∈ items, remaining < item.depth := by
  induction items with
  | nil => exact absurd deep (Nat.not_lt_zero _)
  | cons item items induction =>
      rw [depth.depthOfItems] at deep
      by_cases here : remaining < item.depth
      · exact ⟨item, .head _, here⟩
      · rcases induction (by omega) with ⟨other, member, found⟩
        exact ⟨other, .tail _ member, found⟩

theorem areExact_iff {items : List Json} : AreExact items ↔ ∀ item ∈ items, item.IsExact := by
  induction items with
  | nil => simp [AreExact]
  | cons item items induction => rw [AreExact, induction, List.forall_mem_cons]

end Json

/-! Rules. -/

namespace Rule

/-- The rule was bound to a target and from an expression that texts have. -/
def IsBoundFromText (rule : Rule) : Prop :=
  ∃ effect expression target, Rule.bind effect expression target = .ok rule ∧
    target.IsParsed ∧ expression.IsExact ∧
    ∀ source, effect = .setValue (.valueChanged source) → source.IsParsed

/-- The target and the triggers are legible. -/
def IsLegible (rule : Rule) : Prop :=
  rule.target.IsLegible ∧ ∀ trigger ∈ rule.triggers, trigger.IsLegible

instance (rule : Rule) : Decidable rule.IsLegible :=
  inferInstanceAs (Decidable (_ ∧ _))

/-- What binding makes of references that texts have. -/
structure IsSpelled (rule : Rule) : Prop where
  expression : rule.expression.IsExact
  target : rule.target.IsNamed ∧ rule.target.isAbsolute = true
  triggers : ∀ trigger ∈ rule.triggers, trigger.IsNamed ∧ trigger.isAbsolute = true
  source : ∀ source, rule.effect = .setValue (.valueChanged source) → source ∈ rule.triggers
  set : IsAscending Reference.order rule.triggers

theorem patternsRead_isNamed {expression : Expression} {target : Reference}
    {patterns : List Reference} (exact : expression.IsExact) (named : target.IsNamed)
    (found : patternsRead expression target = .ok patterns) :
    ∀ pattern ∈ patterns, pattern.IsNamed := by
  intro pattern member
  rcases exists_of_forall₂ (forall₂_of_mapM_ok found).flip member with ⟨mention, isMention, mapped⟩
  rcases map_eq_ok.mp mapped with ⟨anchored, found, rfl⟩
  have parsed := exact.mentions mention (List.mem_eraseDups.mp isMention)
  exact Reference.genericize_isNamed
    (Reference.anchor_isNamed parsed.isNamed_isLegible.1 named found)

theorem IsBoundFromText.isSpelled {rule : Rule} (bound : rule.IsBoundFromText) :
    rule.IsSpelled := by
  rcases bound with ⟨effect, expression, target, bound, parsed, exact, source⟩
  have isBound := bind_isBound bound
  have absolute : ∀ reference : Reference, reference.IsPattern → reference.isAbsolute = true :=
    fun reference isPattern => by simp [Reference.isAbsolute, isPattern.absolute]
  have named := parsed.isNamed_isLegible.1
  have generic := Reference.genericize_isNamed named
  rw [Rule.bind] at bound
  split at bound
  · cases bound
  · split at bound
    next =>
      cases bound
      refine ⟨exact, ⟨generic, absolute _ isBound.target⟩, fun trigger member => ?_,
        fun source other => ?_, .nil⟩
      · cases member
      · cases other
    next waited =>
      rcases bind_eq_ok.mp bound with ⟨anchored, found, bound⟩
      cases bound
      have trigger := Reference.genericize_isNamed
        (Reference.anchor_isNamed (source waited rfl).isNamed_isLegible.1 generic found)
      refine ⟨exact, ⟨generic, absolute _ isBound.target⟩, fun reference member => ?_,
        fun source same => ?_, .singleton _⟩
      · exact ⟨List.mem_singleton.mp member ▸ trigger, absolute _ (isBound.triggers _ member)⟩
      · cases same
        exact .head _
    next noFirstLoad noValueChanged =>
      rcases bind_eq_ok.mp bound with ⟨patterns, found, bound⟩
      cases bound
      refine ⟨exact, ⟨generic, absolute _ isBound.target⟩, fun reference member => ?_,
        fun source same => absurd same (noValueChanged source), referenceSet_isAscending _⟩
      exact ⟨patternsRead_isNamed exact generic found _ (mem_referenceSet.mp member),
        absolute _ (isBound.triggers _ member)⟩

section Spelled

variable {rule : Rule}

theorem ofJson?_members (effect expression target : Json) (triggers : List Json) :
    ofJson? (.object [("kind", effect), ("expr", expression), ("target", target),
        ("triggers", .array triggers)]) =
      (Effect.ofJson? effect).bind fun effect => (Expression.ofJson? expression).bind
        fun expression => (Reference.ofJson? target).bind fun target =>
          (triggers.mapM Reference.ofJson?).bind fun triggers =>
            some ⟨effect, expression, target, referenceSet triggers⟩ :=
  rfl

theorem IsSpelled.ofJson?_toJson (spelled : rule.IsSpelled) (legible : rule.IsLegible) :
    ofJson? rule.toJson = some rule := by
  have target : rule.target.IsParsed :=
    Reference.isParsed_iff.mpr ⟨spelled.target.1, legible.1⟩
  have triggers : ∀ trigger ∈ rule.triggers, trigger.IsParsed := fun trigger member =>
    Reference.isParsed_iff.mpr ⟨(spelled.triggers trigger member).1, legible.2 trigger member⟩
  have set : referenceSet rule.triggers = rule.triggers := spelled.set.ascending_eq
  rw [toJson, ofJson?_members,
    Effect.ofJson?_toJson fun source same => triggers source (spelled.source source same),
    Option.bind_some, Expression.ofJson?_toJson spelled.expression, Option.bind_some,
    Reference.ofJson?_toJson target, Option.bind_some,
    mapM_map_eq_some fun trigger member => Reference.ofJson?_toJson (triggers trigger member),
    Option.bind_some, set]

theorem IsSpelled.ofJson?_toJson_of_not_isLegible (spelled : rule.IsSpelled)
    (illegible : ¬rule.IsLegible) : ofJson? rule.toJson = none := by
  rw [toJson, ofJson?_members]
  cases Effect.ofJson? rule.effect.toJson with
  | none => rfl
  | some effect =>
      rw [Option.bind_some, Expression.ofJson?_toJson spelled.expression, Option.bind_some]
      by_cases target : rule.target.IsLegible
      · have some : ¬∀ trigger ∈ rule.triggers, trigger.IsLegible := fun triggers =>
          illegible ⟨target, triggers⟩
        rcases not_forall₂.mp some with ⟨trigger, member, one⟩
        have named := spelled.triggers trigger member
        have refused : (rule.triggers.map Reference.toJson).mapM Reference.ofJson? = none :=
          mapM_eq_none ⟨_, List.mem_map_of_mem member,
            Reference.ofJson?_toJson_of_not_isLegible named.1 named.2 one⟩
        rw [refused]
        cases Reference.ofJson? rule.target.toJson <;> rfl
      · rw [Reference.ofJson?_toJson_of_not_isLegible spelled.target.1 spelled.target.2 target]
        rfl

theorem toJson_isExact (exact : rule.expression.IsExact) : rule.toJson.IsExact := by
  have triggers : (Json.array (rule.triggers.map Reference.toJson)).IsExact := by
    rw [Json.IsExact, Json.areExact_iff]
    intro document member
    rcases List.mem_map.mp member with ⟨trigger, -, rfl⟩
    trivial
  exact ⟨Effect.toJson_isExact, Expression.toJson_isExact rule.expression exact, trivial, triggers,
    trivial⟩

theorem depth_triggers_le (triggers : List Reference) :
    (Json.array (triggers.map Reference.toJson)).depth ≤ 1 := by
  have flat : Json.depth.depthOfItems (triggers.map Reference.toJson) = 0 := by
    induction triggers with
    | nil => rfl
    | cons trigger triggers induction =>
        rw [List.map_cons, Json.depth.depthOfItems, induction]
        rfl
  rw [Json.depth, flat]

/-- A rule that lies too deep is refused: it is its expression that does. -/
theorem ofJson?_within {remaining : Nat} (deep : remaining + 3 < rule.toJson.depth) :
    ofJson? (rule.toJson.within (remaining + 3)) = none := by
  have effect : rule.effect.toJson.depth ≤ 2 := Effect.depth_toJson_le
  have triggers := depth_triggers_le rule.triggers
  -- The other members are too shallow to be cut off.
  have expression : remaining + 2 < rule.expression.toJson.depth := by
    simp only [toJson, Reference.toJson, Json.depth, Json.depth.depthOfMembers] at deep triggers
    omega
  have cut : rule.toJson.within (remaining + 3) = .object
      [("kind", rule.effect.toJson.within (remaining + 2)),
        ("expr", rule.expression.toJson.within (remaining + 2)), ("target", rule.target.toJson),
        ("triggers", .array (Json.itemsWithin (remaining + 1)
          (rule.triggers.map Reference.toJson)))] := rfl
  rw [cut, ofJson?_members, Expression.ofJson?_within expression]
  cases Effect.ofJson? (rule.effect.toJson.within (remaining + 2)) <;> rfl

end Spelled

end Rule

/-! The rules of a form. -/

namespace StoredForm

variable {stored : StoredForm}

theorem document_rules_isExact (exact : ∀ rule ∈ stored.rules, rule.expression.IsExact) :
    (document stored .rules).IsExact := by
  rw [document, Json.IsExact, Json.areExact_iff]
  intro document member
  rcases List.mem_map.mp member with ⟨rule, entered, rfl⟩
  exact Rule.toJson_isExact (exact rule entered)

theorem readBytes?_rules (exact : ∀ rule ∈ stored.rules, rule.expression.IsExact) :
    ∃ bytes, body (sections stored) .rules = .ok bytes ∧
      Json.readBytes? bytes = some ((document stored .rules).within Json.greatestDepth) :=
  ⟨_, rfl, Json.readBytes?_compact (document_rules_isExact exact)⟩

section Decoding

variable {α : Type} {parts : List Section} {part : Part} {bytes : List UInt8} {document : Json}
  {decode? : Json → Option α}

theorem decode_eq_ok {decoded : α} (found : body parts part = .ok bytes)
    (read : Json.readBytes? bytes = some document) (usable : decode? document = some decoded) :
    decode parts part decode? = .ok decoded := by
  simp [decode, found, read, usable, bind, Except.bind]

theorem decode_eq_error (found : body parts part = .ok bytes)
    (read : Json.readBytes? bytes = some document) (unusable : decode? document = none) :
    decode parts part decode? = .error (.malformed part) := by
  simp [decode, found, read, unusable, bind, Except.bind]

end Decoding

theorem list?_within_rules (spelled : ∀ rule ∈ stored.rules, rule.IsSpelled) :
    Json.list? Rule.ofJson? ((document stored .rules).within Json.greatestDepth) =
      if (∀ rule ∈ stored.rules, rule.IsLegible) ∧
          (document stored .rules).depth ≤ Json.greatestDepth then
        some stored.rules
      else none := by
  split
  next readable =>
    rw [Json.within_eq_self _ _ readable.2]
    exact mapM_map_eq_some fun rule entered =>
      (spelled rule entered).ofJson?_toJson (readable.1 rule entered)
  next unreadable =>
    by_cases shallow : (document stored .rules).depth ≤ Json.greatestDepth
    · have some : ¬∀ rule ∈ stored.rules, rule.IsLegible := fun legible =>
        unreadable ⟨legible, shallow⟩
      rcases not_forall₂.mp some with ⟨rule, entered, one⟩
      rw [Json.within_eq_self _ _ shallow]
      exact mapM_eq_none ⟨_, List.mem_map_of_mem entered,
        (spelled rule entered).ofJson?_toJson_of_not_isLegible one⟩
    · -- The list of rules is itself the outermost container.
      have deep : 123 + 3 < Json.depth.depthOfItems (stored.rules.map Rule.toJson) := by
        rw [document, Json.depth, Json.greatestDepth] at shallow
        omega
      rcases Json.exists_deep deep with ⟨document, member, ruleDeep⟩
      rcases List.mem_map.mp member with ⟨rule, -, rfl⟩
      have cut : (StoredForm.document stored .rules).within Json.greatestDepth =
          .array ((stored.rules.map Rule.toJson).map (Json.within (123 + 3))) := by
        rw [← Json.itemsWithin_eq_map]
        rfl
      rw [cut]
      exact mapM_eq_none ⟨_, List.mem_map_of_mem member, Rule.ofJson?_within ruleDeep⟩

/-- The rules of a form are read back from its file exactly if the target and the triggers of
each are legible and none lies too deep. Otherwise the file has no rules that can be used. -/
theorem decode_rules_eq (stored : StoredForm)
    (bound : ∀ rule ∈ stored.rules, rule.IsBoundFromText) :
    decode (sections stored) .rules (Json.list? Rule.ofJson?) =
      if (∀ rule ∈ stored.rules, rule.IsLegible) ∧
          (document stored .rules).depth ≤ Json.greatestDepth then
        .ok stored.rules
      else .error (.malformed .rules) := by
  have spelled : ∀ rule ∈ stored.rules, rule.IsSpelled := fun rule entered =>
    (bound rule entered).isSpelled
  have list := list?_within_rules spelled
  rcases readBytes?_rules fun rule entered => (spelled rule entered).expression with
    ⟨bytes, found, read⟩
  split
  next readable =>
    rw [if_pos readable] at list
    exact decode_eq_ok found read list
  next unreadable =>
    rw [if_neg unreadable] at list
    exact decode_eq_error found read list

end StoredForm

/-! A tariff whose total is a multiple of the price next to it. -/

namespace Tariff

def price : Reference := .relative 1 [.unbound "price"]

def total : Reference := .absolute [.unbound "data", .unbound "total"]

def charge : Expression := .binary .mul (.answer price) (.literal (.decimal 5.5))

def rule : Rule :=
  ⟨.calculate, charge, total, [.absolute [.unbound "data", .unbound "price"]]⟩

def stored : StoredForm :=
  ⟨.none, "tariff", .ofRoot (.leaf (.blank "data" (.index 0))), [rule], .standard⟩

theorem rule_isBoundFromText : rule.IsBoundFromText := by
  refine ⟨.calculate, charge, total, rfl, ⟨"/data/total", by rfl⟩, ⟨?_, ?_⟩, ?_⟩
  · intro mention member
    rw [List.mem_singleton.mp member]
    exact ⟨"../price", by rfl⟩
  · intro literal member number same
    rw [List.mem_singleton.mp member] at same
    cases same
    exact ⟨by rfl, by rw [Json.ReadsBack]; rfl⟩
  · intro source other
    cases other

end Tariff

theorem tariff_decode_rules : (∀ rule ∈ Tariff.stored.rules, rule.IsBoundFromText) ∧
    StoredForm.decode (StoredForm.sections Tariff.stored) .rules (Json.list? Rule.ofJson?) =
      .ok [Tariff.rule] := by
  have bound : ∀ rule ∈ Tariff.stored.rules, rule.IsBoundFromText := by
    intro rule member
    rw [List.mem_singleton.mp member]
    exact Tariff.rule_isBoundFromText
  have readable : (∀ rule ∈ Tariff.stored.rules, rule.IsLegible) ∧
      (StoredForm.document Tariff.stored .rules).depth ≤ Json.greatestDepth := by
    decide +kernel
  exact ⟨bound, (StoredForm.decode_rules_eq Tariff.stored bound).trans (if_pos readable)⟩

/-! A register of ages that requires its root for as long as there is something above it. -/

namespace Roster

def root : Reference := .absolute [.unbound "data"]

def above : Reference := .relative 1 []

def rule : Rule := ⟨.required, .count above, root, [.absolute []]⟩

def definition : Definition where
  id := none
  title := "register"
  skeleton := { Skeleton.ofName "data" with
    children := [{ Skeleton.ofName "age" with type := .int, value := some "5" }] }
  binds := [{ Bind.ofTarget root with required := some (.count above) }]

end Roster

/-- The rule is bound and the form is built, but neither is read back from its document. -/
theorem roster_unreadable : ∃ form,
    Reference.parse "/data" = .ok Roster.root ∧ Reference.parse ".." = .ok Roster.above ∧
    Rule.bind .required (.count Roster.above) Roster.root = .ok Roster.rule ∧
    Rule.ofJson? Roster.rule.toJson = none ∧
    Roster.definition.form .standard .standard .startOf2020 none = .ok form ∧
    StoredForm.decode (StoredForm.sections form.stored) .rules (Json.list? Rule.ofJson?) =
      .error (.malformed .rules) := by
  have refused : (Roster.definition.form .standard .standard .startOf2020 none).toOption.any
      (fun form => (Json.readBytes? (Text.Utf8.encode
        (StoredForm.document form.stored .rules).compact)).any fun document =>
          (Json.list? Rule.ofJson? document).isNone) = true := by
    decide +kernel
  rcases exists_ok_of_any refused with ⟨form, built, refused⟩
  rcases (Option.any_eq_true _ _).mp refused with ⟨document, read, refused⟩
  exact ⟨form, by rfl, by rfl, by rfl, by rfl, built,
    StoredForm.decode_eq_error rfl read (Option.isNone_iff_eq_none.mp refused)⟩

end ReactiveForm
