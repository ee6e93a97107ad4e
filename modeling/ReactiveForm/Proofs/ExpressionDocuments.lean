import ReactiveForm.Expression.Encoding
import ReactiveForm.Proofs.Documents
import ReactiveForm.Proofs.Paths

/-! Expressions in documents. What mentions only references that texts have, and only numbers that
are read back, is read back as a whole. What lies too deep is not, wherever it is cut off. -/

namespace ReactiveForm

/-! Values. -/

namespace Value

def IsExact (value : Value) : Prop :=
  ∀ number, value = .decimal number → number.isFinite = true ∧ Json.ReadsBack number

theorem ofJson?_members (tag content : Json) :
    ofJson? (.object [("type", tag), ("value", content)]) =
      (ValueType.ofJson? tag).bind (ofContent? · content) :=
  rfl

theorem ofContent?_content {value : Value} (exact : value.IsExact) :
    ofContent? value.type value.content = some value := by
  cases value with
  | text content => rfl
  | int number => simp [ofContent?, type, content, Json.int64?, Number.int64?_toInt]
  | decimal number =>
      simp [ofContent?, type, content, Json.ofDecimal, (exact number rfl).1, Json.decimal?]
  | boolean truth => rfl
  | date day =>
      simp [ofContent?, type, content, Json.letters?, Json.text?, Calendar.readDate?_letters]
  | time clock =>
      simp [ofContent?, type, content, Json.letters?, Json.text?, Calendar.readDocumentTime?,
        Calendar.readTime?_letters]
  | dateTime moment =>
      simp [ofContent?, type, content, Json.letters?, Json.text?, Calendar.readDateTime?_letters]

theorem ofJson?_toJson {value : Value} (exact : value.IsExact) :
    ofJson? value.toJson = some value := by
  have type : ValueType.ofJson? (.text value.type.tag) = some value.type :=
    ValueType.ofTag?_tag value.type
  rw [toJson, ofJson?_members, type, Option.bind_some, ofContent?_content exact]

theorem toJson_isExact {value : Value} (exact : value.IsExact) : value.toJson.IsExact := by
  have content : value.content.IsExact := by
    cases value with
    | int number =>
        exact ⟨Int64.minValue_le_toInt number,
          Int.lt_of_le_of_lt (Int64.toInt_le number) (by decide)⟩
    | decimal number =>
        rw [Value.content, Json.ofDecimal, if_pos (exact number rfl).1]
        exact (exact number rfl).2
    | _ => trivial
  exact ⟨trivial, content, trivial⟩

end Value

/-! Expressions. -/

namespace Expression

def literals : Expression → List Value
  | .literal value => [value]
  | .answer _ | .position _ | .count _ | .sum _ | .now | .today => []
  | .binary _ left right => left.literals ++ right.literals
  | .not operand => operand.literals
  | .choose condition yes no => condition.literals ++ yes.literals ++ no.literals
  | .concat parts => literalsOfAll parts
where
  literalsOfAll : List Expression → List Value
    | [] => []
    | part :: rest => part.literals ++ literalsOfAll rest

structure IsExact (expression : Expression) : Prop where
  mentions : ∀ mention ∈ expression.mentions, mention.IsParsed
  literals : ∀ literal ∈ expression.literals, literal.IsExact

section Reading

variable {levels : Nat} {content : Json}

theorem ofJsonWithin?_literal : ofJsonWithin? (levels + 1) (.object [("literal", content)]) =
    (Value.ofJson? content).map .literal :=
  rfl

theorem ofJsonWithin?_answer : ofJsonWithin? (levels + 1) (.object [("ref", content)]) =
    (Reference.ofJson? content).map .answer :=
  rfl

theorem ofJsonWithin?_position : ofJsonWithin? (levels + 1) (.object [("position", content)]) =
    (Reference.ofJson? content).map .position :=
  rfl

theorem ofJsonWithin?_count : ofJsonWithin? (levels + 1) (.object [("count", content)]) =
    (Reference.ofJson? content).map .count :=
  rfl

theorem ofJsonWithin?_sum : ofJsonWithin? (levels + 1) (.object [("sum", content)]) =
    (Reference.ofJson? content).map .sum :=
  rfl

theorem ofJsonWithin?_binary (operator : BinaryOperator) (left right : Json) :
    ofJsonWithin? (levels + 1) (.object [("binary", .object
        [("op", .text operator.name), ("lhs", left), ("rhs", right)])]) =
      (ofJsonWithin? levels left).bind fun left =>
        (ofJsonWithin? levels right).bind fun right => some (.binary operator left right) := by
  have known : operator? (.text operator.name) = some operator :=
    BinaryOperator.ofName?_name operator
  have read : ofJsonWithin? (levels + 1) (.object [("binary", .object
        [("op", .text operator.name), ("lhs", left), ("rhs", right)])]) =
      (operator? (.text operator.name)).bind fun operator =>
        (ofJsonWithin? levels left).bind fun left =>
          (ofJsonWithin? levels right).bind fun right => some (.binary operator left right) :=
    rfl
  rw [read, known, Option.bind_some]

theorem ofJsonWithin?_not : ofJsonWithin? (levels + 1) (.object [("not", content)]) =
    (ofJsonWithin? levels content).map .not :=
  rfl

theorem ofJsonWithin?_choose (condition yes no : Json) :
    ofJsonWithin? (levels + 1) (.object [("if", .object
        [("condition", condition), ("then", yes), ("otherwise", no)])]) =
      (ofJsonWithin? levels condition).bind fun condition =>
        (ofJsonWithin? levels yes).bind fun yes =>
          (ofJsonWithin? levels no).bind fun no => some (.choose condition yes no) :=
  rfl

theorem ofJsonWithin?_concat (parts : List Json) :
    ofJsonWithin? (levels + 1) (.object [("concat", .array parts)]) =
      (parts.mapM (ofJsonWithin? levels)).map .concat :=
  rfl

end Reading

section Exact

variable {left right condition yes no operand : Expression} {operator : BinaryOperator}

theorem IsExact.of_binary (exact : (binary operator left right).IsExact) :
    left.IsExact ∧ right.IsExact := by
  have mentions := List.forall_mem_append.mp exact.mentions
  have literals := List.forall_mem_append.mp exact.literals
  exact ⟨⟨mentions.1, literals.1⟩, mentions.2, literals.2⟩

theorem IsExact.of_not (exact : (Expression.not operand).IsExact) : operand.IsExact :=
  ⟨exact.mentions, exact.literals⟩

theorem IsExact.of_choose (exact : (choose condition yes no).IsExact) :
    condition.IsExact ∧ yes.IsExact ∧ no.IsExact := by
  have mentions := List.forall_mem_append.mp exact.mentions
  have literals := List.forall_mem_append.mp exact.literals
  rw [List.forall_mem_append] at mentions literals
  exact ⟨⟨mentions.1.1, literals.1.1⟩, ⟨mentions.1.2, literals.1.2⟩, mentions.2, literals.2⟩

structure AreExact (parts : List Expression) : Prop where
  mentions : ∀ mention ∈ mentions.mentionsOfAll parts, mention.IsParsed
  literals : ∀ literal ∈ literals.literalsOfAll parts, literal.IsExact

theorem IsExact.of_concat {parts : List Expression} (exact : (concat parts).IsExact) :
    AreExact parts :=
  ⟨exact.mentions, exact.literals⟩

theorem AreExact.of_cons {part : Expression} {parts : List Expression}
    (exact : AreExact (part :: parts)) : part.IsExact ∧ AreExact parts := by
  have mentions := List.forall_mem_append.mp exact.mentions
  have literals := List.forall_mem_append.mp exact.literals
  exact ⟨⟨mentions.1, literals.1⟩, mentions.2, literals.2⟩

end Exact

/-! How deep the document of an expression is. -/

section Depth

variable (operator : BinaryOperator) (left right operand condition yes no : Expression)
  (parts : List Expression)

theorem depth_binary : (binary operator left right).toJson.depth =
    max left.toJson.depth right.toJson.depth + 2 := by
  simp [toJson, Json.depth, Json.depth.depthOfMembers]

theorem depth_not : (Expression.not operand).toJson.depth = operand.toJson.depth + 1 := by
  simp [toJson, Json.depth, Json.depth.depthOfMembers]

theorem depth_choose : (choose condition yes no).toJson.depth =
    max condition.toJson.depth (max yes.toJson.depth no.toJson.depth) + 2 := by
  simp [toJson, Json.depth, Json.depth.depthOfMembers]

theorem depth_concat : (concat parts).toJson.depth =
    Json.depth.depthOfItems (toJson.allToJson parts) + 2 := by
  simp [toJson, Json.depth, Json.depth.depthOfMembers]

end Depth

mutual

theorem ofJsonWithin?_toJson : ∀ (expression : Expression) (levels : Nat), expression.IsExact →
    expression.toJson.depth < levels + 1 →
    ofJsonWithin? (levels + 1) expression.toJson = some expression
  -- Every operator uses up one level and is one or two containers, so there is a level left for
  -- each operand.
  | .literal value => by
      intro levels exact _
      rw [toJson, ofJsonWithin?_literal, Value.ofJson?_toJson (exact.literals _ (.head _))]
      rfl
  | .answer reference => by
      intro levels exact _
      rw [toJson, ofJsonWithin?_answer, Reference.ofJson?_toJson (exact.mentions _ (.head _))]
      rfl
  | .position reference => by
      intro levels exact _
      rw [toJson, ofJsonWithin?_position, Reference.ofJson?_toJson (exact.mentions _ (.head _))]
      rfl
  | .count reference => by
      intro levels exact _
      rw [toJson, ofJsonWithin?_count, Reference.ofJson?_toJson (exact.mentions _ (.head _))]
      rfl
  | .sum reference => by
      intro levels exact _
      rw [toJson, ofJsonWithin?_sum, Reference.ofJson?_toJson (exact.mentions _ (.head _))]
      rfl
  | .now => fun _ _ _ => rfl
  | .today => fun _ _ _ => rfl
  | .binary operator left right => by
      intro levels exact deep
      rw [depth_binary] at deep
      obtain ⟨levels, rfl⟩ := Nat.exists_eq_add_of_le' (show 1 ≤ levels by omega)
      rw [toJson, ofJsonWithin?_binary,
        ofJsonWithin?_toJson left levels exact.of_binary.1 (by omega), Option.bind_some,
        ofJsonWithin?_toJson right levels exact.of_binary.2 (by omega), Option.bind_some]
  | .not operand => by
      intro levels exact deep
      rw [depth_not] at deep
      obtain ⟨levels, rfl⟩ := Nat.exists_eq_add_of_le' (show 1 ≤ levels by omega)
      rw [toJson, ofJsonWithin?_not, ofJsonWithin?_toJson operand levels exact.of_not (by omega)]
      rfl
  | .choose condition yes no => by
      intro levels exact deep
      rw [depth_choose] at deep
      obtain ⟨levels, rfl⟩ := Nat.exists_eq_add_of_le' (show 1 ≤ levels by omega)
      rcases exact.of_choose with ⟨conditionExact, yesExact, noExact⟩
      rw [toJson, ofJsonWithin?_choose,
        ofJsonWithin?_toJson condition levels conditionExact (by omega), Option.bind_some,
        ofJsonWithin?_toJson yes levels yesExact (by omega), Option.bind_some,
        ofJsonWithin?_toJson no levels noExact (by omega), Option.bind_some]
  | .concat parts => by
      intro levels exact deep
      rw [depth_concat] at deep
      obtain ⟨levels, rfl⟩ := Nat.exists_eq_add_of_le' (show 1 ≤ levels by omega)
      rw [toJson, ofJsonWithin?_concat,
        mapM_ofJsonWithin?_allToJson parts levels exact.of_concat (by omega)]
      rfl

theorem mapM_ofJsonWithin?_allToJson : ∀ (parts : List Expression) (levels : Nat), AreExact parts →
    Json.depth.depthOfItems (toJson.allToJson parts) < levels + 1 →
    (toJson.allToJson parts).mapM (ofJsonWithin? (levels + 1)) = some parts
  | [] => fun _ _ _ => rfl
  | part :: parts => by
      intro levels exact deep
      rw [toJson.allToJson, Json.depth.depthOfItems] at deep
      rw [toJson.allToJson, List.mapM_cons,
        ofJsonWithin?_toJson part levels exact.of_cons.1 (by omega),
        mapM_ofJsonWithin?_allToJson parts levels exact.of_cons.2 (by omega)]
      rfl

end

theorem ofJson?_toJson {expression : Expression} (exact : expression.IsExact) :
    ofJson? expression.toJson = some expression :=
  ofJsonWithin?_toJson expression _ exact (Nat.lt_succ_self _)

theorem depth_literal (value : Value) : (literal value).toJson.depth = 2 := by
  have content : value.content.depth = 0 := by
    cases value with
    | decimal number =>
        rw [Value.content, Json.ofDecimal]
        split <;> rfl
    | _ => rfl
  simp [toJson, Value.toJson, Json.depth, Json.depth.depthOfMembers, content]

mutual

/-- An expression that lies too deep is refused: what is cut off is a part of it. -/
theorem ofJsonWithin?_within : ∀ (expression : Expression) (levels remaining : Nat),
    remaining < expression.toJson.depth →
    ofJsonWithin? levels (expression.toJson.within remaining) = none
  -- An operator is itself cut off where fewer containers are left than it is. Otherwise it is one
  -- of its operands that lies too deep, and whatever stands before that operand is read first.
  | _, 0, _ => fun _ => rfl
  | .now, _ + 1, _ | .today, _ + 1, _ => fun deep => absurd deep (Nat.not_lt_zero _)
  | .answer _, _ + 1, 0 | .position _, _ + 1, 0 | .count _, _ + 1, 0 | .sum _, _ + 1, 0 =>
      fun _ => rfl
  | .answer _, _ + 1, _ + 1 | .position _, _ + 1, _ + 1 | .count _, _ + 1, _ + 1
  | .sum _, _ + 1, _ + 1 => fun deep => absurd (Nat.lt_of_succ_lt_succ deep) (Nat.not_lt_zero _)
  | .literal _, _ + 1, 0 | .literal _, _ + 1, 1 => fun _ => rfl
  | .literal _, _ + 1, _ + 2 => by
      intro deep
      rw [depth_literal] at deep
      omega
  | .binary _ _ _, _ + 1, 0 | .binary _ _ _, _ + 1, 1 => fun _ => rfl
  | .binary operator left right, levels + 1, remaining + 2 => by
      intro deep
      rw [depth_binary] at deep
      have cut : (binary operator left right).toJson.within (remaining + 2) =
          .object [("binary", .object [("op", .text operator.name),
            ("lhs", left.toJson.within remaining), ("rhs", right.toJson.within remaining)])] := rfl
      rw [cut, ofJsonWithin?_binary]
      by_cases leftDeep : remaining < left.toJson.depth
      · rw [ofJsonWithin?_within left levels remaining leftDeep]
        rfl
      · rw [ofJsonWithin?_within right levels remaining (by omega)]
        cases ofJsonWithin? levels (left.toJson.within remaining) <;> rfl
  | .not _, _ + 1, 0 => fun _ => rfl
  | .not operand, levels + 1, remaining + 1 => by
      intro deep
      rw [depth_not] at deep
      have cut : (Expression.not operand).toJson.within (remaining + 1) =
          .object [("not", operand.toJson.within remaining)] := rfl
      rw [cut, ofJsonWithin?_not, ofJsonWithin?_within operand levels remaining (by omega)]
      rfl
  | .choose _ _ _, _ + 1, 0 | .choose _ _ _, _ + 1, 1 => fun _ => rfl
  | .choose condition yes no, levels + 1, remaining + 2 => by
      intro deep
      rw [depth_choose] at deep
      have cut : (choose condition yes no).toJson.within (remaining + 2) =
          .object [("if", .object [("condition", condition.toJson.within remaining),
            ("then", yes.toJson.within remaining),
            ("otherwise", no.toJson.within remaining)])] := rfl
      rw [cut, ofJsonWithin?_choose]
      by_cases conditionDeep : remaining < condition.toJson.depth
      · rw [ofJsonWithin?_within condition levels remaining conditionDeep]
        rfl
      · by_cases yesDeep : remaining < yes.toJson.depth
        · rw [ofJsonWithin?_within yes levels remaining yesDeep]
          cases ofJsonWithin? levels (condition.toJson.within remaining) <;> rfl
        · rw [ofJsonWithin?_within no levels remaining (by omega)]
          cases ofJsonWithin? levels (condition.toJson.within remaining) <;>
            cases ofJsonWithin? levels (yes.toJson.within remaining) <;> rfl
  | .concat _, _ + 1, 0 | .concat _, _ + 1, 1 => fun _ => rfl
  | .concat parts, levels + 1, remaining + 2 => by
      intro deep
      rw [depth_concat] at deep
      have cut : (concat parts).toJson.within (remaining + 2) =
          .object [("concat", .array (Json.itemsWithin remaining (toJson.allToJson parts)))] := rfl
      rw [cut, ofJsonWithin?_concat,
        mapM_ofJsonWithin?_itemsWithin parts levels remaining (by omega)]
      rfl

theorem mapM_ofJsonWithin?_itemsWithin : ∀ (parts : List Expression) (levels remaining : Nat),
    remaining < Json.depth.depthOfItems (toJson.allToJson parts) →
    (Json.itemsWithin remaining (toJson.allToJson parts)).mapM (ofJsonWithin? levels) = none
  | [], _, _ => fun deep => absurd deep (Nat.not_lt_zero _)
  | part :: parts, levels, remaining => by
      intro deep
      rw [toJson.allToJson, Json.depth.depthOfItems] at deep
      rw [toJson.allToJson, Json.itemsWithin, List.mapM_cons]
      by_cases partDeep : remaining < part.toJson.depth
      · rw [ofJsonWithin?_within part levels remaining partDeep]
        rfl
      · rw [mapM_ofJsonWithin?_itemsWithin parts levels remaining (by omega)]
        cases ofJsonWithin? levels (part.toJson.within remaining) <;> rfl

end

theorem ofJson?_within {expression : Expression} {remaining : Nat}
    (deep : remaining < expression.toJson.depth) :
    ofJson? (expression.toJson.within remaining) = none :=
  ofJsonWithin?_within expression _ remaining deep

mutual

theorem toJson_isExact : ∀ expression : Expression, expression.IsExact → expression.toJson.IsExact
  | .literal _ => fun exact =>
      ⟨Value.toJson_isExact (exact.literals _ (.head _)), trivial⟩
  | .answer _ | .position _ | .count _ | .sum _ => fun _ => ⟨trivial, trivial⟩
  | .now | .today => fun _ => trivial
  | .binary _ left right => fun exact =>
      ⟨⟨trivial, toJson_isExact left exact.of_binary.1, toJson_isExact right exact.of_binary.2,
        trivial⟩, trivial⟩
  | .not operand => fun exact => ⟨toJson_isExact operand exact.of_not, trivial⟩
  | .choose condition yes no => fun exact =>
      ⟨⟨toJson_isExact condition exact.of_choose.1, toJson_isExact yes exact.of_choose.2.1,
        toJson_isExact no exact.of_choose.2.2, trivial⟩, trivial⟩
  | .concat parts => fun exact => ⟨allToJson_areExact parts exact.of_concat, trivial⟩

theorem allToJson_areExact : ∀ parts : List Expression, AreExact parts →
    Json.AreExact (toJson.allToJson parts)
  | [] => fun _ => trivial
  | part :: parts => fun exact =>
      ⟨toJson_isExact part exact.of_cons.1, allToJson_areExact parts exact.of_cons.2⟩

end

end Expression

end ReactiveForm
