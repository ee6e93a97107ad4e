import ReactiveForm.Proofs.Making
import ReactiveForm.Proofs.Spelling
import ReactiveForm.Proofs.Storing
import ReactiveForm.Proofs.Upholding

/-! Typed nodes hold typed answers. Whatever is written to a node has been cast to its
type, and blank texts are not written at all. A definition gives its nodes values of
their types to begin with, but some of these may be blank. -/

namespace ReactiveForm

namespace Value

/-! Types of values that are read or cast. -/

theorem type_of_read? {type : ValueType} {written : String} {value : Value}
    (read : read? type written = some value) (typed : type ≠ .unspecified) : value.type = type := by
  cases type with
  | unspecified => exact absurd rfl typed
  | text =>
      cases read
      rfl
  | int | decimal | boolean | date | time | dateTime =>
      rcases Option.map_eq_some_iff.mp read with ⟨_, -, rfl⟩
      rfl

theorem cast?_int {value : Value} (noInt : value.type ≠ .int) :
    value.cast? .int = value.number?.bind fun number =>
      if number.isFinite then some (.int (Number.saturate (Number.truncate number))) else none := by
  cases value with
  | int _ => exact absurd rfl noInt
  | text _ | decimal _ | boolean _ | date _ | time _ | dateTime _ => rfl

theorem type_of_cast? {value result : Value} {target : ValueType}
    (cast : value.cast? target = some result) (typed : target ≠ .unspecified) :
    result.type = target := by
  cases target with
  | unspecified => exact absurd rfl typed
  | text | boolean =>
      cases cast
      rfl
  | decimal =>
      rcases Option.map_eq_some_iff.mp cast with ⟨number, -, rfl⟩
      rfl
  | int =>
      by_cases isInt : value.type = .int
      · cases value with
        | int _ =>
            cases cast
            rfl
        | text _ | decimal _ | boolean _ | date _ | time _ | dateTime _ => cases isInt
      · rw [cast?_int isInt] at cast
        rcases Option.bind_eq_some_iff.mp cast with ⟨number, -, cast⟩
        split at cast
        · cases cast
          rfl
        · cases cast
  | date | time | dateTime =>
      cases value with
      | text content => exact type_of_read? cast typed
      | int _ | decimal _ | boolean _ => cases cast
      | date _ | time _ | dateTime _ =>
          cases cast <;> rfl

/-! Blank texts. -/

theorem isBlank_of_type {value : Value} (noText : value.type ≠ .text) : value.isBlank = false := by
  cases value with
  | text _ => exact absurd rfl noText
  | _ => rfl

end Value

theorem isEmpty_ofList {letters : List Char} (nonempty : letters ≠ []) :
    (String.ofList letters).isEmpty = false := by
  simpa using nonempty

namespace Number

theorem integerDigits_ne_nil (number : Int) : integerDigits number ≠ [] := by
  rw [integerDigits]
  split
  · exact List.cons_ne_nil _ _
  · exact Nat.toDigits_ne_nil

theorem place_ne_nil (layout : Layout) (decimal : Decimal) : layout.place decimal ≠ [] := by
  rw [Layout.place]
  split
  · rw [pointAfter]
    split
    · exact List.cons_ne_nil _ _
    · exact List.append_ne_nil_of_right_ne_nil _ (List.cons_ne_nil _ _)
  · exact List.append_ne_nil_of_right_ne_nil _ (integerDigits_ne_nil _)

theorem write_isEmpty (layout : Layout) (number : Float) :
    (layout.write number).isEmpty = false := by
  rw [Layout.write]
  split
  · rfl
  · refine isEmpty_ofList (List.append_ne_nil_of_right_ne_nil _ ?_)
    split
    · exact List.cons_ne_nil _ _
    · split
      · exact List.cons_ne_nil _ _
      · exact place_ne_nil _ _

end Number

namespace Value

theorem isEmpty_display (value : Value) : value.display.isEmpty = value.isBlank := by
  cases value with
  | text content => rfl
  | int number => exact isEmpty_ofList (Number.integerDigits_ne_nil _)
  | decimal number => exact Number.write_isEmpty _ number
  | boolean truth => cases truth <;> rfl
  | date _ | dateTime _ =>
      exact isEmpty_ofList (List.append_ne_nil_of_right_ne_nil _ (List.cons_ne_nil _ _))
  | time _ =>
      refine isEmpty_ofList (List.append_ne_nil_of_left_ne_nil ?_ _)
      exact List.append_ne_nil_of_right_ne_nil _ (List.cons_ne_nil _ _)

theorem isBlank_of_cast? {value result : Value} {target : ValueType}
    (cast : value.cast? target = some result) (filled : value.isBlank = false) :
    result.isBlank = false := by
  by_cases typed : target = .unspecified
  · subst typed
    cases cast
    exact filled
  by_cases text : target = .text
  · subst text
    cases cast
    exact (isEmpty_display value).trans filled
  · exact isBlank_of_type (type_of_cast? cast typed ▸ text)

end Value

theorem answerFrom_ok {result value : Value} {type : ValueType}
    (taken : answerFrom result type = .ok (some value)) :
    (type ≠ .unspecified → value.type = type) ∧ value.isBlank = false := by
  rw [answerFrom] at taken
  split at taken
  · cases taken
  next filled =>
    rcases map_eq_ok.mp taken with ⟨cast, done, equal⟩
    cases equal
    rw [Value.cast] at done
    split at done
    next found =>
      cases done
      exact ⟨Value.type_of_cast? found, Value.isBlank_of_cast? found (by simpa using filled)⟩
    · cases done

/-! Facts. -/

def Facts.IsTyped (facts : Facts) : Prop :=
  facts.type ≠ .unspecified → ∀ value ∈ facts.answer, value.type = facts.type

/-- The answer of a node is of its type, and if it is blank, a node of the same name began
with it. -/
structure Facts.IsAnswered (first : Node) (facts : Facts) : Prop where
  typed : facts.IsTyped
  begun : ∀ value ∈ facts.answer, value.isBlank = true →
    ∃ origin ∈ first.contents, origin.name = facts.name ∧ origin.answer = some value

theorem Facts.isTyped_persists : Facts.Persists IsTyped := by
  intro facts source comes typed
  rw [IsTyped, comes.type]
  rcases comes.answer with same | dropped
  · rw [same]
    exact typed
  · rw [dropped]
    exact fun _ _ none => nomatch none

namespace Facts.IsAnswered

variable {first : Node} {facts : Facts}

theorem persists (first : Node) : Facts.Persists (IsAnswered first) := by
  intro facts source comes answered
  refine ⟨isTyped_persists comes answered.typed, ?_⟩
  rw [comes.name]
  rcases comes.answer with same | dropped
  · rw [same]
    exact answered.begun
  · rw [dropped]
    exact fun _ none => nomatch none

theorem of_none (first : Node) (facts : Facts) :
    IsAnswered first { facts with answer := none } :=
  ⟨fun _ _ none => (nomatch none), fun _ none => nomatch none⟩

theorem of_cast (first : Node) (facts : Facts) {result : Value} {current : Option Value}
    (taken : answerFrom result facts.type = .ok current) :
    IsAnswered first { facts with answer := current } := by
  cases current with
  | none => exact of_none first facts
  | some value =>
      rcases answerFrom_ok taken with ⟨typed, filled⟩
      refine ⟨fun specified other same => ?_, fun other same blank => ?_⟩
      · cases same
        exact typed specified
      · cases same
        rw [filled] at blank
        cases blank

theorem of_edit (first : Node) (facts : Facts) {value current : Option Value}
    (cast : Engine.editedAnswer value facts.type = .ok current) :
    IsAnswered first { facts with answer := current } := by
  cases value with
  | none =>
      cases cast
      exact of_none first facts
  | some result => exact of_cast first facts cast

theorem answerAfter (answered : IsAnswered first facts) (result : Value) :
    IsAnswered first { facts with answer := answerAfter facts.type facts.answer result } := by
  rw [ReactiveForm.answerAfter]
  split
  · exact answered
  next current taken =>
    split
    · exact answered
    · exact of_cast first facts taken

end Facts.IsAnswered

/-! Rules. -/

theorem Effect.making_comesOf (settings : Settings) {effect : Effect}
    (silent : effect.writesAnswer = false) (outcome : Except EvaluationError Value) (node : Node) :
    (effect.making settings outcome node).ComesOf node := by
  cases effect with
  | calculate | setValue _ => cases silent
  | required =>
      cases outcome with
      | error _ => exact .refl node
      | ok result =>
          rw [making]
          exact .withFacts ⟨rfl, rfl, rfl, .inl rfl⟩
  | constraint message =>
      rw [making]
      exact .withFacts ⟨rfl, rfl, rfl, .inl rfl⟩
  | relevant =>
      cases outcome with
      | error _ => exact .refl node
      | ok result =>
          rw [making_relevant settings result _ rfl, Node.clearAnswersIf]
          split
          · exact (Node.ComesOf.clearAnswers _).trans (.setRelevant node _)
          · exact .setRelevant node _

theorem Effect.making_isAnswered (settings : Settings) (effect : Effect)
    (outcome : Except EvaluationError Value) {first node : Node}
    (answered : node.Everywhere (Facts.IsAnswered first)) :
    (effect.making settings outcome node).Everywhere (Facts.IsAnswered first) := by
  cases writes : effect.writesAnswer with
  | false =>
      exact answered.comesOf (Facts.IsAnswered.persists first)
        (making_comesOf settings writes outcome node)
  | true =>
      cases outcome with
      | error error =>
          rw [making_of_error (fun message judges => by rw [judges] at writes; cases writes)]
          exact answered
      | ok result =>
          rw [making_of_writes writes]
          exact answered.withFacts fun own => own.answerAfter result

def Change.IsFilled : Change → Prop
  | .answer _ current => ∀ value ∈ current, value.isBlank = false
  | .relevance _ | .required _ | .validity _ | .cleared => True

theorem Deed.isFilled {settings : Settings} {number : Nat} {target : Reference} {node : Node}
    {effect : Effect} {outcome : Except EvaluationError Value} {before after : Pass}
    {more : List Touch}
    (deed : Deed settings number target node before effect outcome after more)
    (filled : ∀ update ∈ before.report.updates, update.change.IsFilled) :
    ∀ update ∈ after.report.updates, update.change.IsFilled := by
  cases deed with
  | idles | repeats => exact filled
  | writes _ taken =>
      refine List.forall_mem_append.mpr ⟨filled, List.forall_mem_singleton.mpr ?_⟩
      rintro value rfl
      exact (answerFrom_ok taken).2
  | relates | requires | judges =>
      exact List.forall_mem_append.mpr ⟨filled, List.forall_mem_singleton.mpr trivial⟩
  | hides =>
      rw [Pass.noteUpdate, report_foldl_noteCleared]
      refine List.forall_mem_append.mpr ⟨List.forall_mem_append.mpr ⟨filled, ?_⟩,
        List.forall_mem_singleton.mpr trivial⟩
      exact List.forall_mem_map.mpr fun _ _ => trivial

structure Pass.IsAnswered (first : Node) (pass : Pass) : Prop where
  tree : pass.tree.root.Everywhere (Facts.IsAnswered first)
  updates : ∀ update ∈ pass.report.updates, update.change.IsFilled

theorem Engine.sustains_isAnswered (engine : Engine) (first : Node) :
    engine.Sustains (fun _ => True) (Pass.IsAnswered first) (fun _ => True) fun _ _ => True := by
  refine ⟨fun _ answered => ⟨answered.tree, answered.updates⟩,
    fun _ _ _ answered => ⟨answered.tree, answered.updates⟩, fun _ _ _ _ _ _ _ _ => trivial,
    fun answered _ _ _ applied => ⟨?_, fun _ _ => trivial⟩⟩
  rcases apply_deed applied with ⟨node, found, deed⟩
  refine ⟨?_, deed.isFilled answered.updates⟩
  rw [deed.tree_eq found]
  exact AnswerTree.everywhere_change answered.tree fun _ _ held =>
    Effect.making_isAnswered _ _ _ held

/-! Forms. -/

namespace Form

variable {form : Form} {request : Request} {first : Node}

theorem prepared_isAnswered (answered : form.tree.root.Everywhere (Facts.IsAnswered first))
    {base : AnswerTree} (prepared : form.prepared request = .ok base) :
    base.root.Everywhere (Facts.IsAnswered first) :=
  prepared_holds answered
    (fun grows => AnswerTree.everywhere_insert (.persists first) answered grows)
    (fun shrinks => AnswerTree.everywhere_remove (.persists first) answered shrinks) prepared

theorem perform_isAnswered (answered : form.tree.root.Everywhere (Facts.IsAnswered first))
    {outcome : Outcome} (done : form.perform request = .ok outcome) :
    outcome.pass.IsAnswered first := by
  rcases perform_sustains_cast (form.engine.sustains_isAnswered first)
    (fun _ _ _ answered => ⟨answered.tree, answered.updates⟩) done with ⟨base, prepared, ends⟩
  have begun := prepared_isAnswered answered prepared
  refine ends ⟨begun, List.forall_mem_nil _⟩ fun reference value node current _ found cast _ => ?_
  constructor
  · refine AnswerTree.everywhere_change begun fun other foundToo held => ?_
    cases found.symm.trans foundToo
    exact held.withFacts fun _ => .of_edit first _ cast
  · refine List.forall_mem_singleton.mpr fun written same => ?_
    cases same
    cases value with
    | none => cases cast
    | some result => exact (answerFrom_ok cast).2

end Form

theorem Definition.tree_typed {definition : Definition} {tree : AnswerTree}
    (described : definition.tree .standard = .ok tree) : tree.root.Everywhere Facts.IsTyped := by
  rcases map_eq_ok.mp described with ⟨root, node, rfl⟩
  have grants : Skeleton.Grants .standard (Node.Everywhere Facts.IsTyped) := by
    refine ⟨fun name multiplicity type value answer constructed => ?_,
      fun typed _ => typed.withFacts fun own => own,
      fun typed below => typed.append Facts.isTyped_persists below⟩
    refine Node.forall_contents_iff.mpr ⟨fun specified held answered => ?_, List.forall_mem_nil _⟩
    cases answered
    cases value with
    | none => cases constructed
    | some written =>
        rcases map_eq_ok.mp constructed with ⟨value, constructed, equal⟩
        cases equal
        rw [Constructors.construct_standard, Value.read] at constructed
        split at constructed
        next read =>
          cases constructed
          exact Value.type_of_read? read specified
        · cases constructed
  have typed := Skeleton.node_granted grants _ node
  exact typed.comesOf Facts.isTyped_persists (.placed _ _)

/-- In every form that a definition makes, with every type reading its own texts, and after
any requests: nodes of some type, templates among them, hold values of that type, and what
is blank, a node of the same name began with. Whatever is asked next, no blank text is
written. -/
theorem Definition.reached_answers_typed {definition : Definition} {settings : Settings}
    {material : Material} {evaluator : Evaluator} {form : Form}
    (made : definition.material .standard settings = .ok material)
    (built : Form.build material evaluator none = .ok form) {current : Form}
    (reached : form.Reached current) :
    (∀ facts ∈ current.tree.root.contents, facts.IsAnswered form.tree.root) ∧
    ∀ request outcome, current.perform request = .ok outcome →
      ∀ update ∈ outcome.report.updates, update.change.IsFilled := by
  have answered : current.tree.root.Everywhere (Facts.IsAnswered form.tree.root) := by
    induction reached with
    | start =>
        rcases Form.build_iff.mp built with ⟨-, dependencies, -, rfl⟩
        intro facts member
        have typed := tree_typed (material_ok made).1 facts member
        exact ⟨typed, fun value held _ => ⟨facts, member, rfl, held⟩⟩
    | perform _ done induction => exact (Form.perform_isAnswered induction done).tree
    | evaluate _ _ induction => exact induction
  exact ⟨answered, fun request outcome done => (Form.perform_isAnswered answered done).updates⟩

/-- The weight of a box is given as a text. What the box holds after that is a decimal. -/
theorem weighed_answers_typed : ∃ material form filled outcome facts,
    Order.weighed.material .standard .standard = .ok material ∧
    Form.build material (Expression.evaluator .startOf2020) none = .ok form ∧
    form.perform (.insertMember (.root "data") "box" 0) = .ok filled ∧
    filled.form.perform (.setAnswer (((Reference.root "data").child "box" (.index 0)).child
      "weight" (.index 0)) (some (.text " 3 "))) = .ok outcome ∧
    facts ∈ outcome.form.tree.root.contents ∧ facts.name = "weight" ∧
    facts.multiplicity = .index 0 ∧ facts.answer = some (.decimal 3.0) ∧
    facts.IsAnswered form.tree.root ∧
    ∀ update ∈ outcome.report.updates, update.change.IsFilled := by
  have ready : (Order.weighed.material .standard .standard).toOption.any (fun material =>
      (Form.build material (Expression.evaluator .startOf2020) none).toOption.any fun form =>
        (form.perform (.insertMember (.root "data") "box" 0)).toOption.any fun filled =>
          (filled.form.perform (.setAnswer (((Reference.root "data").child "box" (.index 0)).child
            "weight" (.index 0)) (some (.text " 3 ")))).toOption.any fun outcome =>
              outcome.form.tree.root.contents.any fun facts => decide (facts.name = "weight" ∧
                facts.multiplicity = .index 0 ∧ facts.answer = some (.decimal 3.0))) = true := by
    decide +kernel
  rcases exists_ok_of_any ready with ⟨material, made, ready⟩
  rcases exists_ok_of_any ready with ⟨form, built, ready⟩
  rcases exists_ok_of_any ready with ⟨filled, inserted, ready⟩
  rcases exists_ok_of_any ready with ⟨outcome, set, ready⟩
  rcases List.any_eq_true.mp ready with ⟨facts, member, ready⟩
  rcases of_decide_eq_true ready with ⟨name, multiplicity, answer⟩
  have before : form.Reached filled.form := Form.Reached.start.perform inserted
  refine ⟨material, form, filled, outcome, facts, made, built, inserted, set, member, name,
    multiplicity, answer, ?_, ?_⟩
  · exact (Definition.reached_answers_typed made built (before.perform set)).1 facts member
  · exact (Definition.reached_answers_typed made built before).2 _ _ set

end ReactiveForm
