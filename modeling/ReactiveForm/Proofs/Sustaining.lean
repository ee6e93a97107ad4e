import ReactiveForm.Proofs.SeriesEdits

/-! What every act of a pass leaves as it is, the whole pass leaves. A pass fires
rules at targets that lie near what was touched before; so a property of passes is
shown for one rule at one target, together with where that rule may act and what it
touches there, and it is carried from there through every operation. -/

namespace ReactiveForm

theorem forall_anchorsOr {within : Reference → Prop} {origin : Reference} (begun : within origin)
    {touched : List Touch} (inside : ∀ touch ∈ touched, within touch.reference) (rule : Rule) :
    ∀ anchor ∈ anchorsOr origin rule touched, within anchor := by
  rw [anchorsOr]
  split
  · exact List.forall_mem_singleton.mpr begun
  · intro anchor member
    rcases List.mem_map.mp member with ⟨touch, inTouched, rfl⟩
    exact inside touch (List.mem_filter.mp inTouched).1

theorem forall_state {within : Reference → Prop} {places : List Reference}
    (inside : ∀ place ∈ places, within place) :
    ∀ touch ∈ places.map Touch.state, within touch.reference := by
  intro touch member
  rcases List.mem_map.mp member with ⟨place, inPlaces, rfl⟩
  exact inside place inPlaces

section Inside

variable {within : Reference → Prop}
  (child : ∀ {reference : Reference} (name : String) {multiplicity : Multiplicity},
    within reference → multiplicity ≠ .template → within (reference.child name multiplicity))

include child in
theorem Node.forall_references (node : Node) {place : Reference} (inside : within place) :
    ∀ reference ∈ node.references place, within reference := by
  induction node using Node.induct generalizing place with
  | step facts children induction =>
      have below : ∀ nodes : List Node, nodes ⊆ children →
          ∀ reference ∈ Node.referencesUnder place nodes, within reference := by
        intro nodes
        induction nodes with
        | nil => exact fun _ _ member => nomatch member
        | cons node rest inner =>
            intro subset reference member
            rcases List.cons_subset.mp subset with ⟨inChildren, others⟩
            rw [Node.referencesUnder] at member
            split at member
            · exact inner others reference member
            next live =>
              have lower : within (place.child node.facts.name node.facts.multiplicity) :=
                child _ inside (by simpa [Node.isTemplate] using live)
              rcases List.mem_append.mp member with here | later
              · exact induction node inChildren lower reference here
              · exact inner others reference later
      intro reference member
      rw [Node.references] at member
      cases List.mem_cons.mp member with
      | inl here =>
          rw [here]
          exact inside
      | inr lower => exact below children (List.Subset.refl _) reference lower

include child in
theorem AnswerTree.forall_referencesFrom (tree : AnswerTree) {place : Reference}
    (inside : within place) : ∀ reference ∈ tree.referencesFrom place, within reference := by
  intro reference member
  rw [AnswerTree.referencesFrom] at member
  split at member
  · cases member
  next node _ => exact node.forall_references child inside reference member

end Inside

namespace Engine

/-! Changing an answer. -/

section Edit

variable {engine : Engine} {tree : AnswerTree} {reference : Reference} {value : Option Value}

theorem setAnswer_of_found (outside : reference.entersTemplate = false) {node : Node}
    (found : tree.find? reference = some node) {current : Option Value}
    (cast : editedAnswer value node.facts.type = .ok current) :
    engine.setAnswer tree reference value =
      .ok (if sameAnswer node.facts.answer current then .start tree
        else (engine.propagate [.answer reference] []
          (edited tree reference node.facts.answer current)).1) := by
  simp only [setAnswer, outside, found, cast, Bool.false_eq_true, if_false]
  split <;> rfl

theorem exists_of_setAnswer {after : Pass}
    (done : engine.setAnswer tree reference value = .ok after) :
    reference.entersTemplate = false ∧ ∃ node current, tree.find? reference = some node ∧
      editedAnswer value node.facts.type = .ok current ∧
      after = if sameAnswer node.facts.answer current then .start tree
        else (engine.propagate [.answer reference] []
          (edited tree reference node.facts.answer current)).1 := by
  cases outside : reference.entersTemplate with
  | true => simp [setAnswer, outside] at done
  | false =>
      cases found : tree.find? reference with
      | none => simp [setAnswer, outside, found] at done
      | some node =>
          cases cast : editedAnswer value node.facts.type with
          | error _ => simp [setAnswer, outside, found, cast] at done
          | ok current =>
              rw [setAnswer_of_found outside found cast] at done
              exact ⟨rfl, node, current, rfl, cast, (Except.ok.inj done).symm⟩

end Edit

/-! Changes of series. -/

/-- A property of passes is left by whatever a change of a series leads to within some
places: a rule that waits for no answer fires for a new member, nodes have moved, or what
has fired is summed up. -/
structure Carries (engine : Engine) (holds : Pass → Prop) (within : Reference → Prop) : Prop where
  child : ∀ {reference : Reference} (name : String) {multiplicity : Multiplicity},
    within reference → multiplicity ≠ .template → within (reference.child name multiplicity)
  fires : ∀ {pass : Pass} {number : Nat} {rule : Rule} {member : Reference},
    engine.rulebook.rule? number = some rule → rule.waitsForAnswer = false → within member →
    holds pass → holds (engine.fire number rule [member] pass).1
  spreads : ∀ {pass : Pass} {places : List Reference} (fired : List Nat),
    (∀ place ∈ places, within place) → holds pass →
    holds (engine.propagate (places.map .state) fired pass).1
  told : ∀ {pass : Pass} (change : SeriesChange) (reference : Reference) (fired : Nat),
    holds pass → holds (pass.tell (.summary change reference fired))

namespace Carries

variable {engine : Engine} {holds : Pass → Prop} {within : Reference → Prop}

theorem summarize (carries : engine.Carries holds within) (change : SeriesChange)
    (reference : Reference) (fired : Nat) {pass : Pass} (held : holds pass) :
    holds (engine.summarize change reference fired pass) := by
  rw [Engine.summarize]
  split
  · exact carries.told change reference fired held
  · exact held

theorem foldl_fireForMember (carries : engine.Carries holds within) {member : Reference}
    (inside : within member) (numbers : List Nat) {progress : Pass × List Nat}
    (held : holds progress.1) : holds (numbers.foldl (engine.fireForMember member) progress).1 := by
  induction numbers generalizing progress with
  | nil => exact held
  | cons number numbers induction =>
      apply induction
      rw [fireForMember]
      split
      · exact held
      next entered =>
        split
        next fills =>
          rcases (Bool.and_eq_true _ _).mp fills with ⟨always, -⟩
          exact carries.fires entered (Bool.not_eq_true' _ ▸ always) inside held
        · exact held

theorem repairNode (carries : engine.Carries holds within) (change : SeriesChange)
    {progress : Pass × List Nat} (held : holds progress.1) {reference : Reference}
    (inside : within reference) : holds (engine.repairNode change progress reference).1 := by
  apply carries.summarize
  exact carries.spreads progress.2 (List.forall_mem_singleton.mpr inside) held

theorem foldl_repairNode (carries : engine.Carries holds within) (change : SeriesChange)
    {places : List Reference} (inside : ∀ place ∈ places, within place)
    {progress : Pass × List Nat} (held : holds progress.1) :
    holds (places.foldl (engine.repairNode change) progress).1 := by
  induction places generalizing progress with
  | nil => exact held
  | cons place places induction =>
      rcases List.forall_mem_cons.mp inside with ⟨first, rest⟩
      exact induction rest (carries.repairNode change held first)

theorem childReferences (carries : engine.Carries holds within) (tree : AnswerTree)
    {member : Reference} (inside : within member) :
    ∀ place ∈ childReferences tree member, within place := by
  intro place member
  rw [Engine.childReferences] at member
  split at member
  · cases member
  · rcases List.mem_map.mp member with ⟨lower, inChildren, rfl⟩
    have live := (List.mem_filter.mp inChildren).2
    exact carries.child _ inside (by simpa [Node.isTemplate] using live)

theorem repairMember (carries : engine.Carries holds within) (change : SeriesChange)
    {pass : Pass} (held : holds pass) {member : Reference} (inside : within member) :
    holds (engine.repairMember change pass member) := by
  apply carries.foldl_repairNode change (carries.childReferences _ inside)
  exact carries.repairNode change held inside

theorem repairMembers (carries : engine.Carries holds within) (change : SeriesChange)
    {parent : Reference} (inside : within parent) (name : String) (first beyond : Nat)
    {pass : Pass} (held : holds pass) :
    holds (engine.repairMembers change parent name first beyond pass) := by
  rw [Engine.repairMembers]
  generalize List.range' first (beyond - first) = positions
  induction positions generalizing pass with
  | nil => exact held
  | cons position positions induction =>
      apply induction
      exact carries.repairMember change held (carries.child name inside Multiplicity.noConfusion)

/-! Operations on series. -/

theorem insertMember (carries : engine.Carries holds within) {tree grown : AnswerTree}
    {parent inserted result : Reference} {name : String} {position : Nat} {after : Pass}
    (grows : tree.insert parent name position = .ok (grown, inserted))
    (held : holds (.start grown)) (inside : within parent) (insideToo : within inserted)
    (done : engine.insertMember tree parent name position = .ok (after, result)) :
    holds after := by
  rw [Engine.insertMember, grows] at done
  split at done
  · cases done
  · cases done
    have begun : holds
        (engine.dependencies.order.foldl (engine.fireForMember inserted) (.start grown, [])).1 :=
      carries.foldl_fireForMember insideToo engine.dependencies.order held
    apply carries.spreads []
    · exact AnswerTree.forall_referencesFrom carries.child _ insideToo
    · apply carries.repairMembers _ inside
      exact carries.summarize _ _ _ begun

theorem afterRemoval (carries : engine.Carries holds within) {tree : AnswerTree}
    (held : holds (.start tree)) {parent : Reference} (inside : within parent)
    {reference : Option Reference} (insideToo : ∀ place ∈ reference, within place)
    {removed : Node} {after : Pass}
    (done : engine.afterRemoval tree reference parent removed = .ok after) : holds after := by
  rw [Engine.afterRemoval] at done
  split at done
  next position _ =>
    split at done
    · cases done
    next node _ =>
      have repaired := carries.repairMembers .deleted inside removed.facts.name position
        (node.memberCount removed.facts.name) held
      cases reference with
      | none =>
          cases done
          exact repaired
      | some place =>
          cases done
          exact carries.spreads [] (removed.forall_references carries.child (insideToo place rfl))
            repaired
  next => cases done

end Carries

/-! Rules that stay within some places. -/

def Confines (engine : Engine) (among : Nat → Prop) (holds : Pass → Prop)
    (within : Reference → Prop) : Prop :=
  ∀ ⦃pass : Pass⦄ ⦃number : Nat⦄ ⦃rule : Rule⦄ ⦃anchors : List Reference⦄, among number →
    engine.rulebook.rule? number = some rule → anchors ≠ [] →
    (∀ anchor ∈ anchors, within anchor) → holds pass →
    holds (engine.fire number rule anchors pass).1 ∧
      ∀ touch ∈ (engine.fire number rule anchors pass).2, within touch.reference

namespace Confines

variable {engine : Engine} {among : Nat → Prop} {holds : Pass → Prop} {within : Reference → Prop}
  {number : Nat}

theorem turn (confines : engine.Confines among holds within) (included : among number)
    {origin : Reference} (begun : within origin) {spread : Spread} (held : holds spread.pass)
    (touched : ∀ touch ∈ spread.touched, within touch.reference) :
    holds (engine.turn origin spread number).pass ∧
      ∀ touch ∈ (engine.turn origin spread number).touched, within touch.reference := by
  rcases engine.turn_cases origin spread number with ⟨same, -⟩ | ⟨rule, -, entered, -, turned⟩
  · rw [same]
    exact ⟨held, touched⟩
  · have inside := forall_anchorsOr begun touched rule
    rcases confines included entered anchorsOr_ne_nil inside held with ⟨kept, reached⟩
    rw [turned]
    exact ⟨kept, List.forall_mem_append.mpr ⟨touched, reached⟩⟩

theorem foldl_turn (confines : engine.Confines among holds within) {numbers : List Nat}
    (included : ∀ number ∈ numbers, among number) {origin : Reference} (begun : within origin)
    {spread : Spread} (held : holds spread.pass)
    (touched : ∀ touch ∈ spread.touched, within touch.reference) :
    holds (numbers.foldl (engine.turn origin) spread).pass ∧
      ∀ touch ∈ (numbers.foldl (engine.turn origin) spread).touched, within touch.reference := by
  induction numbers generalizing spread with
  | nil => exact ⟨held, touched⟩
  | cons number numbers induction =>
      rcases List.forall_mem_cons.mp included with ⟨first, rest⟩
      rcases confines.turn first begun held touched with ⟨kept, reached⟩
      exact induction rest kept reached

theorem propagate (confines : engine.Confines among holds within) {changes : List Touch}
    (included : ∀ number ∈
      engine.dependencies.affectedBy (engine.directlyTriggered changes), among number)
    (inside : ∀ touch ∈ changes, within touch.reference) (fired : List Nat) {pass : Pass}
    (held : holds pass) : holds (engine.propagate changes fired pass).1 := by
  cases changes with
  | nil => exact held
  | cons first changes =>
      exact (confines.foldl_turn included (inside first List.mem_cons_self) held inside).1

theorem setAnswer (confines : engine.Confines among holds within) {tree : AnswerTree}
    {reference : Reference} {value : Option Value} {after : Pass}
    (done : engine.setAnswer tree reference value = .ok after)
    (included : ∀ number ∈
      engine.dependencies.affectedBy (engine.directlyTriggered [.answer reference]), among number)
    (held : holds (.start tree))
    (heldToo : ∀ node current, tree.find? reference = some node →
      editedAnswer value node.facts.type = .ok current →
      sameAnswer node.facts.answer current = false →
      holds (edited tree reference node.facts.answer current))
    (inside : within reference) : holds after := by
  rcases exists_of_setAnswer done with ⟨-, node, current, found, cast, rfl⟩
  split
  · exact held
  next differs =>
    have begun := heldToo node current found cast (by simpa using differs)
    exact confines.propagate included (List.forall_mem_singleton.mpr inside) [] begun

theorem carries (confines : engine.Confines (fun _ => True) holds within)
    (told : ∀ {pass : Pass} (change : SeriesChange) (reference : Reference) (fired : Nat),
      holds pass → holds (pass.tell (.summary change reference fired)))
    (child : ∀ {reference : Reference} (name : String) {multiplicity : Multiplicity},
      within reference → multiplicity ≠ .template → within (reference.child name multiplicity)) :
    engine.Carries holds within :=
  ⟨child, fun entered _ inside held => (confines trivial entered (List.cons_ne_nil _ _)
      (List.forall_mem_singleton.mpr inside) held).1,
    fun fired inside held =>
      confines.propagate (fun _ _ => trivial) (forall_state inside) fired held,
    told⟩

end Confines

theorem foldl_fireInitially {engine : Engine} {holds : Pass → Prop} {numbers : List Nat}
    (fires : ∀ {pass : Pass} {number : Nat} {rule : Rule}, number ∈ numbers →
      engine.rulebook.rule? number = some rule → holds pass →
      holds (engine.fire number rule [] pass).1) {pass : Pass} (held : holds pass) :
    holds (numbers.foldl engine.fireInitially pass) := by
  refine List.foldlRecOn numbers _ held fun pass held number member => ?_
  rw [fireInitially]
  split
  · exact held
  next entered =>
    split
    · exact held
    · exact fires member entered held

/-! Passes. -/

/-- Some rules leave a property of passes. Fired for what was touched within some
places, they act on nothing but what they aim at, and touch nothing outside of these
places. -/
structure Sustains (engine : Engine) (among : Nat → Prop) (holds : Pass → Prop)
    (within : Reference → Prop) (aims : Rule → Reference → Prop) : Prop where
  fired : ∀ {pass : Pass} {number : Nat}, among number → holds pass →
    holds (pass.noteFired number)
  failed : ∀ {pass : Pass} (number : Nat) (target : Reference) (reason : String), holds pass →
    holds (pass.noteFailure number target reason)
  targets : ∀ {pass : Pass} {number : Nat} {rule : Rule} {anchors found : List Reference},
    holds pass → among number → engine.rulebook.rule? number = some rule → anchors ≠ [] →
    (∀ anchor ∈ anchors, within anchor) → targets pass.tree rule anchors = .ok found →
    ∀ target ∈ found, aims rule target
  applied : ∀ {before after : Pass} {number : Nat} {rule : Rule} {target : Reference}
    {outcome : Except EvaluationError Value} {more : List Touch}, holds before → among number →
    engine.rulebook.rule? number = some rule → aims rule target →
    engine.apply before number rule.effect target outcome = .ok (after, more) →
    holds after ∧ ∀ touch ∈ more, within touch.reference

def AimsEverywhere (engine : Engine) (among : Nat → Prop) (holds : Pass → Prop)
    (aims : Rule → Reference → Prop) : Prop :=
  ∀ {pass : Pass} {number : Nat} {rule : Rule} {found : List Reference}, holds pass →
    among number → engine.rulebook.rule? number = some rule →
    targets pass.tree rule [] = .ok found → ∀ target ∈ found, aims rule target

namespace Sustains

variable {engine : Engine} {among : Nat → Prop} {holds : Pass → Prop} {within : Reference → Prop}
  {aims : Rule → Reference → Prop} {number : Nat} {rule : Rule}

/-! Firing. -/

theorem fireAt (sustains : engine.Sustains among holds within aims) (included : among number)
    (entered : engine.rulebook.rule? number = some rule) {progress : Pass × List Touch}
    {target : Reference} (held : holds progress.1)
    (touched : ∀ touch ∈ progress.2, within touch.reference) (aimed : aims rule target) :
    holds (engine.fireAt number rule progress target).1 ∧
      ∀ touch ∈ (engine.fireAt number rule progress target).2, within touch.reference := by
  rw [Engine.fireAt]
  split
  next after more applied =>
    rcases sustains.applied held included entered aimed applied with ⟨kept, reached⟩
    exact ⟨kept, List.forall_mem_append.mpr ⟨touched, reached⟩⟩
  next reason _ => exact ⟨sustains.failed number target reason held, touched⟩

theorem foldl_fireAt (sustains : engine.Sustains among holds within aims)
    (included : among number) (entered : engine.rulebook.rule? number = some rule)
    {found : List Reference} (aimed : ∀ target ∈ found, aims rule target)
    {progress : Pass × List Touch} (held : holds progress.1)
    (touched : ∀ touch ∈ progress.2, within touch.reference) :
    holds (found.foldl (engine.fireAt number rule) progress).1 ∧
      ∀ touch ∈ (found.foldl (engine.fireAt number rule) progress).2, within touch.reference := by
  induction found generalizing progress with
  | nil => exact ⟨held, touched⟩
  | cons target found induction =>
      rcases List.forall_mem_cons.mp aimed with ⟨first, rest⟩
      rcases sustains.fireAt included entered held touched first with ⟨kept, reached⟩
      exact induction rest kept reached

theorem fire (sustains : engine.Sustains among holds within aims) (included : among number)
    (entered : engine.rulebook.rule? number = some rule) {anchors : List Reference} {pass : Pass}
    (held : holds pass)
    (aimed : ∀ found, Engine.targets pass.tree rule anchors = .ok found →
      ∀ target ∈ found, aims rule target) :
    holds (engine.fire number rule anchors pass).1 ∧
      ∀ touch ∈ (engine.fire number rule anchors pass).2, within touch.reference := by
  have held := sustains.fired included held
  rw [Engine.fire]
  split
  next error _ =>
    exact ⟨sustains.failed number rule.target error.message held, List.forall_mem_nil _⟩
  next found located =>
    exact sustains.foldl_fireAt included entered (aimed found located) held (List.forall_mem_nil _)

theorem confines (sustains : engine.Sustains among holds within aims) :
    engine.Confines among holds within := fun _ _ _ _ included entered nonempty inside held =>
  sustains.fire included entered held fun _ located =>
    sustains.targets held included entered nonempty inside located

/-! Operations. On series any rule may fire, summaries are told, and what is within
reach includes what is below it. -/

section Series

variable (sustains : engine.Sustains (fun _ => True) holds within aims)
  (told : ∀ {pass : Pass} (change : SeriesChange) (reference : Reference) (fired : Nat),
    holds pass → holds (pass.tell (.summary change reference fired)))
  (child : ∀ {reference : Reference} (name : String) {multiplicity : Multiplicity},
    within reference → multiplicity ≠ .template → within (reference.child name multiplicity))

include sustains told child in
theorem insertMember {tree grown : AnswerTree} {parent inserted result : Reference}
    {name : String} {position : Nat} {after : Pass}
    (grows : tree.insert parent name position = .ok (grown, inserted))
    (held : holds (.start grown)) (inside : within parent) (insideToo : within inserted)
    (done : engine.insertMember tree parent name position = .ok (after, result)) :
    holds after :=
  (sustains.confines.carries told child).insertMember grows held inside insideToo done

include sustains told child in
theorem afterRemoval {tree : AnswerTree} (held : holds (.start tree)) {parent : Reference}
    (inside : within parent) {reference : Option Reference}
    (insideToo : ∀ place ∈ reference, within place) {removed : Node} {after : Pass}
    (done : engine.afterRemoval tree reference parent removed = .ok after) : holds after :=
  (sustains.confines.carries told child).afterRemoval held inside insideToo done

end Series

theorem foldl_fireInitially (sustains : engine.Sustains among holds within aims)
    (everywhere : engine.AimsEverywhere among holds aims) {numbers : List Nat}
    (included : ∀ number ∈ numbers, among number) {pass : Pass} (held : holds pass) :
    holds (numbers.foldl engine.fireInitially pass) := by
  refine Engine.foldl_fireInitially (fun member entered held => ?_) held
  exact (sustains.fire (included _ member) entered held fun _ =>
    everywhere held (included _ member) entered).1

theorem initial (sustains : engine.Sustains among holds within aims)
    (everywhere : engine.AimsEverywhere among holds aims)
    (included : ∀ number ∈ engine.dependencies.order, among number) {tree : AnswerTree}
    (held : holds (.start tree)) : holds (engine.initial tree) :=
  sustains.foldl_fireInitially everywhere included held

theorem setAnswer (sustains : engine.Sustains among holds within aims) {tree : AnswerTree}
    {reference : Reference} {value : Option Value} {after : Pass}
    (done : engine.setAnswer tree reference value = .ok after)
    (included : ∀ number ∈
      engine.dependencies.affectedBy (engine.directlyTriggered [.answer reference]), among number)
    (held : holds (.start tree))
    (heldToo : ∀ node current, tree.find? reference = some node →
      sameAnswer node.facts.answer current = false →
      holds (edited tree reference node.facts.answer current))
    (inside : within reference) : holds after :=
  sustains.confines.setAnswer done included held
    (fun node current found _ => heldToo node current found) inside

end Sustains

end Engine

end ReactiveForm
