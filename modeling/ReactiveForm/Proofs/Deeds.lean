import ReactiveForm.Proofs.Outline
import ReactiveForm.Recalculation.Firing

/-! What a rule can do at a target, said once. Its work there is one of a few deeds:
each says by which outcome it is done, what becomes of the tree, what is reported and
told of it, and what was touched. Or else the rule refuses, for one of a few reasons. -/

namespace ReactiveForm

/-- A node holds what a rule with this outcome puts there: the outcome cast to
the type of the node and nothing if it is blank, or the truth of the outcome,
or the verdict on the answer. -/
def Effect.Settled (effect : Effect) (facts : Facts)
    (outcome : Except EvaluationError Value) : Prop :=
  match effect with
  | .calculate | .setValue _ =>
      ∃ result current, outcome = .ok result ∧ answerFrom result facts.type = .ok current ∧
        sameAnswer facts.answer current = true
  | .relevant => ∃ result, outcome = .ok result ∧ facts.relevant = result.truth
  | .required => ∃ result, outcome = .ok result ∧ facts.required = result.truth
  | .constraint message => facts.validity = verdict facts.answer message outcome

theorem Effect.settled_of_writes {effect : Effect} (writes : effect.writesAnswer = true)
    {facts : Facts} {result : Value} {current : Option Value}
    (cast : answerFrom result facts.type = .ok current)
    (same : sameAnswer facts.answer current = true) : effect.Settled facts (.ok result) := by
  cases effect with
  | calculate | setValue _ => exact ⟨result, current, rfl, cast, same⟩
  | relevant | required | constraint _ => cases writes

inductive Deed (settings : Settings) (number : Nat) (target : Reference) (node : Node)
    (before : Pass) : Effect → Except EvaluationError Value → Pass → List Touch → Prop where
  | idles {effect : Effect} {outcome : Except EvaluationError Value}
      (silent : effect ≠ .relevant) (settled : effect.Settled node.facts outcome) :
      Deed settings number target node before effect outcome before []
  | writes {effect : Effect} (writes : effect.writesAnswer = true) {result : Value}
      {current : Option Value} (cast : answerFrom result node.facts.type = .ok current)
      (differs : sameAnswer node.facts.answer current = false) :
      Deed settings number target node before effect (.ok result)
        ((({ before with
            tree := before.tree.changeFacts target ({ · with answer := current }) } : Pass).tell
          (.recalculated target (current.map fun _ => result.display))).noteUpdate (some number)
            target (.answer node.facts.answer current))
        [.answer target]
  /-- The node's relevance stays, and all below is told of it again. -/
  | repeats {result : Value} (same : node.facts.relevant = result.truth) :
      Deed settings number target node before .relevant (.ok result)
        { before with tree := before.tree.change target (·.setRelevant result.truth) } []
  /-- The node's relevance changes, and no answer is dropped. -/
  | relates {result : Value} (differs : node.facts.relevant ≠ result.truth)
      (keeps : settings.hiddenAnswers = .clear → result.truth = true) :
      Deed settings number target node before .relevant (.ok result)
        (({ before with tree := before.tree.change target (·.setRelevant result.truth) } :
          Pass).noteUpdate (some number) target (.relevance result.truth))
        [.state target]
  /-- The node is hidden, and answers are dropped. -/
  | hides {result : Value} (clears : settings.hiddenAnswers = .clear)
      (isHidden : result.truth = false) (wasShown : node.facts.relevant = true) :
      Deed settings number target node before .relevant (.ok result)
        (let hidden := (before.tree.change target (·.setRelevant false)).clear target
        (hidden.2.foldl (noteCleared number) { before with tree := hidden.1 }).noteUpdate
          (some number) target (.relevance false))
        (.state target ::
          ((before.tree.change target (·.setRelevant false)).clear target).2.map .answer)
  | requires {result : Value} (differs : node.facts.required ≠ result.truth) :
      Deed settings number target node before .required (.ok result)
        (({ before with
            tree := before.tree.changeFacts target ({ · with required := result.truth }) } :
          Pass).noteUpdate (some number) target (.required result.truth))
        [.state target]
  | judges {message : Option String} {outcome : Except EvaluationError Value}
      (differs : node.facts.validity ≠ verdict node.facts.answer message outcome) :
      Deed settings number target node before (.constraint message) outcome
        (let validity := verdict node.facts.answer message outcome
        ({ before with tree := before.tree.changeFacts target ({ · with validity }) } :
          Pass).noteUpdate (some number) target (.validity validity))
        [.state target]

/-- Why a rule does nothing at a target. -/
inductive Refusal (tree : AnswerTree) (target : Reference) :
    Effect → Except EvaluationError Value → String → Prop where
  | vanished {effect : Effect} {outcome : Except EvaluationError Value}
      (missing : tree.find? target = none) :
      Refusal tree target effect outcome (vanished target)
  | fails {node : Node} (found : tree.find? target = some node) {effect : Effect}
      (unjudged : ∀ message, effect ≠ .constraint message) (error : EvaluationError) :
      Refusal tree target effect (.error error) error.message
  | misfits {node : Node} (found : tree.find? target = some node) {effect : Effect}
      (writes : effect.writesAnswer = true) {result : Value} {error : ValueError}
      (uncast : answerFrom result node.facts.type = .error error) :
      Refusal tree target effect (.ok result) error.message

section Target

variable {settings : Settings} {number : Nat} {target : Reference} {node : Node}
  {effect : Effect} {outcome : Except EvaluationError Value} {before after : Pass}
  {more : List Touch} {reason : String}

theorem writeAnswer_deed (writes : effect.writesAnswer = true)
    (written : writeAnswer before number target node outcome = .ok (after, more)) :
    Deed settings number target node before effect outcome after more := by
  rcases bind_eq_ok.mp written with ⟨result, evaluated, rest⟩
  rcases bind_eq_ok.mp rest with ⟨current, cast, work⟩
  cases mapError_eq_ok.mp evaluated
  have cast := mapError_eq_ok.mp cast
  split at work
  next same =>
    cases work
    refine .idles (fun relates => ?_) (Effect.settled_of_writes writes cast same)
    rw [relates] at writes
    cases writes
  next differs =>
    cases work
    exact .writes writes cast (Bool.eq_false_iff.mpr differs)

theorem writeAnswer_refusal (found : before.tree.find? target = some node)
    (writes : effect.writesAnswer = true)
    (refused : writeAnswer before number target node outcome = .error reason) :
    Refusal before.tree target effect outcome reason := by
  cases outcome with
  | error error =>
      cases refused
      refine .fails found (fun message judges => ?_) error
      rw [judges] at writes
      cases writes
  | ok result =>
      change ((answerFrom result node.facts.type).mapError ValueError.message).bind _ = _ at refused
      cases cast : answerFrom result node.facts.type with
      | error error =>
          rw [cast] at refused
          cases refused
          exact .misfits found writes cast
      | ok current =>
          rw [cast] at refused
          change (if sameAnswer node.facts.answer current = true then _ else _) = _ at refused
          split at refused <;> cases refused

theorem writeRelevance_deed
    (written : writeRelevance settings before number target node outcome = .ok (after, more)) :
    Deed settings number target node before .relevant outcome after more := by
  rcases bind_eq_ok.mp written with ⟨result, evaluated, work⟩
  cases mapError_eq_ok.mp evaluated
  dsimp only at work
  split at work
  next same =>
    cases work
    exact .repeats same
  next differs =>
    split at work
    next hides =>
      rcases (Bool.and_eq_true _ _).mp hides with ⟨hidden, clears⟩
      rw [Bool.not_eq_true'] at hidden
      rw [hidden] at work differs
      cases work
      exact .hides (of_decide_eq_true clears) hidden (Bool.ne_false_iff.mp differs)
    next stays =>
      cases work
      refine .relates differs fun clears => ?_
      simpa [clears] using stays

theorem writeRelevance_refusal (found : before.tree.find? target = some node)
    (refused : writeRelevance settings before number target node outcome = .error reason) :
    Refusal before.tree target .relevant outcome reason := by
  cases outcome with
  | error error =>
      cases refused
      exact .fails found (fun _ => Effect.noConfusion) error
  | ok result =>
      change (if node.facts.relevant = result.truth then _ else if _ then _ else _) = _ at refused
      split at refused
      · cases refused
      · split at refused <;> cases refused

theorem writeRequired_deed
    (written : writeRequired before number target node outcome = .ok (after, more)) :
    Deed settings number target node before .required outcome after more := by
  rcases bind_eq_ok.mp written with ⟨result, evaluated, work⟩
  cases mapError_eq_ok.mp evaluated
  dsimp only at work
  split at work
  next same =>
    cases work
    exact .idles Effect.noConfusion ⟨result, rfl, same⟩
  next differs =>
    cases work
    exact .requires differs

theorem writeRequired_refusal (found : before.tree.find? target = some node)
    (refused : writeRequired before number target node outcome = .error reason) :
    Refusal before.tree target .required outcome reason := by
  cases outcome with
  | error error =>
      cases refused
      exact .fails found (fun _ => Effect.noConfusion) error
  | ok result =>
      change (if node.facts.required = result.truth then _ else _) = _ at refused
      split at refused <;> cases refused

theorem writeValidity_deed {message : Option String}
    (written : writeValidity before number target node message outcome = .ok (after, more)) :
    Deed settings number target node before (.constraint message) outcome after more := by
  rw [writeValidity] at written
  dsimp only at written
  split at written
  next same =>
    cases written
    exact .idles Effect.noConfusion same
  next differs =>
    cases written
    exact .judges differs

theorem writeValidity_ne_error {message : Option String} :
    writeValidity before number target node message outcome ≠ .error reason := by
  rw [writeValidity]
  dsimp only
  split <;> exact fun refused => nomatch refused

namespace Engine

variable {engine : Engine}

theorem apply_deed
    (applied : engine.apply before number effect target outcome = .ok (after, more)) :
    ∃ node, before.tree.find? target = some node ∧
      Deed engine.settings number target node before effect outcome after more := by
  rw [Engine.apply] at applied
  cases found : before.tree.find? target with
  | none =>
      rw [found] at applied
      cases applied
  | some node =>
      rw [found] at applied
      refine ⟨node, rfl, ?_⟩
      cases effect with
      | calculate => exact writeAnswer_deed rfl applied
      | setValue occasion => exact writeAnswer_deed rfl applied
      | relevant => exact writeRelevance_deed applied
      | required => exact writeRequired_deed applied
      | constraint message => exact writeValidity_deed applied

theorem apply_refusal
    (refused : engine.apply before number effect target outcome = .error reason) :
    Refusal before.tree target effect outcome reason := by
  rw [Engine.apply] at refused
  cases found : before.tree.find? target with
  | none =>
      rw [found] at refused
      cases refused
      exact .vanished found
  | some node =>
      rw [found] at refused
      cases effect with
      | calculate => exact writeAnswer_refusal found rfl refused
      | setValue occasion => exact writeAnswer_refusal found rfl refused
      | relevant => exact writeRelevance_refusal found refused
      | required => exact writeRequired_refusal found refused
      | constraint message => exact absurd refused writeValidity_ne_error

end Engine

end Target

end ReactiveForm
