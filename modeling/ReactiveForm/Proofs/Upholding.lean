import ReactiveForm.Proofs.Dropping
import ReactiveForm.Proofs.FiringOrder

/-! What a pass upholds. If every act of some rules leaves a property of passes,
then so does a whole pass in which only these rules fire, whether or not rules
fail on the way. Which rules fire when an answer changes is known: those that
read it, and whatever they lead to. -/

namespace ReactiveForm

/-! The rules that a change reaches. -/

namespace Dependencies

variable {dependencies : Dependencies} {book : Rulebook} {seeds : List Nat}

theorem Orders.exists_seed (orders : dependencies.Orders book) :
    ∀ number ∈ dependencies.affectedBy seeds,
      ∃ seed ∈ seeds, Relation.ReflTransGen book.Feeds seed number := by
  intro number affected
  rcases mem_affectedBy_iff.mp affected with ⟨seed, isSeed, path⟩
  exact ⟨seed, isSeed, Relation.ReflTransGen.mono (fun _ _ => orders.mem_successorsOf.mp) _ _ path⟩

end Dependencies

namespace Engine

/-- How the rules of an engine hang together, whatever evaluates them and
whatever becomes of hidden answers. -/
structure IsWired (engine : Engine) : Prop where
  bound : ∀ {number : Nat} {rule : Rule}, engine.rulebook.rule? number = some rule → rule.IsBound
  indexed : engine.rulebook.IsIndexed
  orders : engine.dependencies.Orders engine.rulebook

variable {engine : Engine}

theorem IsWired.exists_reader (wired : engine.IsWired) {reference : Reference} {number : Nat}
    (affected : number ∈
      engine.dependencies.affectedBy (engine.directlyTriggered [.answer reference])) :
    ∃ first reader, engine.rulebook.rule? first = some reader ∧
      reader.isTriggeredBy reference = true ∧
      Relation.ReflTransGen engine.rulebook.Feeds first number := by
  rcases wired.orders.exists_seed number affected with ⟨first, isSeed, path⟩
  rcases (mem_directlyTriggered wired.indexed).mp isSeed with
    ⟨touch, isTouch, reader, entered, triggered⟩
  rw [List.mem_singleton.mp isTouch] at triggered
  exact ⟨first, reader, entered, triggered, path⟩

theorem IsWired.not_writes_edited (wired : engine.IsWired) {reference : Reference} {number : Nat}
    (affected : number ∈
      engine.dependencies.affectedBy (engine.directlyTriggered [.answer reference]))
    {rule : Rule} (entered : engine.rulebook.rule? number = some rule)
    (writes : rule.effect.writesAnswer = true) : rule.target ≠ reference.genericize := by
  intro own
  rcases wired.exists_reader affected with ⟨first, reader, isReader, triggered, path⟩
  have feeds : engine.rulebook.Feeds number first :=
    ⟨rule, reader, entered, isReader,
      (wired.bound isReader).feeds_of_isTriggeredBy own.symm triggered, fun _ => writes⟩
  exact wired.orders.not_transGen_self number (.head' feeds path)

theorem IsWired.reads_of_hides_edited (wired : engine.IsWired) {reference target : Reference}
    {number : Nat} (affected : number ∈
      engine.dependencies.affectedBy (engine.directlyTriggered [.answer reference]))
    {rule : Rule} (entered : engine.rulebook.rule? number = some rule)
    (hides : rule.effect = .relevant) (belongs : target.genericize = rule.target)
    (absolute : reference.origin = .absolute) (below : target.steps <+: reference.steps) :
    rule.isTriggeredBy reference = true := by
  rcases wired.exists_reader affected with ⟨first, reader, isReader, triggered, path⟩
  by_cases same : number = first
  · rw [same, isReader] at entered
    cases entered
    exact triggered
  · have feeds : engine.rulebook.Feeds number first :=
      ⟨rule, reader, entered, isReader,
        (wired.bound isReader).feeds_of_changes belongs (wired.bound entered).target.absolute
          absolute (.inr ⟨hides, below⟩) triggered, fun equal => absurd equal same⟩
    exact absurd (.head' feeds path) (wired.orders.not_transGen_self number)

theorem IsWired.outcome_of_contained (wired : engine.IsWired) {now : DateTime}
    (evaluator : engine.evaluator = Expression.evaluator now) {number other : Nat}
    {rule another : Rule} (entered : engine.rulebook.rule? number = some rule)
    (noAction : ∀ occasion, rule.effect ≠ .setValue occasion)
    (enteredToo : engine.rulebook.rule? other = some another) (distinct : other ≠ number)
    (apart : ¬ engine.rulebook.Feeds other number) {target place : Reference}
    (isTarget : target.genericize = another.target) (isPlace : place.genericize = rule.target)
    {before after : AnswerTree} (contained : Contained another.effect target before after) :
    engine.evaluator after rule.expression place =
      engine.evaluator before rule.expression place := by
  rw [evaluator]
  apply Expression.evaluate_sameShape contained.shape
  intro read reads
  apply contained.answers
  intro changes
  have absolute : read.origin = .absolute := by
    rcases reads.exists_sees with ⟨look, -, sees⟩
    exact sees.origin
  have bound := wired.bound entered
  have triggered := bound.isTriggeredBy_of_reads noAction isPlace reads
  exact apart ⟨another, rule, enteredToo, entered,
    bound.feeds_of_changes isTarget (wired.bound enteredToo).target.absolute absolute changes
      triggered, fun same => absurd same distinct⟩

theorem mem_references_of_mem_targets {tree : AnswerTree} (numbered : tree.root.Numbered)
    {rule : Rule} (bound : rule.IsBound) {anchors found : List Reference}
    (live : ∀ anchor ∈ anchors, anchor ∈ tree.references)
    (located : targets tree rule anchors = .ok found) :
    ∀ target ∈ found, target ∈ tree.references := by
  intro target member
  by_cases nowhere : anchors = []
  · rw [nowhere] at located
    exact ((mem_targets_nil numbered bound located).mp member).1
  · rcases (mem_targets nowhere located).2 target member with
      ⟨anchor, inAnchors, near, isNear, inNear⟩
    have anchorLive := (AnswerTree.isLive_of_mem numbered (live anchor inAnchors)).1
    exact ((mem_targetsNear numbered bound anchorLive isNear).mp inNear).1

end Engine

theorem Form.build_isWired {material : Material} {evaluator : Evaluator}
    {saved : Option AnswerTree} {form : Form} (made : ∀ rule ∈ material.rules, rule.IsMade)
    (built : Form.build material evaluator saved = .ok form) : form.engine.IsWired := by
  have isMade := @Form.build_isMade material _ _ _ made built
  rcases Form.build_ok built with ⟨-, dependencies, ordered, engine⟩
  refine ⟨fun entered => (isMade entered).isBound, ?_, ?_⟩
  · rw [engine]
    exact Rulebook.ofRules_isIndexed _
  · rw [engine]
    exact Dependencies.ofRulebook_orders ordered

theorem Form.perform_engine {form : Form} {request : Request} {outcome : Outcome}
    (done : form.perform request = .ok outcome) : outcome.form.engine = form.engine := by
  cases request with
  | initial =>
      cases done
      rfl
  | setAnswer reference value =>
      rcases setAnswer_ok done with ⟨pass, -, rfl⟩
      rfl
  | insertMember parent name position =>
      rcases map_eq_ok.mp done with ⟨⟨made, inserted⟩, insert, rfl⟩
      rcases insertMember_ok insert with ⟨pass, -, rfl⟩
      rfl
  | removeMember reference =>
      rcases removeMember_ok done with ⟨parent, shrunk, removed, pass, -, -, -, rfl⟩
      rfl

theorem Form.Reached.initial (form : Form) : form.Reached form.initial.form :=
  Reached.start.perform (show form.perform .initial = .ok form.initial from rfl)

theorem Form.Reached.engine_eq {form current : Form} (reached : form.Reached current) :
    current.engine = { form.engine with evaluator := current.engine.evaluator } := by
  induction reached with
  | start => rfl
  | perform _ done induction => rw [perform_engine done]; exact induction
  | evaluate _ evaluator induction => rw [withEvaluator, induction]

theorem Form.Reached.isWired {form current : Form} (reached : form.Reached current)
    (wired : form.engine.IsWired) : current.engine.IsWired := by
  rw [reached.engine_eq]
  exact ⟨wired.bound, wired.indexed, wired.orders⟩

/-! Passes. -/

namespace Engine

structure Upholds (engine : Engine) (among : Nat → Prop) (holds : Pass → Prop)
    (within : Reference → Prop) : Prop where
  fired : ∀ {pass : Pass} {number : Nat}, among number → holds pass →
    holds (pass.noteFired number)
  failed : ∀ {pass : Pass} (number : Nat) (target : Reference) (reason : String), holds pass →
    holds (pass.noteFailure number target reason)
  targets : ∀ {pass : Pass} {number : Nat} {rule : Rule} {anchors found : List Reference},
    holds pass → engine.rulebook.rule? number = some rule → (∀ anchor ∈ anchors, within anchor) →
    targets pass.tree rule anchors = .ok found → ∀ target ∈ found, within target
  acted : ∀ {before after : Pass} {number : Nat} {rule : Rule} {target : Reference}
    {more : List Touch} {news : List Update}, holds before → among number →
    engine.rulebook.rule? number = some rule → within target → target.genericize = rule.target →
    Act engine.settings number rule.effect target before after more news →
    holds after ∧ ∀ touch ∈ more, within touch.reference

namespace Upholds

variable {engine : Engine} {among : Nat → Prop} {holds : Pass → Prop} {within : Reference → Prop}

theorem sustains (upholds : engine.Upholds among holds within) (wired : engine.IsWired) :
    engine.Sustains among holds within fun rule target =>
      within target ∧ target.genericize = rule.target := by
  refine ⟨upholds.fired, upholds.failed, fun held _ entered _ inside located target member => ?_,
    fun held included entered aimed applied => ?_⟩
  · exact ⟨upholds.targets held entered inside located target member,
      genericize_of_mem_targets (wired.bound entered) located target member⟩
  · rcases apply_act applied with ⟨news, act⟩
    exact upholds.acted held included entered aimed.1 aimed.2 act

theorem everywhere (upholds : engine.Upholds among holds within) (wired : engine.IsWired) :
    engine.AimsEverywhere among holds fun rule target =>
      within target ∧ target.genericize = rule.target :=
  fun held _ entered located target member =>
    ⟨upholds.targets held entered (List.forall_mem_nil _) located target member,
      genericize_of_mem_targets (wired.bound entered) located target member⟩

theorem failures (engine : Engine) :
    engine.Upholds (fun _ => True) (·.report.failures ≠ []) fun _ => True :=
  ⟨fun _ failed => failed, fun number target reason _ => by simp [Pass.noteFailure],
    fun _ _ _ _ _ _ => trivial,
    fun failed _ _ _ _ act => ⟨by rwa [act.failures], fun _ _ => trivial⟩⟩

end Upholds

end Engine

end ReactiveForm
