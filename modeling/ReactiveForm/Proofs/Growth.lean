import Mathlib.Tactic.Tauto
import ReactiveForm.Proofs.Holding
import ReactiveForm.Proofs.Series

/-! A tree in which one series has got one more member. Its live nodes are those
of the tree before, in the same order and with the same contents, and those of
the new member among them. -/

namespace ReactiveForm

theorem changeFirst_split {α : Type} {holds : α → Bool} (change : α → α) {list : List α}
    {found : α} (here : list.find? holds = some found) :
    ∃ before after, list = before ++ found :: after ∧
      changeFirst holds change list = before ++ change found :: after := by
  induction list with
  | nil => cases here
  | cons head tail induction =>
      cases first : holds head with
      | true =>
          rw [List.find?_cons_of_pos first] at here
          cases here
          exact ⟨[], tail, rfl, by simp [changeFirst, first]⟩
      | false =>
          rw [List.find?_cons_of_neg (by simp [first])] at here
          rcases induction here with ⟨before, after, rfl, changed⟩
          exact ⟨head :: before, after, rfl, by simp [changeFirst, first, changed]⟩

/-! One node further down. -/

inductive Node.Along (relation : Node → Node → Prop) : List Step → Node → Node → Prop where
  | here {left right : Node} (related : relation left right) : Along relation [] left right
  | inside {facts : Facts} {path : List Step} {before after : List Node} {left right : Node}
      (step : right.step = left.step) (along : Along relation path left right) :
      Along relation (left.step :: path) ⟨facts, before ++ left :: after⟩
        ⟨facts, before ++ right :: after⟩

namespace Node

theorem Along.flip {relation : Node → Node → Prop} {path : List Step} {left right : Node}
    (along : Along relation path left right) : Along (flip relation) path right left := by
  induction along with
  | here related => exact .here related
  | inside step _ induction =>
      rw [← step]
      exact .inside step.symm induction

theorem Along.mono {relation other : Node → Node → Prop} {path : List Step} {left right : Node}
    (along : Along relation path left right)
    (implies : ∀ {left right : Node}, relation left right → other left right) :
    Along other path left right := by
  induction along with
  | here related => exact .here (implies related)
  | inside step _ induction => exact .inside step induction

theorem Along.isOrderly {relation : Node → Node → Prop} {path : List Step} {left right : Node}
    (along : Along relation path left right) (orderly : left.IsOrderly)
    (keeps : ∀ {left right : Node}, relation left right → left.IsOrderly → right.IsOrderly) :
    right.IsOrderly := by
  induction along with
  | here related => exact keeps related orderly
  | @inside facts path before after left right step _ induction =>
      have inner := induction (orderly.child left (by simp))
      have same : (before ++ left :: after).map Node.step =
          (before ++ right :: after).map Node.step := by
        simp [step]
      have others : ∀ child ∈ before ++ right :: after,
          child = right ∨ child ∈ before ++ left :: after := by
        intro child member
        simp only [List.mem_append, List.mem_cons] at member ⊢
        tauto
      constructor
      · refine orderly.numbered.withChildren same fun child member => ?_
        rcases others child member with rfl | stays
        · exact inner.numbered
        · exact orderly.numbered.child child stays
      · refine .of_children (orderly.lead.leads.congr same) fun child member => ?_
        rcases others child member with rfl | stays
        · exact inner.lead
        · exact orderly.lead.child child stays

theorem along_changeDescendant (relation : Node → Node → Prop) (change : Node → Node)
    (facts : ∀ {left right : Node}, relation left right → left.facts = right.facts)
    {path : List Step} {root node : Node} (found : root.descendant? path = some node)
    (related : relation node (change node)) :
    Along relation path root (root.changeDescendant change path) ∧
      (root.changeDescendant change path).facts = root.facts := by
  induction path generalizing root with
  | nil =>
      cases found
      exact ⟨.here related, (facts related).symm⟩
  | cons step path induction =>
      rcases root with ⟨facts, children⟩
      rcases Option.bind_eq_some_iff.mp found with ⟨child, here, reached⟩
      rcases induction reached with ⟨below, sameFacts⟩
      rcases changeFirst_split (changeDescendant change path) here with
        ⟨before, after, rfl, changed⟩
      have isAt := List.find?_some here
      simp only [Node.isAt, Bool.and_eq_true, beq_iff_eq] at isAt
      have equal : step = child.step := by rw [Node.step, isAt.1, isAt.2]
      refine ⟨?_, rfl⟩
      rw [changeDescendant, changeChild, changed, equal]
      exact .inside (by rw [Node.step, Node.step, sameFacts]) below

end Node

/-! Live nodes. -/

def Facts.unplaced (facts : Facts) : Facts := { facts with multiplicity := .unbound }

theorem Field.of_unplaced (field : Field) (facts : Facts) :
    field.of facts.unplaced = field.of facts := by
  cases field <;> rfl

def Entry.unplaced (entry : List Step × Facts) : List Step × Facts := (entry.1, entry.2.unplaced)

def Entry.move (name : String) (position : Nat) (path : List Step) (entry : List Step × Facts) :
    List Step × Facts :=
  (moveSteps name position path entry.1, entry.2)

namespace Node

theorem liveAll_append (first second : List Node) :
    liveAll (first ++ second) = liveAll first ++ liveAll second := by
  simp [liveAll_eq_flatMap]

theorem liveAll_cons (node : Node) (rest : List Node) :
    liveAll (node :: rest) =
      (if node.isTemplate then [] else node.live.map (Entry.under node.step)) ++ liveAll rest := by
  rw [liveAll]
  split <;> rfl

theorem mem_liveAll {nodes : List Node} {entry : List Step × Facts}
    (member : entry ∈ liveAll nodes) :
    ∃ node ∈ nodes, node.isTemplate = false ∧ ∃ rest, entry.1 = node.step :: rest := by
  rw [liveAll_eq_flatMap] at member
  rcases List.mem_flatMap.mp member with ⟨node, inNodes, inNode⟩
  rcases List.mem_filter.mp inNodes with ⟨original, live⟩
  rcases List.mem_map.mp inNode with ⟨below, -, rfl⟩
  exact ⟨node, original, by simpa using live, below.1, rfl⟩

theorem unplaced_live_shift (name : String) (position : Nat) (node : Node) :
    (node.shift name position).live.map Entry.unplaced = node.live.map Entry.unplaced := by
  rcases node.shift_cases name position with ⟨number, -, -, -, moved⟩ | same
  · rw [moved, live_eq, live_eq]
    rfl
  · rw [same]

theorem unplaced_under (step : Step) (entries : List (List Step × Facts)) :
    (entries.map (Entry.under step)).map Entry.unplaced =
      (entries.map Entry.unplaced).map (Entry.under step) := by
  simp [Entry.under, Entry.unplaced]

theorem move_under (name : String) (position : Nat) (path : List Step) (step : Step)
    (entries : List (List Step × Facts)) :
    (entries.map (Entry.under step)).map (Entry.move name position (step :: path)) =
      (entries.map (Entry.move name position path)).map (Entry.under step) := by
  simp [Entry.under, Entry.move]

theorem unplaced_liveAll_shift (name : String) (position : Nat) (nodes : List Node) :
    (liveAll (nodes.map (shift name position))).map Entry.unplaced =
      ((liveAll nodes).map Entry.unplaced).map (Entry.move name position []) := by
  induction nodes with
  | nil => rfl
  | cons node rest induction =>
      rw [List.map_cons, liveAll_cons, liveAll_cons, isTemplate_shift, List.map_append,
        List.map_append, List.map_append, induction]
      congr 1
      cases node.isTemplate with
      | true => rfl
      | false =>
          simp only [Bool.false_eq_true, if_false]
          rw [unplaced_under, unplaced_under, unplaced_live_shift, step_shift]
          simp [Entry.move, Entry.under]

structure GrowsBy (name : String) (position : Nat) (member small big : Node) : Prop where
  facts : small.facts = big.facts
  children : Grows name position small.children member big.children

theorem step_ne_of_nodup {before after : List Node} {child : Node}
    (distinct : (numbers child.facts.name (before ++ child :: after)).Nodup)
    (live : child.isTemplate = false) : ∀ sibling ∈ before ++ after, sibling.step ≠ child.step := by
  intro sibling inSiblings equal
  have placed : sibling.facts.multiplicity = child.facts.multiplicity :=
    congrArg Step.multiplicity equal
  have inSeries : child.isMember child.facts.name = true := isMember_iff.mpr ⟨rfl, live⟩
  have siblingInSeries := (isMember_of_step equal child.facts.name).trans inSeries
  rw [numbers_append, numbers_cons_member inSeries] at distinct
  have twice : sibling.facts.multiplicity ∈
      numbers child.facts.name before ++ numbers child.facts.name after := by
    rw [← numbers_append]
    exact List.mem_map_of_mem (List.mem_filter.mpr ⟨inSiblings, siblingInSeries⟩)
  rw [placed] at twice
  exact (List.nodup_cons.mp (List.nodup_middle.mp distinct)).1 twice

theorem move_liveAll (name : String) (position : Nat) (path : List Step) {step : Step}
    {nodes : List Node} (apart : ∀ node ∈ nodes, node.isTemplate = false → node.step ≠ step) :
    ((liveAll nodes).map Entry.unplaced).map (Entry.move name position (step :: path)) =
      (liveAll nodes).map Entry.unplaced := by
  rw [List.map_map]
  apply List.map_congr_left
  intro entry member
  rcases mem_liveAll member with ⟨node, inNodes, live, rest, steps⟩
  rw [Function.comp_apply, Entry.move, Entry.unplaced, steps,
    moveSteps_cons_other (apart node inNodes live)]

theorem step_ne_of_numbered {facts : Facts} {before after : List Node} {child : Node}
    (numbered : Node.Numbered ⟨facts, before ++ child :: after⟩) :
    ∀ sibling ∈ before ++ after, sibling.isTemplate = false → sibling.step ≠ child.step := by
  intro sibling inSiblings live equal
  cases template : child.isTemplate with
  | false =>
      have distinct := ((IsDistinct.of_numbered numbered).apart child.facts.name).distinct
      exact step_ne_of_nodup distinct template sibling inSiblings equal
  | true =>
      have same : sibling.facts.multiplicity = child.facts.multiplicity :=
        congrArg Step.multiplicity equal
      rw [isTemplate, same, ← isTemplate, template] at live
      cases live

/-- The live nodes of `big` are those of `small`, where a series of the node at `path` has made
room, and among them those of its new member. -/
structure LiveGrows (name : String) (position : Nat) (path : List Step) (small big : Node)
    (early new late : List (List Step × Facts)) : Prop where
  small : small.live.map Entry.unplaced = early ++ late
  big : big.live.map Entry.unplaced = early.map (Entry.move name position path) ++ new ++
    late.map (Entry.move name position path)
  new : ∀ entry ∈ new, ∃ below, entry.1 = path ++ ⟨name, .index position⟩ :: below

theorem GrowsBy.live {name : String} {position : Nat} {member small big : Node}
    (grown : GrowsBy name position member small big) :
    ∃ early new late, LiveGrows name position [] small big early new late := by
  rcases grown.children.split with ⟨before, after, smallChildren, bigChildren⟩
  have live := isTemplate_of_step grown.children.step
  refine ⟨([], small.facts.unplaced) :: (liveAll before).map Entry.unplaced,
    (member.live.map (Entry.under member.step)).map Entry.unplaced,
    (liveAll after).map Entry.unplaced, ?_, ?_, ?_⟩
  · rw [live_eq, smallChildren, liveAll_append]
    simp [Entry.unplaced]
  · rw [live_eq, bigChildren, liveAll_append, liveAll_cons, if_neg (by simp [live]),
      List.map_cons, List.map_append, List.map_append, unplaced_liveAll_shift,
      unplaced_liveAll_shift, List.map_cons, ← grown.facts]
    simp [Entry.unplaced, Entry.move]
  · intro entry inNew
    rw [unplaced_under, grown.children.step] at inNew
    rcases List.mem_map.mp inNew with ⟨below, -, rfl⟩
    exact ⟨below.1, rfl⟩

theorem Along.live {name : String} {position : Nat} {member : Node} {path : List Step}
    {small big : Node} (along : Along (GrowsBy name position member) path small big)
    (numbered : small.Numbered) :
    ∃ early new late, LiveGrows name position path small big early new late := by
  induction along with
  | here grown => exact grown.live
  | @inside facts path before after small big step _ induction =>
      have apart := step_ne_of_numbered numbered
      have stayBefore := move_liveAll name position path
        fun node inBefore => apart node (List.mem_append_left _ inBefore)
      have stayAfter := move_liveAll name position path
        fun node inAfter => apart node (List.mem_append_right _ inAfter)
      have sameTemplate : big.isTemplate = small.isTemplate := by
        rw [isTemplate, isTemplate,
          show big.facts.multiplicity = small.facts.multiplicity from congrArg Step.multiplicity step]
      cases template : small.isTemplate with
      | true =>
          -- Nothing inside a template is live.
          refine ⟨(⟨facts, before ++ small :: after⟩ : Node).live.map Entry.unplaced, [], [], ?_, ?_,
            by simp⟩
          · simp
          · rw [live_eq, live_eq, liveAll_append, liveAll_append, liveAll_cons, liveAll_cons,
              if_pos template, if_pos (sameTemplate.trans template)]
            simp only [List.nil_append, List.map_cons, List.map_append, stayBefore, stayAfter,
              List.map_nil, List.append_nil]
            simp [Entry.move, Entry.unplaced]
      | false =>
          rcases induction (numbered.child small (by simp)) with ⟨early, new, late, grown⟩
          refine ⟨([], facts.unplaced) :: (liveAll before).map Entry.unplaced ++
              early.map (Entry.under small.step),
            new.map (Entry.under small.step),
            late.map (Entry.under small.step) ++ (liveAll after).map Entry.unplaced, ?_, ?_, ?_⟩
          · rw [live_eq, liveAll_append, liveAll_cons, if_neg (by simp [template]), List.map_cons,
              List.map_append, List.map_append, unplaced_under, grown.small]
            simp [Entry.unplaced]
          · rw [live_eq, liveAll_append, liveAll_cons, if_neg (by simp [sameTemplate, template]),
              step, List.map_cons, List.map_append, List.map_append, unplaced_under, grown.big]
            simp only [List.map_append, List.map_cons, stayBefore, stayAfter, move_under]
            simp [Entry.unplaced, Entry.move]
          · intro entry inNew
            rcases List.mem_map.mp inNew with ⟨below, isNew, rfl⟩
            rcases grown.new below isNew with ⟨rest, steps⟩
            exact ⟨rest, by rw [Entry.under, steps]; rfl⟩

theorem LiveGrows.exists_moved {name : String} {position : Nat} {path : List Step}
    {small big : Node} {early new late : List (List Step × Facts)}
    (grown : LiveGrows name position path small big early new late) {below : List Step}
    {facts : Facts} (member : (below, facts) ∈ small.live) :
    ∃ bigFacts, (moveSteps name position path below, bigFacts) ∈ big.live ∧
      bigFacts.unplaced = facts.unplaced := by
  have inMoved : Entry.move name position path (Entry.unplaced (below, facts)) ∈
      big.live.map Entry.unplaced := by
    have inUnplaced := List.mem_map_of_mem (f := Entry.unplaced) member
    rw [grown.small] at inUnplaced
    rw [grown.big, List.append_assoc, List.mem_append, List.mem_append]
    rcases List.mem_append.mp inUnplaced with inEarly | inLate
    · exact .inl (List.mem_map_of_mem inEarly)
    · exact .inr (.inr (List.mem_map_of_mem inLate))
  rcases List.mem_map.mp inMoved with ⟨⟨bigSteps, bigFacts⟩, inBig, same⟩
  rcases Prod.mk.injEq .. ▸ same with ⟨rfl, sameFacts⟩
  exact ⟨bigFacts, inBig, sameFacts⟩

end Node

/-! Trees. -/

theorem Node.descendant?_append (first second : List Step) (node : Node) :
    node.descendant? (first ++ second) = (node.descendant? first).bind (descendant? second) := by
  induction first generalizing node with
  | nil => rfl
  | cons step first induction =>
      rw [List.cons_append, descendant?, descendant?]
      cases node.child? step.name step.multiplicity with
      | none => rfl
      | some child => exact induction child

theorem Node.name_of_template? {node template : Node} {name : String}
    (here : node.template? name = some template) : template.facts.name = name := by
  have isAt := List.find?_some here
  simp only [Node.isAt, Bool.and_eq_true, beq_iff_eq] at isAt
  exact isAt.1

theorem Reference.eq_child_of_parent? {reference parent : Reference}
    (isParent : reference.parent? = some parent) (absolute : parent.origin = .absolute)
    {name : String} (lastName : reference.lastName? = some name) {multiplicity : Multiplicity}
    (lastMultiplicity : reference.lastMultiplicity? = some multiplicity) :
    reference = parent.child name multiplicity := by
  rcases reference with ⟨origin, steps⟩
  rcases Option.map_eq_some_iff.mp lastName with ⟨last, isLast, rfl⟩
  rcases Option.map_eq_some_iff.mp lastMultiplicity with ⟨same, isSame, rfl⟩
  rw [isLast] at isSame
  cases isSame
  rw [parent?] at isParent
  split at isParent
  next isAbsolute =>
    cases isAbsolute
    split at isParent
    · cases isParent
    · cases isParent
      rw [Reference.child, Reference.mk.injEq]
      exact ⟨rfl, (List.dropLast_append_getLast? last isLast).symm⟩
  next =>
    split at isParent
    · cases isParent
      cases absolute
    · cases isParent
      cases absolute

/-- The tree `big` is `small` with one more member of a series. -/
structure AnswerTree.Grows (gap : Gap) (small big : AnswerTree) : Prop where
  parent : gap.parent.IsPlace
  nonempty : gap.parent.steps ≠ []
  smallNumbered : small.root.Numbered
  bigNumbered : big.root.Numbered
  references : ∃ early new late, small.references = early ++ late ∧
    big.references = early.map gap.move ++ new ++ late.map gap.move ∧
    ∀ place ∈ new, ∃ below, place.steps = gap.member.steps ++ below
  held : ∀ field, ∀ place ∈ small.references,
    big.held field (gap.move place) = small.held field place

namespace AnswerTree

theorem held_of_mem_census {tree : AnswerTree} (numbered : tree.root.Numbered) {place : Reference}
    {facts : Facts} (member : (place, facts) ∈ tree.census) (field : Field) :
    tree.held field place = some (field.of facts) := by
  rcases of_mem_census numbered member with ⟨-, -, node, found, rfl⟩
  rw [held, found]
  rfl

theorem grows_of_along {gap : Gap} {small big : AnswerTree} {path : List Step} {member : Node}
    (parent : gap.parent.IsPlace)
    (steps : gap.parent.steps = ⟨small.root.facts.name, .index 0⟩ :: path)
    (smallNumbered : small.root.Numbered) (bigNumbered : big.root.Numbered)
    (rootName : big.root.facts.name = small.root.facts.name)
    (along : Node.Along (Node.GrowsBy gap.name gap.position member) path small.root big.root) :
    Grows gap small big := by
  rcases along.live smallNumbered with ⟨early, new, late, grown⟩
  let place (entry : List Step × Facts) : Reference :=
    .absolute (⟨small.root.facts.name, .index 0⟩ :: entry.1)
  have unplaced (tree : AnswerTree) (name : tree.root.facts.name = small.root.facts.name) :
      tree.references = (tree.root.live.map Entry.unplaced).map place := by
    rw [references_eq_census, census, List.map_map, List.map_map, name]
    rfl
  have moved (entry : List Step × Facts) :
      place (Entry.move gap.name gap.position path entry) = gap.move (place entry) := by
    simp [place, Gap.move, Entry.move, Reference.absolute, steps]
  refine ⟨parent, by simp [steps], smallNumbered, bigNumbered,
    ⟨early.map place, new.map place, late.map place, ?_, ?_, ?_⟩, ?_⟩
  · rw [unplaced small rfl, grown.small, List.map_append]
  · rw [unplaced big rootName, grown.big]
    simp [Function.comp_def, moved]
  · intro other inNew
    rcases List.mem_map.mp inNew with ⟨entry, isNew, rfl⟩
    rcases grown.new entry isNew with ⟨below, entrySteps⟩
    refine ⟨below, ?_⟩
    simp [place, Reference.absolute, entrySteps, Gap.member, Reference.child, steps]
  · intro field other inSmall
    rcases mem_references_iff.mp inSmall with ⟨facts, inCensus⟩
    rw [held_of_mem_census smallNumbered inCensus]
    rcases List.mem_map.mp inCensus with ⟨⟨below, facts⟩, inLive, equal⟩
    cases equal
    rcases grown.exists_moved inLive with ⟨bigFacts, inBig, sameFacts⟩
    have inBigCensus : (gap.move (place (below, facts)), bigFacts) ∈ big.census := by
      refine List.mem_map.mpr ⟨(_, bigFacts), inBig, ?_⟩
      rw [← moved, rootName]
      rfl
    have fields := congrArg field.of sameFacts
    rw [Field.of_unplaced, Field.of_unplaced] at fields
    exact (held_of_mem_census bigNumbered inBigCensus field).trans (congrArg some fields)

/-! Insertion and removal. -/

theorem parent_steps {tree : AnswerTree} {parent : Reference} {node : Node}
    (found : tree.find? parent = some node) : ∃ path,
      parent.IsPlace ∧ parent.steps = ⟨tree.root.facts.name, .index 0⟩ :: path ∧
      tree.steps? parent = some path ∧ tree.root.descendant? path = some node := by
  rcases Option.bind_eq_some_iff.mp found with ⟨path, steps, reached⟩
  rcases steps?_eq_some_iff.mp steps with ⟨isPlace, whole⟩
  exact ⟨path, isPlace, whole, steps, reached⟩

theorem descendant?_hereditary {holds : Node → Prop}
    (child : ∀ node, holds node → ∀ child ∈ node.children, holds child) {path : List Step}
    {root node : Node} (held : holds root) (reached : root.descendant? path = some node) :
    holds node := by
  induction path generalizing root with
  | nil =>
      cases reached
      exact held
  | cons step path induction =>
      rcases Option.bind_eq_some_iff.mp reached with ⟨next, here, below⟩
      exact induction (child root held next (List.mem_of_find?_eq_some here)) below

theorem find?_hereditary {holds : Node → Prop}
    (child : ∀ node, holds node → ∀ child ∈ node.children, holds child) {tree : AnswerTree}
    {place : Reference} {node : Node} (held : holds tree.root)
    (found : tree.find? place = some node) : holds node := by
  rcases parent_steps found with ⟨path, -, -, -, reached⟩
  exact descendant?_hereditary child held reached

theorem descendant_orderly {path : List Step} {root node : Node} (orderly : root.IsOrderly)
    (reached : root.descendant? path = some node) : node.IsOrderly :=
  descendant?_hereditary (fun _ => Node.IsOrderly.child) orderly reached

theorem find?_child {tree : AnswerTree} {parent : Reference} {node : Node}
    (found : tree.find? parent = some node) {name : String} {multiplicity : Multiplicity}
    (bound : multiplicity.isBound = true) :
    tree.find? (parent.child name multiplicity) = node.child? name multiplicity := by
  rcases Option.bind_eq_some_iff.mp found with ⟨path, steps, reached⟩
  rcases steps?_eq_some_iff.mp steps with ⟨isPlace, whole⟩
  have childSteps : tree.steps? (parent.child name multiplicity) =
      some (path ++ [⟨name, multiplicity⟩]) := by
    refine steps?_eq_some_iff.mpr ⟨⟨isPlace.absolute, ?_⟩, ?_⟩
    · intro step member
      rcases List.mem_append.mp member with inParent | last
      · exact isPlace.bound step inParent
      · rw [List.mem_singleton.mp last]
        exact bound
    · rw [Reference.child, whole]
      rfl
  rw [find?, childSteps]
  change tree.root.descendant? (path ++ [⟨name, multiplicity⟩]) = _
  rw [Node.descendant?_append, reached]
  change (node.child? name multiplicity).bind _ = _
  cases node.child? name multiplicity <;> rfl

theorem exists_descendant {tree : AnswerTree} (numbered : tree.root.Numbered) {place : Reference}
    (member : place ∈ tree.references) : ∃ rest node,
      place.steps = ⟨tree.root.facts.name, .index 0⟩ :: rest ∧
      tree.root.descendant? rest = some node := by
  rcases mem_references_iff.mp member with ⟨facts, inCensus⟩
  rcases of_mem_census numbered inCensus with ⟨-, -, node, found, -⟩
  rcases parent_steps found with ⟨path, -, steps, -, reached⟩
  exact ⟨path, node, steps, reached⟩

theorem find?_above {tree : AnswerTree} {place outer : Reference} {node : Node}
    (found : tree.find? place = some node) (absolute : outer.origin = .absolute)
    (nonempty : outer.steps ≠ []) {below : List Step} (inside : place.steps = outer.steps ++ below) :
    ∃ outerNode, tree.find? outer = some outerNode ∧ outerNode.descendant? below = some node := by
  rcases parent_steps found with ⟨path, isPlace, whole, -, reached⟩
  rcases List.exists_cons_of_ne_nil nonempty with ⟨first, rest, outerSteps⟩
  have outerPlace : outer.IsPlace := by
    refine ⟨absolute, fun step member => isPlace.bound step ?_⟩
    rw [inside]
    exact List.mem_append_left _ member
  rw [whole, outerSteps, List.cons_append] at inside
  rcases List.cons.inj inside with ⟨rfl, rfl⟩
  rw [Node.descendant?_append] at reached
  rcases Option.bind_eq_some_iff.mp reached with ⟨outerNode, outerReached, reached⟩
  refine ⟨outerNode, ?_, reached⟩
  rw [find?, steps?_eq_some_iff.mpr ⟨outerPlace, outerSteps⟩]
  exact outerReached

theorem mem_referencesFrom {tree : AnswerTree} (numbered : tree.root.Numbered)
    {place outer : Reference} (member : place ∈ tree.references)
    (absolute : outer.origin = .absolute) (nonempty : outer.steps ≠ []) {below : List Step}
    (inside : place.steps = outer.steps ++ below) :
    place ∈ tree.referencesFrom outer := by
  rcases mem_references_iff.mp member with ⟨facts, inCensus⟩
  rcases of_mem_census numbered inCensus with ⟨live, -, node, found, -⟩
  rcases find?_above found absolute nonempty inside with ⟨outerNode, outerFound, reached⟩
  have inLive := Node.mem_live_of_descendant? reached fun step inBelow => by
    rcases live.indexed step (by simp [inside, inBelow]) with ⟨number, index⟩
    simp [index]
  rw [referencesFrom, outerFound]
  change place ∈ outerNode.references outer
  rw [Node.references_eq_live]
  refine List.mem_map.mpr ⟨_, inLive, ?_⟩
  cases place
  cases outer
  cases live.absolute
  cases absolute
  cases inside
  rfl

theorem lt_memberCount {tree : AnswerTree} (orderly : tree.root.IsOrderly) {parent : Reference}
    (nonempty : parent.steps ≠ []) (isPlace : parent.IsPlace) {name : String} {number : Nat}
    (member : parent.child name (.index number) ∈ tree.references) :
    ∃ node, tree.find? parent = some node ∧ number < node.memberCount name := by
  rcases exists_descendant orderly.numbered member with ⟨rest, found, steps, reached⟩
  rcases List.exists_cons_of_ne_nil nonempty with ⟨first, path, parentSteps⟩
  rw [Reference.child, parentSteps, List.cons_append] at steps
  rcases List.cons.inj steps with ⟨rfl, rfl⟩
  rw [Node.descendant?_append] at reached
  rcases Option.bind_eq_some_iff.mp reached with ⟨node, parentReached, reached⟩
  rcases Option.bind_eq_some_iff.mp reached with ⟨child, here, -⟩
  refine ⟨node, ?_, ?_⟩
  · rw [find?, steps?_eq_some_iff.mpr ⟨isPlace, parentSteps⟩]
    exact parentReached
  · have nodeOrderly := descendant_orderly orderly parentReached
    rcases Node.counted_iff.mp (nodeOrderly.numbered.counted name) with ⟨count, sequence⟩
    have isAt := List.find?_some here
    simp only [Node.isAt, Bool.and_eq_true, beq_iff_eq] at isAt
    have inSeries : Multiplicity.index number ∈ Node.numbers name node.children := by
      rw [← isAt.2]
      refine List.mem_map_of_mem (List.mem_filter.mpr ⟨List.mem_of_find?_eq_some here, ?_⟩)
      exact Node.isMember_iff.mpr ⟨isAt.1, by simp [Node.isTemplate, isAt.2]⟩
    have counts : node.memberCount name = count := by
      rw [Node.memberCount, Node.members, ← Node.length_numbers, sequence]
      simp
    rw [sequence] at inSeries
    rcases List.mem_map.mp inSeries with ⟨other, inRange, equal⟩
    cases equal
    rw [counts]
    have := (List.mem_range'_1.mp inRange).2
    omega

section Change

variable {tree : AnswerTree} {node member : Node}

theorem along_change (gap : Gap) (change : Node → Node) (orderly : tree.root.IsOrderly)
    (found : tree.find? gap.parent = some node)
    (facts : node.facts = (change node).facts) (kept : (change node).IsOrderly) : ∃ path,
      gap.parent.IsPlace ∧
      gap.parent.steps = ⟨tree.root.facts.name, .index 0⟩ :: path ∧
      Node.Along (fun left right => left = node ∧ right = change node) path tree.root
        (tree.change gap.parent change).root ∧
      (tree.change gap.parent change).root.facts = tree.root.facts ∧
      (tree.change gap.parent change).root.IsOrderly := by
  rcases parent_steps found with ⟨path, isPlace, steps, isPath, reached⟩
  rcases Node.along_changeDescendant
    (fun left right => left = node ∧ right = change node) change
    (by rintro _ _ ⟨rfl, rfl⟩; exact facts) reached ⟨rfl, rfl⟩ with ⟨along, sameFacts⟩
  rw [AnswerTree.change, isPath]
  refine ⟨path, isPlace, steps, along, sameFacts, along.isOrderly orderly ?_⟩
  rintro _ _ ⟨-, rfl⟩ -
  exact kept

theorem grows_of_change (gap : Gap) (change : Node → Node) (orderly : tree.root.IsOrderly)
    (found : tree.find? gap.parent = some node) (kept : (change node).IsOrderly)
    (grown : Node.GrowsBy gap.name gap.position member node (change node)) :
    Grows gap tree (tree.change gap.parent change) ∧
      (tree.change gap.parent change).root.IsOrderly := by
  rcases along_change gap change orderly found grown.facts kept with
    ⟨path, isPlace, steps, along, facts, changed⟩
  have growth : Node.Along (Node.GrowsBy gap.name gap.position member) path tree.root
      (tree.change gap.parent change).root := along.mono (by rintro _ _ ⟨rfl, rfl⟩; exact grown)
  exact ⟨grows_of_along isPlace steps orderly.numbered changed.numbered
    (congrArg Facts.name facts) growth, changed⟩

theorem shrinks_of_change (gap : Gap) (change : Node → Node) (orderly : tree.root.IsOrderly)
    (found : tree.find? gap.parent = some node) (kept : (change node).IsOrderly)
    (grown : Node.GrowsBy gap.name gap.position member (change node) node) :
    Grows gap (tree.change gap.parent change) tree ∧
      (tree.change gap.parent change).root.IsOrderly := by
  rcases along_change gap change orderly found grown.facts.symm kept with
    ⟨path, isPlace, steps, along, facts, changed⟩
  have name := congrArg Facts.name facts
  rw [← name] at steps
  have growth : Node.Along (Node.GrowsBy gap.name gap.position member) path
      (tree.change gap.parent change).root tree.root :=
    along.flip.mono (by rintro _ _ ⟨rfl, rfl⟩; exact grown)
  exact ⟨grows_of_along isPlace steps changed.numbered orderly.numbered name.symm growth, changed⟩

end Change

theorem insert_ok {tree grown : AnswerTree} {parent inserted : Reference} {name : String}
    {position : Nat} (done : tree.insert parent name position = .ok (grown, inserted)) :
    ∃ node template, tree.find? parent = some node ∧ node.template? name = some template ∧
      grown = tree.change parent (·.insertMember (template.copy (.index position)) position) ∧
      inserted = parent.child name (.index (min position (node.memberCount name))) := by
  rw [AnswerTree.insert] at done
  rcases bind_eq_ok.mp done with ⟨template, made, done⟩
  split at done
  · cases done
  next node found =>
    cases done
    simp only [AnswerTree.template, found] at made
    split at made
    · cases made
    next here =>
      cases made
      exact ⟨node, template, found, here, rfl, rfl⟩

theorem remove_ok {tree shrunk : AnswerTree} {reference : Reference} {removed : Node}
    (done : tree.remove reference = .ok (shrunk, removed)) :
    ∃ position name parent node remaining,
      reference.lastMultiplicity? = some (.index position) ∧ reference.lastName? = some name ∧
      reference.parent? = some parent ∧ tree.find? parent = some node ∧
      node.template? name ≠ none ∧
      node.removeMember? name position = some (removed, remaining) ∧
      shrunk = tree.change parent fun _ => remaining := by
  rw [AnswerTree.remove] at done
  split at done
  next position name parent lastMultiplicity lastName isParent =>
    split at done
    · cases done
    next node found =>
      split at done
      · cases done
      next templated =>
        split at done
        · cases done
        next remaining taken =>
          cases done
          exact ⟨position, name, parent, node, remaining, lastMultiplicity, lastName, isParent,
            found, by simpa using templated, taken, rfl⟩
  · cases done

theorem insert_grows {tree grown : AnswerTree} {parent inserted : Reference} {name : String}
    {position : Nat} (orderly : tree.root.IsOrderly)
    (done : tree.insert parent name position = .ok (grown, inserted)) : ∃ gap : Gap,
      gap.parent = parent ∧ gap.name = name ∧ inserted = gap.member ∧ Grows gap tree grown ∧
      grown.root.IsOrderly := by
  rcases insert_ok done with ⟨node, template, found, here, rfl, rfl⟩
  have nodeOrderly : node.IsOrderly := by
    rcases parent_steps found with ⟨path, -, -, -, reached⟩
    exact descendant_orderly orderly reached
  have fresh := (nodeOrderly.child template (List.mem_of_find?_eq_some here)).copy (.index position)
  have named : (template.copy (.index position)).facts.name = name := by
    rw [Node.name_copy, Node.name_of_template? here]
  have grown := node.insertMember_grows (template.copy (.index position)) position
  rw [named] at grown
  have grows := grows_of_change ⟨parent, name, min position (node.memberCount name)⟩
    (·.insertMember (template.copy (.index position)) position) orderly found
    ⟨nodeOrderly.numbered.insertMember nodeOrderly.lead.leads fresh.numbered position,
      nodeOrderly.lead.insertMember fresh.lead position⟩ ⟨rfl, grown⟩
  exact ⟨_, rfl, rfl, rfl, grows⟩

theorem remove_grows {tree shrunk : AnswerTree} {reference : Reference} {removed : Node}
    (orderly : tree.root.IsOrderly) (done : tree.remove reference = .ok (shrunk, removed)) :
    ∃ gap : Gap, reference = gap.member ∧ reference.parent? = some gap.parent ∧
      removed.facts.name = gap.name ∧ removed.facts.multiplicity = .index gap.position ∧
      tree.find? reference = some removed ∧ Grows gap shrunk tree ∧ shrunk.root.IsOrderly := by
  rcases remove_ok done with ⟨position, name, parent, node, remaining, lastMultiplicity, lastName,
    isParent, found, -, taken, rfl⟩
  rcases parent_steps found with ⟨path, isPlace, steps, isPath, reached⟩
  have nodeOrderly := descendant_orderly orderly reached
  rcases Node.removeMember?_grows (nodeOrderly.numbered.counted name) taken with ⟨facts, grown⟩
  have kept : remaining.IsOrderly := ⟨nodeOrderly.numbered.removeMember taken,
    nodeOrderly.lead.removeMember (nodeOrderly.numbered.counted name) taken⟩
  have shrinks := shrinks_of_change ⟨parent, name, position⟩ (fun _ => remaining) orderly found kept
    ⟨facts, grown⟩
  have named : removed.facts.name = name := congrArg Step.name grown.step
  have placed : removed.facts.multiplicity = .index position :=
    congrArg Step.multiplicity grown.step
  have isMember : reference = parent.child name (.index position) :=
    Reference.eq_child_of_parent? isParent isPlace.absolute lastName lastMultiplicity
  refine ⟨⟨parent, name, position⟩, isMember, isParent, named, placed, ?_, shrinks⟩
  rcases grown.split with ⟨before, after, -, children⟩
  have inChildren : removed ∈ node.children := by simp [children]
  have distinct := Node.IsDistinct.of_numbered nodeOrderly.numbered
  have here := distinct.child?_eq_some inChildren (Node.isTemplate_of_step grown.step)
  rw [named, placed] at here
  rw [isMember, find?_child found rfl, here]

end AnswerTree

end ReactiveForm
