import ReactiveForm.Proofs.Growth
import ReactiveForm.Proofs.Upkeep

/-! Nodes and their counterparts in a tree that has grown by one member. A rule
says the same at both, unless it reads something in the new member, or a member
whose number has changed. -/

namespace ReactiveForm

namespace AnswerTree.Grows

variable {gap : Gap} {small big : AnswerTree}

theorem move_mem (grows : Grows gap small big) {place : Reference}
    (member : place ∈ small.references) : gap.move place ∈ big.references := by
  rcases grows.references with ⟨early, new, late, smallReferences, bigReferences, -⟩
  rw [bigReferences, List.append_assoc, List.mem_append, List.mem_append]
  rw [smallReferences] at member
  rcases List.mem_append.mp member with inEarly | inLate
  · exact .inl (List.mem_map_of_mem inEarly)
  · exact .inr (.inr (List.mem_map_of_mem inLate))

theorem mem_cases (grows : Grows gap small big) {place : Reference}
    (member : place ∈ big.references) :
    (∃ counterpart ∈ small.references, place = gap.move counterpart) ∨
      ∃ below, place.steps = gap.member.steps ++ below := by
  rcases grows.references with ⟨early, new, late, smallReferences, bigReferences, inside⟩
  rw [bigReferences, List.append_assoc, List.mem_append, List.mem_append] at member
  rw [smallReferences]
  rcases member with inEarly | inNew | inLate
  · rcases List.mem_map.mp inEarly with ⟨counterpart, isEarly, rfl⟩
    exact .inl ⟨counterpart, List.mem_append_left _ isEarly, rfl⟩
  · exact .inr (inside place inNew)
  · rcases List.mem_map.mp inLate with ⟨counterpart, isLate, rfl⟩
    exact .inl ⟨counterpart, List.mem_append_right _ isLate, rfl⟩

theorem answer?_move (grows : Grows gap small big) {place : Reference}
    (member : place ∈ small.references) : big.answer? (gap.move place) = small.answer? place := by
  rw [answer?_eq_held, answer?_eq_held, grows.held .answer place member]

theorem filter_references (grows : Grows gap small big) {here there : Reference → Bool}
    (same : ∀ place ∈ small.references, there (gap.move place) = here place)
    (nothingNew : ∀ place ∈ big.references, (∃ below, place.steps = gap.member.steps ++ below) →
      there place = false) :
    big.references.filter there = (small.references.filter here).map gap.move := by
  rcases grows.references with ⟨early, new, late, smallReferences, bigReferences, inside⟩
  have none : new.filter there = [] := by
    rw [List.filter_eq_nil_iff]
    intro place inNew
    rw [nothingNew place (by simp [bigReferences, inNew]) (inside place inNew)]
    simp
  have part (places : List Reference) (inSmall : places ⊆ small.references) :
      (places.map gap.move).filter there = (places.filter here).map gap.move := by
    rw [List.filter_map]
    congr 1
    exact List.filter_congr fun place member => same place (inSmall member)
  rw [bigReferences, List.filter_append, List.filter_append, none, List.append_nil,
    part early (by simp [smallReferences]), part late (by simp [smallReferences]),
    smallReferences, List.filter_append, List.map_append]

end AnswerTree.Grows

namespace Look

variable {gap : Gap} {small big : AnswerTree} {look : Look} {place : Reference}

theorem nodes_move (grows : small.Grows gap big) (isPattern : look.reference.IsPattern)
    (member : place ∈ small.references) {found foundThere : List Reference}
    (finds : look.nodes small place = .ok found)
    (findsThere : look.nodes big (gap.move place) = .ok foundThere)
    (nothingNew : ∀ read ∈ foundThere, ¬ ∃ below, read.steps = gap.member.steps ++ below) :
    foundThere = found.map gap.move := by
  have live := (AnswerTree.isLive_of_mem grows.smallNumbered member).1
  have liveThere : (gap.move place).IsLive := Gap.isLive_move live
  rcases look.nodes_subset grows.smallNumbered isPattern live finds with ⟨followed, follows, rfl⟩
  rcases look.nodes_subset grows.bigNumbered isPattern liveThere findsThere with
    ⟨followedThere, followsThere, rfl⟩
  refine grows.filter_references (fun read inSmall => ?_) fun read inBig new => ?_
  · have readLive := (AnswerTree.isLive_of_mem grows.smallNumbered inSmall).1
    rw [Bool.eq_iff_iff]
    rw [Look.followed] at follows followsThere
    split at follows
    next whole =>
      rw [if_pos whole] at followsThere
      cases follows
      cases followsThere
      rw [isPattern.intersects_iff, isPattern.intersects_iff, Gap.genericize_move]
    next near =>
      rw [if_neg near] at followsThere
      rcases isPattern.exists_anchor live.isPlace with ⟨anchored, isAnchored, denotes⟩
      rcases isPattern.exists_anchor liveThere.isPlace with
        ⟨anchoredThere, isAnchoredThere, denotesThere⟩
      rw [isAnchored] at follows
      rw [isAnchoredThere] at followsThere
      cases follows
      cases followsThere
      rw [denotes read readLive.isPlace, denotesThere _ (Gap.isLive_move readLive).isPlace,
        Gap.genericize_move, Gap.isNear_move]
  · rw [← Bool.not_eq_true]
    intro overlap
    exact nothingNew read (List.mem_filter.mpr ⟨inBig, overlap⟩) new

theorem addUp_move (grows : small.Grows gap big) {found : List Reference}
    (inSmall : found ⊆ small.references) (total : Float) :
    Expression.addUp big total (found.map gap.move) = Expression.addUp small total found := by
  induction found generalizing total with
  | nil => rfl
  | cons first rest induction =>
      rcases List.cons_subset.mp inSmall with ⟨here, inSmall⟩
      simp only [List.map_cons, Expression.addUp, grows.answer?_move here, induction inSmall]

theorem result_move (grows : small.Grows gap big) {found : List Reference}
    (inSmall : found ⊆ small.references)
    (nothingShifted : ∀ number, gap.position ≤ number → gap.sibling number ∉ found) :
    look.result big (found.map gap.move) = look.result small found := by
  cases look with
  | answer reference =>
      cases found with
      | nil => rfl
      | cons first rest =>
          simp [Look.result, Expression.firstAnswer, grows.answer?_move (inSmall List.mem_cons_self)]
  | position reference =>
      cases found with
      | nil => rfl
      | cons first rest =>
          have here := inSmall List.mem_cons_self
          rcases AnswerTree.isLive_of_mem grows.smallNumbered here with ⟨live, below, steps⟩
          have number : (gap.move first).lastMultiplicity? = first.lastMultiplicity? := by
            have absolute := grows.parent.absolute.trans live.absolute.symm
            refine (Gap.lastMultiplicity?_move absolute).resolve_right ?_
            rintro ⟨number, behind, rfl⟩
            exact nothingShifted number behind List.mem_cons_self
          obtain ⟨last, isLast⟩ : ∃ last, first.steps.getLast? = some last :=
            ⟨_, List.getLast?_eq_some_getLast (by simp [steps])⟩
          rcases live.indexed last (List.mem_of_getLast? isLast) with ⟨index, isIndex⟩
          have position : first.lastMultiplicity? = some (.index index) := by
            rw [Reference.lastMultiplicity?, isLast, Option.map_some, isIndex]
          simp only [Look.result, List.map_cons, Expression.firstPosition, number, position]
  | count reference => simp [Look.result]
  | sum reference => simp only [Look.result, addUp_move grows inSmall]

end Look

/-- A narrow rule says the same at a node and at its counterpart, if it reads
nothing in the new member and no member whose number has changed. -/
theorem Rule.IsNarrow.evaluate_move {gap : Gap} {small big : AnswerTree} {rule : Rule}
    (narrow : rule.IsNarrow) (grows : small.Grows gap big) (now : DateTime) {place : Reference}
    (member : place ∈ small.references)
    (follows : ∀ look ∈ rule.expression.looks, ∃ found, look.nodes small place = .ok found)
    (followsThere : ∀ look ∈ rule.expression.looks, ∃ found,
      look.nodes big (gap.move place) = .ok found)
    (nothingNew : ∀ read, rule.expression.Reads big (gap.move place) read →
      ¬ ∃ below, read.steps = gap.member.steps ++ below)
    (nothingShifted : ∀ number, gap.position ≤ number →
      ¬ rule.expression.Reads small place (gap.sibling number)) :
    Expression.evaluate now big (gap.move place) rule.expression =
      Expression.evaluate now small place rule.expression := by
  apply Expression.evaluate_congr
  intro look inLooks
  rcases follows look inLooks with ⟨found, finds⟩
  rcases followsThere look inLooks with ⟨foundThere, findsThere⟩
  have isPattern := (narrow look inLooks).isPattern
  have live := (AnswerTree.isLive_of_mem grows.smallNumbered member).1
  have counterparts := look.nodes_move grows isPattern member finds findsThere
    fun read inFound => nothingNew read ⟨look, inLooks, foundThere, findsThere, inFound⟩
  have inSmall : found ⊆ small.references := by
    rcases look.nodes_subset grows.smallNumbered isPattern live finds with ⟨followed, -, rfl⟩
    exact List.filter_subset_self _
  rw [look.evaluate_expression, look.evaluate_expression, finds, findsThere, counterparts]
  exact Look.result_move grows inSmall
    fun number behind inFound => nothingShifted number behind ⟨look, inLooks, found, finds, inFound⟩

end ReactiveForm
