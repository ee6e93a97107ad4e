import ReactiveForm.Proofs.Nearness
import ReactiveForm.Tree.Series

/-! Where nodes stand when a series has got one more member: from its place on
the numbers of the series go up by one, and with them the paths of all nodes
below. Names do not change, and near nodes stay near. -/

namespace ReactiveForm

namespace Step

def shift (name : String) (position : Nat) (step : Step) : Step :=
  if step.name = name then
    match step.multiplicity with
    | .index number => if position ≤ number then ⟨name, .index (number + 1)⟩ else step
    | _ => step
  else step

variable {name : String} {position : Nat}

theorem shift_cases (name : String) (position : Nat) (step : Step) :
    (∃ number, position ≤ number ∧ step = ⟨name, .index number⟩ ∧
      step.shift name position = ⟨name, .index (number + 1)⟩) ∨
    step.shift name position = step ∧ ∀ number, position ≤ number → step ≠ ⟨name, .index number⟩ := by
  rcases step with ⟨named, multiplicity⟩
  by_cases same : named = name
  · subst same
    cases multiplicity with
    | unbound | template => exact .inr ⟨by simp [shift], by simp⟩
    | index number =>
        by_cases behind : position ≤ number
        · exact .inl ⟨number, behind, rfl, by simp [shift, behind]⟩
        · refine .inr ⟨by simp [shift, behind], fun other beyond equal => ?_⟩
          cases equal
          exact behind beyond
  · exact .inr ⟨by simp [shift, same], fun _ _ equal => same (congrArg Step.name equal)⟩

@[simp] theorem name_shift (step : Step) : (step.shift name position).name = step.name := by
  rcases step.shift_cases name position with ⟨number, -, rfl, moved⟩ | ⟨same, -⟩
  · rw [moved]
  · rw [same]

theorem shift_injective : Function.Injective (shift name position) := by
  intro left right equal
  rcases left.shift_cases name position with ⟨number, behind, rfl, moved⟩ | ⟨same, before⟩ <;>
    rcases right.shift_cases name position with ⟨other, behind', rfl, moved'⟩ | ⟨same', before'⟩
  · rw [moved, moved'] at equal
    simpa using equal
  · rw [moved, same'] at equal
    exact absurd equal.symm (before' (number + 1) (by omega))
  · rw [same, moved'] at equal
    exact absurd equal (before (other + 1) (by omega))
  · rwa [same, same'] at equal

theorem shift_ne (step : Step) : step.shift name position ≠ ⟨name, .index position⟩ := by
  rcases step.shift_cases name position with ⟨number, behind, -, moved⟩ | ⟨same, before⟩
  · rw [moved]
    intro equal
    have := Multiplicity.index.inj (congrArg Step.multiplicity equal)
    omega
  · rw [same]
    exact before position (by omega)

theorem exists_index_shift {step : Step} (index : ∃ number, step.multiplicity = .index number) :
    ∃ number, (step.shift name position).multiplicity = .index number := by
  rcases step.shift_cases name position with ⟨number, -, -, moved⟩ | ⟨same, -⟩
  · exact ⟨number + 1, by rw [moved]⟩
  · rwa [same]

end Step

def moveSteps (name : String) (position : Nat) : List Step → List Step → List Step
  | _, [] => []
  | [], step :: rest => step.shift name position :: rest
  | first :: path, step :: rest =>
      if step = first then step :: moveSteps name position path rest else step :: rest

section MoveSteps

variable {name : String} {position : Nat}

@[simp] theorem moveSteps_nil (path : List Step) : moveSteps name position path [] = [] := by
  cases path <;> rfl

@[simp] theorem moveSteps_nil_left (step : Step) (rest : List Step) :
    moveSteps name position [] (step :: rest) = step.shift name position :: rest := rfl

@[simp] theorem moveSteps_cons_self (step : Step) (path rest : List Step) :
    moveSteps name position (step :: path) (step :: rest) =
      step :: moveSteps name position path rest := by
  simp [moveSteps]

theorem moveSteps_cons_other {first step : Step} (apart : step ≠ first) (path rest : List Step) :
    moveSteps name position (first :: path) (step :: rest) = step :: rest := by
  simp [moveSteps, apart]

@[simp] theorem map_name_moveSteps (path steps : List Step) :
    (moveSteps name position path steps).map Step.name = steps.map Step.name := by
  induction path generalizing steps with
  | nil => cases steps <;> simp
  | cons first path induction =>
      cases steps with
      | nil => simp
      | cons step rest =>
          by_cases same : step = first
          · subst same
            simp [induction]
          · rw [moveSteps_cons_other same]

theorem moveSteps_indexed {path steps : List Step}
    (indexed : ∀ step ∈ steps, ∃ number, step.multiplicity = .index number) :
    ∀ step ∈ moveSteps name position path steps, ∃ number, step.multiplicity = .index number := by
  induction path generalizing steps with
  | nil =>
      cases steps with
      | nil => exact indexed
      | cons step rest =>
          rcases List.forall_mem_cons.mp indexed with ⟨first, indexed⟩
          exact List.forall_mem_cons.mpr ⟨Step.exists_index_shift first, indexed⟩
  | cons first path induction =>
      cases steps with
      | nil => simp
      | cons step rest =>
          by_cases same : step = first
          · subst same
            rcases List.forall_mem_cons.mp indexed with ⟨here, indexed⟩
            rw [moveSteps_cons_self]
            exact List.forall_mem_cons.mpr ⟨here, induction indexed⟩
          · rwa [moveSteps_cons_other same]

theorem nearSteps_moveSteps (path left right : List Step) :
    Reference.nearSteps (moveSteps name position path left) (moveSteps name position path right) ↔
      Reference.nearSteps left right := by
  induction path generalizing left right with
  | nil =>
      cases left with
      | nil => simp
      | cons first left =>
          cases right with
          | nil => simp
          | cons second right => simp [Reference.nearSteps, Step.shift_injective.eq_iff]
  | cons step path induction =>
      cases left with
      | nil => simp
      | cons first left =>
          cases right with
          | nil => simp
          | cons second right =>
              by_cases here : first = step <;> by_cases there : second = step
              · subst here there
                simp [Reference.nearSteps, induction]
              · subst here
                rw [moveSteps_cons_self, moveSteps_cons_other there]
                simp [Reference.nearSteps, Ne.symm there]
              · subst there
                rw [moveSteps_cons_self, moveSteps_cons_other here]
                simp [Reference.nearSteps, here]
              · rw [moveSteps_cons_other here, moveSteps_cons_other there]

/-- What is near the new member, or near anything inside it, has not moved. -/
theorem moveSteps_eq_self {path below steps : List Step}
    (near : Reference.nearSteps (path ++ ⟨name, .index position⟩ :: below)
      (moveSteps name position path steps)) : moveSteps name position path steps = steps := by
  induction path generalizing steps with
  | nil =>
      cases steps with
      | nil => rfl
      | cons step rest =>
          rcases step.shift_cases name position with ⟨number, -, rfl, moved⟩ | ⟨same, -⟩
          · have equal := (near (by simp)).1
            exact absurd equal.symm (Step.shift_ne _)
          · rw [moveSteps_nil_left, same]
  | cons first path induction =>
      cases steps with
      | nil => simp
      | cons step rest =>
          by_cases same : step = first
          · subst same
            rw [moveSteps_cons_self] at near ⊢
            rw [induction (near rfl).2]
          · rw [moveSteps_cons_other same]

theorem getLast?_moveSteps (name : String) (position : Nat) (path steps : List Step) :
    (moveSteps name position path steps).getLast? = steps.getLast? ∨
      ∃ number, position ≤ number ∧ steps = path ++ [⟨name, .index number⟩] := by
  induction path generalizing steps with
  | nil =>
      cases steps with
      | nil => exact .inl rfl
      | cons step rest =>
          rcases step.shift_cases name position with ⟨number, behind, rfl, -⟩ | ⟨same, -⟩
          · cases rest with
            | nil => exact .inr ⟨number, behind, rfl⟩
            | cons _ _ => exact .inl (by simp)
          · exact .inl (by rw [moveSteps_nil_left, same])
  | cons first path induction =>
      cases steps with
      | nil => exact .inl (by simp)
      | cons step rest =>
          by_cases same : step = first
          · subst same
            rw [moveSteps_cons_self]
            rcases induction rest with last | ⟨number, behind, rfl⟩
            · exact .inl (by rw [List.getLast?_cons, List.getLast?_cons, last])
            · exact .inr ⟨number, behind, rfl⟩
          · exact .inl (by rw [moveSteps_cons_other same])

theorem moveSteps_member {number : Nat} (behind : position ≤ number) (path : List Step) :
    moveSteps name position path (path ++ [⟨name, .index number⟩]) =
      path ++ [⟨name, .index (number + 1)⟩] := by
  induction path with
  | nil => simp [Step.shift, behind]
  | cons first path induction =>
      rw [List.cons_append, moveSteps_cons_self, induction, List.cons_append]

end MoveSteps

structure Gap where
  parent : Reference
  name : String
  position : Nat

namespace Gap

def member (gap : Gap) : Reference := gap.parent.child gap.name (.index gap.position)

def sibling (gap : Gap) (number : Nat) : Reference := gap.parent.child gap.name (.index number)

def move (gap : Gap) (place : Reference) : Reference :=
  { place with steps := moveSteps gap.name gap.position gap.parent.steps place.steps }

variable {gap : Gap} {place other : Reference}

@[simp] theorem genericize_move : (gap.move place).genericize = place.genericize := by
  rw [Reference.genericize_eq_iff]
  exact ⟨rfl, by simp [move]⟩

theorem isLive_member (live : gap.parent.IsLive) : gap.member.IsLive := by
  refine ⟨live.absolute, fun step inMember => ?_⟩
  rcases List.mem_append.mp inMember with inParent | last
  · exact live.indexed step inParent
  · rw [List.mem_singleton.mp last]
    exact ⟨gap.position, rfl⟩

theorem isLive_move (live : place.IsLive) : (gap.move place).IsLive :=
  ⟨live.absolute, moveSteps_indexed live.indexed⟩

@[simp] theorem isNear_move : (gap.move place).IsNear (gap.move other) ↔ place.IsNear other :=
  nearSteps_moveSteps _ _ _

theorem move_eq_self {below : List Step} (inside : other.steps = gap.member.steps ++ below)
    (near : other.IsNear (gap.move place)) : gap.move place = place := by
  rw [Reference.IsNear, inside, member, Reference.child, List.append_assoc] at near
  rw [move, moveSteps_eq_self near]

theorem lastMultiplicity?_move (absolute : gap.parent.origin = place.origin) :
    (gap.move place).lastMultiplicity? = place.lastMultiplicity? ∨
      ∃ number, gap.position ≤ number ∧ place = gap.sibling number := by
  rcases getLast?_moveSteps gap.name gap.position gap.parent.steps place.steps with
    last | ⟨number, behind, steps⟩
  · exact .inl (by rw [Reference.lastMultiplicity?, Reference.lastMultiplicity?, move, last])
  · refine .inr ⟨number, behind, ?_⟩
    cases place
    rw [sibling, Reference.child, absolute, Reference.mk.injEq]
    exact ⟨rfl, steps⟩

theorem move_sibling {number : Nat} (behind : gap.position ≤ number) :
    gap.move (gap.sibling number) = gap.sibling (number + 1) := by
  rw [move, sibling, sibling, Reference.child, Reference.child]
  exact congrArg _ (moveSteps_member behind _)

end Gap

end ReactiveForm
