import Mathlib.Data.List.Basic
import Mathlib.Data.List.Forall2
import ReactiveForm.Reference.Anchor
import ReactiveForm.Reference.Pattern

/-! Which nodes a pattern denotes as seen from a node: those that the pattern
names and that belong to the same members as the node, as far as their paths
run side by side. This does not depend on which of the two is the viewpoint. -/

namespace ReactiveForm

theorem Multiplicity.isBound_iff {multiplicity : Multiplicity} :
    multiplicity.isBound = true ↔ multiplicity ≠ .unbound := by
  cases multiplicity <;> simp [isBound]

theorem Step.overlaps_iff {left right : Step} :
    left.overlaps right = true ↔
      left.name = right.name ∧ left.multiplicity.overlaps right.multiplicity = true := by
  simp [Step.overlaps]

theorem Step.overlaps_comm (left right : Step) : left.overlaps right = right.overlaps left := by
  have multiplicities : left.multiplicity.overlaps right.multiplicity =
      right.multiplicity.overlaps left.multiplicity := by
    cases left.multiplicity <;> cases right.multiplicity <;>
      simp [Multiplicity.overlaps, eq_comm]
  rw [Step.overlaps, Step.overlaps, multiplicities, Bool.beq_comm]

theorem Step.overlaps_of_unbound {left right : Step} (unbound : left.multiplicity = .unbound) :
    left.overlaps right = true ↔ left.name = right.name := by
  simp [Step.overlaps_iff, unbound, Multiplicity.overlaps]

theorem Step.overlaps_of_bound {left right : Step} (leftBound : left.multiplicity.isBound = true)
    (rightBound : right.multiplicity.isBound = true) :
    left.overlaps right = true ↔ left = right := by
  rcases left with ⟨leftName, leftMultiplicity⟩
  rcases right with ⟨rightName, rightMultiplicity⟩
  cases leftMultiplicity <;> cases rightMultiplicity <;>
    simp_all [Step.overlaps, Multiplicity.overlaps, Multiplicity.isBound]

namespace Reference

/-! Patterns and the nodes they denote. -/

theorem stepsOverlap_iff {left right : List Step} :
    (left.length = right.length ∧ stepsOverlap left right = true) ↔
      List.Forall₂ (fun first second => first.overlaps second = true) left right := by
  induction left generalizing right with
  | nil => cases right <;> simp [stepsOverlap]
  | cons first left induction =>
      cases right with
      | nil => simp
      | cons second right =>
          rw [List.forall₂_cons, ← induction]
          simp [stepsOverlap, and_left_comm]

theorem intersects_iff {left right : Reference} :
    left.intersects right = true ↔ left.origin = right.origin ∧
      List.Forall₂ (fun first second => first.overlaps second = true) left.steps right.steps := by
  rw [← stepsOverlap_iff]
  simp [intersects, and_assoc]

theorem intersects_comm (left right : Reference) :
    left.intersects right = right.intersects left := by
  have flipped : ∀ {left right : Reference}, left.intersects right = true →
      right.intersects left = true := by
    intro left right overlap
    rcases intersects_iff.mp overlap with ⟨origin, steps⟩
    refine intersects_iff.mpr ⟨origin.symm, steps.flip.imp fun _ _ overlap => ?_⟩
    rwa [Step.overlaps_comm]
  exact Bool.eq_iff_iff.mpr ⟨flipped, flipped⟩

theorem forall₂_overlaps_of_unbound {left right : List Step}
    (unbound : ∀ step ∈ left, step.multiplicity = .unbound) :
    List.Forall₂ (fun first second => first.overlaps second = true) left right ↔
      left.map Step.name = right.map Step.name := by
  induction left generalizing right with
  | nil => cases right <;> simp
  | cons first left induction =>
      cases right with
      | nil => simp
      | cons second right =>
          rcases List.forall_mem_cons.mp unbound with ⟨here, below⟩
          rw [List.forall₂_cons, Step.overlaps_of_unbound here, induction below]
          simp

/-- All nodes of a path of names. -/
structure IsPattern (reference : Reference) : Prop where
  absolute : reference.origin = .absolute
  unbound : ∀ step ∈ reference.steps, step.multiplicity = .unbound

instance (reference : Reference) : Decidable reference.IsPattern :=
  decidable_of_iff (reference.origin = .absolute ∧
      ∀ step ∈ reference.steps, step.multiplicity = .unbound)
    ⟨fun ⟨absolute, unbound⟩ => ⟨absolute, unbound⟩, fun isPattern =>
      ⟨isPattern.absolute, isPattern.unbound⟩⟩

structure IsPlace (reference : Reference) : Prop where
  absolute : reference.origin = .absolute
  bound : ∀ step ∈ reference.steps, step.multiplicity.isBound = true

/-- A single node that is no template and in none. -/
structure IsLive (reference : Reference) : Prop where
  absolute : reference.origin = .absolute
  indexed : ∀ step ∈ reference.steps, ∃ position, step.multiplicity = .index position

theorem IsLive.isPlace {reference : Reference} (live : reference.IsLive) : reference.IsPlace := by
  refine ⟨live.absolute, fun step member => ?_⟩
  rcases live.indexed step member with ⟨position, index⟩
  rw [index]
  rfl

theorem genericize_isPattern {reference : Reference} (absolute : reference.origin = .absolute) :
    reference.genericize.IsPattern := by
  refine ⟨absolute, ?_⟩
  simp [genericize, Step.unbound]

theorem IsPattern.genericize_eq {pattern : Reference} (isPattern : pattern.IsPattern) :
    pattern.genericize = pattern := by
  rcases pattern with ⟨origin, steps⟩
  rw [genericize, Reference.mk.injEq]
  refine ⟨rfl, ?_⟩
  have unchanged : ∀ step ∈ steps, Step.unbound step.name = step := by
    intro step member
    rw [Step.unbound, ← isPattern.unbound step member]
  rw [List.map_congr_left unchanged, List.map_id']

theorem genericize_eq_iff {left right : Reference} :
    left.genericize = right.genericize ↔
      left.origin = right.origin ∧ left.steps.map Step.name = right.steps.map Step.name := by
  have byNames : ∀ steps : List Step,
      steps.map (fun step => Step.unbound step.name) = (steps.map Step.name).map Step.unbound :=
    fun steps => by rw [List.map_map]; rfl
  have injective : Function.Injective Step.unbound := fun _ _ equal =>
    congrArg Step.name equal
  rw [genericize, genericize, Reference.mk.injEq, byNames, byNames,
    (List.map_injective_iff.mpr injective).eq_iff]

theorem genericize_eq_of_intersects {left right : Reference}
    (overlap : left.intersects right = true) : left.genericize = right.genericize := by
  rcases intersects_iff.mp overlap with ⟨origin, steps⟩
  rw [genericize_eq_iff]
  refine ⟨origin, ?_⟩
  rw [← List.forall₂_eq_eq_eq, List.forall₂_map_left_iff, List.forall₂_map_right_iff]
  exact steps.imp fun _ _ overlap => (Step.overlaps_iff.mp overlap).1

theorem IsPattern.intersects_iff {pattern reference : Reference} (isPattern : pattern.IsPattern) :
    pattern.intersects reference = true ↔ reference.genericize = pattern := by
  constructor
  · intro overlap
    rw [← genericize_eq_of_intersects overlap, isPattern.genericize_eq]
  · intro equal
    rw [Reference.intersects_iff, forall₂_overlaps_of_unbound isPattern.unbound,
      ← genericize_eq_iff, isPattern.genericize_eq, equal]

/-! What a context makes of a reference. -/

section Cons

variable {step context : Step} {steps contexts : List Step}

theorem anchorSteps_cons_of_eq (unbound : step.multiplicity = .unbound)
    (named : step.name = context.name) :
    anchorSteps (step :: steps) (context :: contexts) = context :: anchorSteps steps contexts := by
  simp [anchorSteps, named, unbound, Multiplicity.isBound]

theorem anchorSteps_cons_of_ne (named : step.name ≠ context.name) :
    anchorSteps (step :: steps) (context :: contexts) = step :: steps := by
  simp [anchorSteps, named]

end Cons

theorem map_name_anchorSteps (steps context : List Step) :
    (anchorSteps steps context).map Step.name = steps.map Step.name := by
  induction steps generalizing context with
  | nil => cases context <;> simp [anchorSteps]
  | cons step steps induction =>
      cases context with
      | nil => simp [anchorSteps]
      | cons other context =>
          rw [anchorSteps]
          split
          · rfl
          next names =>
            have equal : step.name = other.name := by simpa using names
            split
            · rw [List.map_cons, List.map_cons, induction, equal]
            · split
              · rfl
              · rw [List.map_cons, List.map_cons, induction]

theorem mem_anchorSteps {steps context : List Step} {step : Step}
    (member : step ∈ anchorSteps steps context) : step ∈ steps ∨ step ∈ context := by
  induction steps generalizing context with
  | nil => cases context <;> cases member
  | cons first steps induction =>
      cases context with
      | nil => exact .inl member
      | cons other context =>
          have later {head : Step} (inTail : head = first ∨ head = other)
              (found : step ∈ head :: anchorSteps steps context) :
              step ∈ first :: steps ∨ step ∈ other :: context := by
            rcases List.mem_cons.mp found with rfl | found
            · exact inTail.imp (fun equal => by simp [equal]) fun equal => by simp [equal]
            · exact (induction found).imp (List.mem_cons_of_mem _) (List.mem_cons_of_mem _)
          rw [anchorSteps] at member
          split at member
          · exact .inl member
          · split at member
            · exact later (.inr rfl) member
            · split at member
              · exact .inl member
              · exact later (.inl rfl) member

theorem exists_anchor_genericize {reference context other anchored : Reference}
    (same : context.genericize = other.genericize)
    (found : reference.anchor context = .ok anchored) :
    ∃ otherAnchored, reference.anchor other = .ok otherAnchored ∧
      otherAnchored.genericize = anchored.genericize := by
  rcases genericize_eq_iff.mp same with ⟨origin, names⟩
  have lengths : context.steps.length = other.steps.length := by
    simpa using congrArg List.length names
  have absolute : context.isAbsolute = other.isAbsolute := by
    rw [isAbsolute, isAbsolute, origin]
  rw [anchor] at found ⊢
  split at found
  next climb _ =>
    rw [absolute, lengths] at found
    split at found
    · cases found
    next isAbsolute =>
      split at found
      · cases found
      next climbs =>
        cases found
        rw [if_neg isAbsolute, if_neg climbs]
        refine ⟨_, rfl, genericize_eq_iff.mpr ⟨rfl, ?_⟩⟩
        simp [Reference.absolute, List.map_take, names]
  next =>
    cases found
    refine ⟨_, rfl, genericize_eq_iff.mpr ⟨rfl, ?_⟩⟩
    simp only [Reference.absolute]
    split <;> split <;> simp only [map_name_anchorSteps]

theorem exists_anchor_of_absolute {reference : Reference} (absolute : reference.origin = .absolute)
    (context : Reference) : ∃ anchored, reference.anchor context = .ok anchored ∧
      anchored.genericize = reference.genericize := by
  rw [anchor, absolute]
  refine ⟨_, rfl, genericize_eq_iff.mpr ⟨absolute.symm, ?_⟩⟩
  simp only [Reference.absolute]
  split
  · rw [map_name_anchorSteps]
  · rfl

theorem anchor_of_absolute {reference context : Reference} (absolute : reference.origin = .absolute)
    (contextAbsolute : context.origin = .absolute) : reference.anchor context =
      .ok (Reference.absolute (anchorSteps reference.steps context.steps)) := by
  simp [anchor, isAbsolute, absolute, contextAbsolute]

theorem anchor_origin {reference context anchored : Reference}
    (found : reference.anchor context = .ok anchored) : anchored.origin = .absolute := by
  rw [anchor] at found
  split at found
  · split at found
    · cases found
    · split at found
      · cases found
      · cases found
        rfl
  · cases found
    rfl

/-! Nearness. -/

def nearSteps : List Step → List Step → Prop
  | left :: lefts, right :: rights =>
      left.name = right.name → left = right ∧ nearSteps lefts rights
  | _, _ => True

/-- Both stand in the same members of the series that both stand in. -/
def IsNear (left right : Reference) : Prop := nearSteps left.steps right.steps

@[simp] theorem nearSteps_nil_left (steps : List Step) : nearSteps [] steps := by
  simp [nearSteps]

@[simp] theorem nearSteps_nil_right (steps : List Step) : nearSteps steps [] := by
  cases steps <;> simp [nearSteps]

theorem nearSteps_comm (left right : List Step) : nearSteps left right ↔ nearSteps right left := by
  induction left generalizing right with
  | nil => simp
  | cons first left induction =>
      cases right with
      | nil => simp
      | cons second right => simp only [nearSteps, induction, eq_comm]

theorem isNear_comm (left right : Reference) : left.IsNear right ↔ right.IsNear left :=
  nearSteps_comm _ _

theorem forall₂_anchorSteps {steps context place : List Step}
    (unbound : ∀ step ∈ steps, step.multiplicity = .unbound)
    (contextBound : ∀ step ∈ context, step.multiplicity.isBound = true)
    (placeBound : ∀ step ∈ place, step.multiplicity.isBound = true) :
    List.Forall₂ (fun first second => first.overlaps second = true)
        (anchorSteps steps context) place ↔
      steps.map Step.name = place.map Step.name ∧ nearSteps context place := by
  induction steps generalizing context place with
  | nil => cases place <;> cases context <;> simp [anchorSteps]
  | cons step steps induction =>
      rcases List.forall_mem_cons.mp unbound with ⟨stepUnbound, below⟩
      cases context with
      | nil => simp [anchorSteps, forall₂_overlaps_of_unbound unbound]
      | cons other context =>
          by_cases names : step.name = other.name
          · rw [anchorSteps_cons_of_eq stepUnbound names]
            cases place with
            | nil => simp
            | cons here place =>
                rcases List.forall_mem_cons.mp contextBound with ⟨otherBound, contextBound⟩
                rcases List.forall_mem_cons.mp placeBound with ⟨hereBound, placeBound⟩
                rw [List.forall₂_cons, Step.overlaps_of_bound otherBound hereBound,
                  induction below contextBound placeBound, List.map_cons, List.map_cons,
                  List.cons.injEq, nearSteps, names]
                constructor
                · rintro ⟨rfl, agree, near⟩
                  exact ⟨⟨rfl, agree⟩, fun _ => ⟨rfl, near⟩⟩
                · rintro ⟨⟨same, agree⟩, near⟩
                  exact ⟨(near same).1, agree, (near same).2⟩
          · rw [anchorSteps_cons_of_ne names, forall₂_overlaps_of_unbound unbound, iff_self_and]
            intro agree
            cases place with
            | nil => simp
            | cons here place =>
                intro same
                have first : step.name = here.name := by simpa using (List.cons.inj agree).1
                exact absurd (first.trans same.symm) names

theorem IsPattern.exists_anchor {pattern context : Reference} (isPattern : pattern.IsPattern)
    (contextPlace : context.IsPlace) :
    ∃ near, pattern.anchor context = .ok near ∧ ∀ place : Reference, place.IsPlace →
      (near.intersects place = true ↔ place.genericize = pattern ∧ context.IsNear place) := by
  rcases pattern with ⟨origin, steps⟩
  rcases isPattern with ⟨rfl, unbound⟩
  refine ⟨_, anchor_of_absolute rfl contextPlace.absolute, ?_⟩
  intro place isPlace
  have names : place.genericize = ⟨.absolute, steps⟩ ↔
      steps.map Step.name = place.steps.map Step.name := by
    have generic : genericize ⟨.absolute, steps⟩ = ⟨.absolute, steps⟩ :=
      IsPattern.genericize_eq ⟨rfl, unbound⟩
    rw [← generic, genericize_eq_iff, eq_comm (a := place.origin)]
    simp [isPlace.absolute, eq_comm]
  rw [Reference.intersects_iff, Reference.absolute,
    forall₂_anchorSteps unbound contextPlace.bound isPlace.bound, names, IsNear]
  simp [isPlace.absolute]

theorem IsPattern.not_template {pattern : Reference} (isPattern : pattern.IsPattern) :
    ∀ step ∈ pattern.steps, step.multiplicity ≠ .template := by
  intro step member
  rw [isPattern.unbound step member]
  exact Multiplicity.noConfusion

theorem IsPattern.not_template_of_anchor {pattern context near : Reference}
    (isPattern : pattern.IsPattern) (live : context.IsLive)
    (anchored : pattern.anchor context = .ok near) :
    ∀ step ∈ near.steps, step.multiplicity ≠ .template := by
  rw [anchor_of_absolute isPattern.absolute live.absolute] at anchored
  cases anchored
  intro step member
  rcases mem_anchorSteps member with inPattern | inContext
  · exact isPattern.not_template step inPattern
  · rcases live.indexed step inContext with ⟨position, index⟩
    rw [index]
    exact Multiplicity.noConfusion

/-! References that leave the path of a target early. -/

def sharedSteps : List Step → List Step → Nat
  | left :: lefts, right :: rights =>
      if left.name = right.name then sharedSteps lefts rights + 1 else 0
  | _, _ => 0

def shared (left right : Reference) : Nat := sharedSteps left.steps right.steps

theorem le_sharedSteps_iff {left right : List Step} {count : Nat} :
    count ≤ sharedSteps left right ↔ count ≤ left.length ∧ count ≤ right.length ∧
      (left.take count).map Step.name = (right.take count).map Step.name := by
  induction left generalizing right count with
  | nil => cases count <;> simp [sharedSteps]
  | cons first left induction =>
      cases right with
      | nil => cases count <;> simp [sharedSteps]
      | cons second right =>
          cases count with
          | zero => simp
          | succ count =>
              rw [sharedSteps]
              split
              next same => simp [induction, same]
              next apart => simp [apart]

/-- A pattern takes over the steps of its context as far as the names agree, and keeps its
own from there on. -/
theorem anchorSteps_eq_append {pattern context : List Step}
    (unbound : ∀ step ∈ pattern, step.multiplicity = .unbound) :
    anchorSteps pattern context =
      context.take (sharedSteps pattern context) ++ pattern.drop (sharedSteps pattern context) := by
  induction pattern generalizing context with
  | nil => simp [anchorSteps, sharedSteps]
  | cons step pattern induction =>
      rcases List.forall_mem_cons.mp unbound with ⟨here, below⟩
      cases context with
      | nil => simp [anchorSteps, sharedSteps]
      | cons other context =>
          by_cases named : step.name = other.name
          · rw [anchorSteps_cons_of_eq here named, sharedSteps, if_pos named, List.take_succ_cons,
              List.drop_succ_cons, induction below, List.cons_append]
          · rw [anchorSteps_cons_of_ne named, sharedSteps, if_neg named, List.take_zero,
              List.drop_zero, List.nil_append]

theorem nearSteps_of_sharedSteps_eq_zero {left right : List Step}
    (apart : sharedSteps left right = 0) : nearSteps left right := by
  cases left with
  | nil => simp
  | cons first left =>
      cases right with
      | nil => simp
      | cons second right =>
          intro same
          simp [sharedSteps, same] at apart

theorem sharedSteps_congr {left right other another : List Step}
    (leftNames : left.map Step.name = other.map Step.name)
    (rightNames : right.map Step.name = another.map Step.name) :
    sharedSteps left right = sharedSteps other another := by
  induction left generalizing right other another with
  | nil =>
      cases other with
      | nil => simp [sharedSteps]
      | cons _ _ => cases leftNames
  | cons first left induction =>
      cases other with
      | nil => cases leftNames
      | cons first' other =>
          rcases List.cons.inj leftNames with ⟨firstName, leftNames⟩
          cases right with
          | nil =>
              cases another with
              | nil => simp [sharedSteps]
              | cons _ _ => cases rightNames
          | cons second right =>
              cases another with
              | nil => cases rightNames
              | cons second' another =>
                  rcases List.cons.inj rightNames with ⟨secondName, rightNames⟩
                  rw [sharedSteps, sharedSteps, firstName, secondName,
                    induction leftNames rightNames]

theorem shared_congr {left right other another : Reference}
    (leftSame : left.genericize = other.genericize)
    (rightSame : right.genericize = another.genericize) :
    left.shared right = other.shared another :=
  sharedSteps_congr (genericize_eq_iff.mp leftSame).2 (genericize_eq_iff.mp rightSame).2

theorem isNear_of_shared_le_one {left right : Reference} {root : Step} {lefts rights : List Step}
    (leftSteps : left.steps = root :: lefts) (rightSteps : right.steps = root :: rights)
    (apart : left.shared right ≤ 1) : left.IsNear right := by
  rw [IsNear, leftSteps, rightSteps]
  intro _
  refine ⟨rfl, nearSteps_of_sharedSteps_eq_zero ?_⟩
  rw [shared, leftSteps, rightSteps, sharedSteps, if_pos rfl] at apart
  omega

/-! References to what is inside a node. -/

theorem covers_of_inside {member place : Reference} (memberAbsolute : member.origin = .absolute)
    (absolute : place.origin = .absolute) {below : List Step}
    (inside : place.steps = member.steps ++ below) :
    member.genericize.covers place.genericize = true := by
  have overlap : ∀ steps : List Step, stepsOverlap
      (steps.map fun step => .unbound step.name)
      ((steps ++ below).map fun step => .unbound step.name) = true := by
    intro steps
    induction steps with
    | nil => simp [stepsOverlap]
    | cons step steps induction =>
        simp [stepsOverlap, Step.overlaps, Step.unbound, Multiplicity.overlaps] at induction ⊢
        exact induction
  simp only [covers, genericize, memberAbsolute, absolute, inside, overlap]
  simp

theorem inside_of_covers {member place : Reference}
    (covered : member.genericize.covers place.genericize = true) (near : member.IsNear place) :
    ∃ below, place.steps = member.steps ++ below := by
  have byStep : ∀ first second : List Step, first.length ≤ second.length →
      stepsOverlap (first.map fun step => .unbound step.name)
        (second.map fun step => .unbound step.name) = true →
      nearSteps first second → ∃ below, second = first ++ below := by
    intro first
    induction first with
    | nil => exact fun second _ _ _ => ⟨second, rfl⟩
    | cons step first induction =>
        intro second shorter overlap near
        cases second with
        | nil => cases shorter
        | cons other second =>
            rw [List.map_cons, List.map_cons, stepsOverlap, Bool.and_eq_true,
              Step.overlaps_iff] at overlap
            rcases near overlap.1.1 with ⟨rfl, nearRest⟩
            rcases induction second (Nat.le_of_succ_le_succ shorter) overlap.2 nearRest with
              ⟨below, rfl⟩
            exact ⟨below, rfl⟩
  simp only [covers, genericize, Bool.and_eq_true, decide_eq_true_eq,
    List.length_map] at covered
  exact byStep _ _ covered.1.2 covered.2 near

theorem near_of_inside {member place : Reference} {below : List Step}
    (inside : place.steps = member.steps ++ below) : member.IsNear place := by
  rw [IsNear, inside]
  induction member.steps with
  | nil => simp
  | cons step steps induction => exact fun _ => ⟨rfl, induction⟩

end Reference

end ReactiveForm
