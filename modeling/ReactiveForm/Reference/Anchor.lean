import ReactiveForm.Reference.Syntax

namespace ReactiveForm

/-! References seen from a context. A relative one becomes absolute; an
absolute one takes over the members that the context singles out on the way
they have in common. -/

inductive ReferenceError where
  | malformed (written : String) (flaw : Reference.Flaw)
  /-- The path climbs more levels than the context has. -/
  | climbsTooFar (reference context : Reference)
  /-- A relative path meets a context that is itself relative. -/
  | needsContext (reference context : Reference)
  | lacksContext (reference : Reference)
  /-- A rule may only act on an absolute path. -/
  | relativeTarget (target : Reference)
  deriving DecidableEq, Repr

def ReferenceError.message : ReferenceError → String
  | .malformed written flaw =>
      "invalid reference '" ++ written ++ "': " ++ flaw.message
  | .climbsTooFar reference context =>
      "invalid reference '" ++ reference.text ++ "': climbs above the root of " ++
        context.text
  | .needsContext reference context =>
      "relative reference " ++ reference.text ++ " needs an absolute context, got " ++
        context.text
  | .lacksContext reference =>
      "relative reference " ++ reference.text ++ " needs an absolute context, got none"
  | .relativeTarget target =>
      "invalid reference '" ++ target.text ++ "': triggerable targets must be absolute"

namespace Reference

def parse (written : String) : Except ReferenceError Reference :=
  (read written).mapError (.malformed written)

/-- Take over the context's multiplicities for unbound steps, up to the first
step where names or bound multiplicities disagree. -/
def anchorSteps : List Step → List Step → List Step
  | step :: steps, context :: contexts =>
      if step.name != context.name then step :: steps
      else if !step.multiplicity.isBound then context :: anchorSteps steps contexts
      else if context.multiplicity.isBound && step.multiplicity != context.multiplicity then
        step :: steps
      else step :: anchorSteps steps contexts
  | steps, _ => steps

def anchor (reference context : Reference) : Except ReferenceError Reference :=
  match reference.origin with
  | .relative climb =>
      if !context.isAbsolute then .error (.needsContext reference context)
      else if context.steps.length < climb then .error (.climbsTooFar reference context)
      else
        .ok (absolute (context.steps.take (context.steps.length - climb) ++
          reference.steps))
  | .absolute =>
      .ok (absolute
        (if context.isAbsolute then anchorSteps reference.steps context.steps
        else reference.steps))

end Reference

end ReactiveForm
