/-!
# Faults of a model and failures of an evaluation

A fault is a mistake of the model that shows while it is compiled or run. An evaluation fails by
such a fault, by an action, or because the model has changed since it was compiled. Names and
triggers are kept as the texts under which they are told.
-/

namespace Hsm

inductive Fault
  /-- Several transitions out of a state pass for one trigger. -/
  | ambiguousTransition (state trigger : String)
  /-- Several transitions out of a junction pass for one trigger. -/
  | ambiguousJunction (vertex trigger : String)
  /-- No branch passes and there is no fallback. -/
  | noEligibleTransition (vertex trigger : String)
  /-- Nothing leads out of an entry point. -/
  | missingInitialTransition (vertex : String)
  /-- A local transition ends outside its source. -/
  | targetNotWithin (transition : String)
  deriving DecidableEq

def Fault.message : Fault → String
  | ambiguousTransition state trigger =>
    state ++ ": multiple outbound transitions evaluated true for message " ++ trigger
  | ambiguousJunction vertex trigger =>
    vertex ++ ": multiple outbound transition guards returned true for " ++ trigger
  | noEligibleTransition vertex trigger =>
    vertex ++ ": no outbound transition or else transition for " ++ trigger
  | missingInitialTransition vertex => vertex ++ ": no outgoing transition to follow on entry"
  | targetNotWithin transition =>
    "local transition " ++ transition ++ " does not target a descendant of its source"

/-- Why an evaluation stopped. -/
inductive Failure
  /-- The model has no program for its present form. -/
  | notInitialised (machine : String)
  | fault (f : Fault)
  /-- An action failed with this message. -/
  | action (message : String)
  deriving DecidableEq

def Failure.message : Failure → String
  | notInitialised machine =>
    "state machine " ++ machine ++ " has not been initialised since its last change"
  | fault f => f.message
  | action message => "action failed: " ++ message

end Hsm
