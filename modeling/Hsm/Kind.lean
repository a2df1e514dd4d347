/-!
# Kinds of vertices and transitions
-/

namespace Hsm

/-- What a pseudostate does when it is reached. -/
inductive PseudoKind
  /-- A branch decided after the incoming transition has run. -/
  | choice
  /-- An entry point that resumes the last known state, in every region beneath it too. -/
  | deepHistory
  /-- The default entry point of its region. -/
  | initial
  /-- A branch decided before the incoming transition runs. -/
  | junction
  /-- An entry point that resumes the last known state of its region. -/
  | shallowHistory
  /-- Entering it ends the run. -/
  | terminate
  deriving DecidableEq

namespace PseudoKind

def isHistory : PseudoKind → Bool
  | shallowHistory | deepHistory => true
  | _ => false

/-- Initial and history pseudostates mark the entry point of their region. -/
def isInitial (k : PseudoKind) : Bool :=
  k = initial || k.isHistory

end PseudoKind

/-- How a transition moves between its ends. -/
inductive TransitionKind
  /-- Leaves the source and enters the target, however close they are. -/
  | external
  /-- Runs its effects alone. -/
  | internal
  /-- Stays inside the source; the target is the source or lies beneath it. -/
  | within
  deriving DecidableEq

/-- The variants of a vertex. -/
inductive VertexKind
  | pseudo (kind : PseudoKind)
  | state
  /-- A state meant to have no outgoing transitions, regions or behavior. -/
  | finalState
  /-- The root of the model. -/
  | machine
  deriving DecidableEq

namespace VertexKind

/-- Only states, final states and the machine can be active and own regions. -/
def isState : VertexKind → Bool
  | pseudo _ => false
  | _ => true

def pseudoKind? : VertexKind → Option PseudoKind
  | pseudo k => some k
  | _ => none

end VertexKind

end Hsm
