import Hsm.Machine.Basic
import Hsm.Settings

/-!
# Validation of models

Every rule is checked against what is in the model, and every breach is listed, in the order
regions, vertices, local transitions, names. Validation changes nothing.
-/

namespace Hsm

/-- How grave a breach is. -/
inductive Severity
  | warning
  | error
  deriving DecidableEq

/-- A breach of one rule, with the names it is told under. -/
inductive Violation
  | missingOutgoingTransition (vertex : String) (kind : PseudoKind)
  | multipleElseTransitions (vertex : String) (kind : PseudoKind)
  | unexpectedElseTransition (vertex : String) (kind : PseudoKind)
  | multipleInitialTransitions (vertex : String)
  | guardedInitialTransition (vertex : String)
  | duplicatePseudoState (region : String) (kind : PseudoKind)
  | duplicateDefaultRegion (state : String)
  | finalStateWithTransitions (state : String)
  | finalStateWithRegions (state : String)
  | finalStateWithEntry (state : String)
  | finalStateWithExit (state : String)
  | localTargetNotDescendant (transition : String)
  | duplicateQualifiedName (name : String)
  deriving DecidableEq

namespace Violation

def severity : Violation → Severity
  | finalStateWithEntry _ | finalStateWithExit _ => .warning
  | _ => .error

/-- The name of the broken rule. -/
def rule : Violation → String
  | missingOutgoingTransition _ _ => "MissingOutgoingTransition"
  | multipleElseTransitions _ _ => "MultipleElseTransitions"
  | unexpectedElseTransition _ _ => "UnexpectedElseTransition"
  | multipleInitialTransitions _ => "MultipleInitialTransitions"
  | guardedInitialTransition _ => "GuardedInitialTransition"
  | duplicatePseudoState _ _ => "DuplicatePseudoState"
  | duplicateDefaultRegion _ => "DuplicateDefaultRegion"
  | finalStateWithTransitions _ => "FinalStateWithTransitions"
  | finalStateWithRegions _ => "FinalStateWithRegions"
  | finalStateWithEntry _ => "FinalStateWithEntry"
  | finalStateWithExit _ => "FinalStateWithExit"
  | localTargetNotDescendant _ => "LocalTargetNotDescendant"
  | duplicateQualifiedName _ => "DuplicateQualifiedName"

def message : Violation → String
  | missingOutgoingTransition vertex kind =>
    vertex ++ ": " ++ kind.text ++ " pseudo states must have at least one outgoing transition"
  | multipleElseTransitions vertex kind =>
    vertex ++ ": " ++ kind.text ++ " pseudo states cannot have more than one else transition"
  | unexpectedElseTransition vertex kind =>
    vertex ++ ": " ++ kind.text ++ " pseudo states cannot have else transitions"
  | multipleInitialTransitions vertex =>
    vertex ++ ": initial pseudo states must have no more than one outgoing transition"
  | guardedInitialTransition vertex =>
    vertex ++ ": initial pseudo states cannot have a guard condition"
  | duplicatePseudoState region kind =>
    region ++ ": regions may have at most one " ++ kind.text ++ " pseudo state"
  | duplicateDefaultRegion state =>
    state ++ ": a state cannot have more than one region named " ++ Topology.defaultRegionName
  | finalStateWithTransitions state =>
    state ++ ": final states must not have outgoing transitions"
  | finalStateWithRegions state => state ++ ": final states must not have child regions"
  | finalStateWithEntry state => state ++ ": final states may not have entry behavior"
  | finalStateWithExit state => state ++ ": final states may not have exit behavior"
  | localTargetNotDescendant transition =>
    transition ++ ": local transition target vertices must be a child of the source state"
  | duplicateQualifiedName name =>
    name ++ ": qualified name is used by more than one element"

end Violation

def Severity.text : Severity → String
  | warning => "Warning"
  | error => "Error"

/-- The level at which a breach is logged. -/
def Severity.level : Severity → Level
  | warning => .warn
  | error => .error

namespace Machine

variable {σ : Type} (M : Machine σ)

/-- The breach of a rule that does not hold. -/
def breach (holds : Bool) (violation : Violation) : List Violation :=
  if holds then [] else [violation]

/-- A region has at most one pseudostate of each entry kind. -/
def regionViolations (r : RegionId) : List Violation :=
  let name := M.topology.qualifiedName (.region r)
  [PseudoKind.initial, .deepHistory, .shallowHistory].flatMap fun kind =>
    let count := (M.topology.region r).vertices.countP fun v =>
      M.topology.pseudoKind? v = some kind
    breach (count ≤ 1) (.duplicatePseudoState name kind)

/-- A branch leads somewhere and has one fallback at most. An entry point has one unguarded way
out at most. Only branches have fallbacks. -/
def pseudoViolations (v : VertexId) (kind : PseudoKind) : List Violation :=
  let name := M.topology.qualifiedName (.vertex v)
  let outgoing := (M.topology.vertex v).outgoing
  let fallbacks := outgoing.countP fun t => (M.guard t).isOtherwise
  if kind = .choice || kind = .junction then
    breach (!outgoing.isEmpty) (.missingOutgoingTransition name kind) ++
      breach (fallbacks ≤ 1) (.multipleElseTransitions name kind)
  else
    breach (fallbacks = 0) (.unexpectedElseTransition name kind) ++
      if kind.isInitial then
        breach (outgoing.length ≤ 1) (.multipleInitialTransitions name) ++
          match outgoing with
          | [only] =>
            breach ((M.guard only).isDefault || (M.guard only).isOtherwise)
              (.guardedInitialTransition name)
          | _ => []
      else []

/-- A state has one region of the default name at most. -/
def stateViolations (v : VertexId) : List Violation :=
  let count := (M.topology.vertex v).regions.countP fun r =>
    (M.topology.region r).name = Topology.defaultRegionName
  breach (count ≤ 1) (.duplicateDefaultRegion (M.topology.qualifiedName (.vertex v)))

/-- A final state leads nowhere, owns nothing and does nothing. -/
def finalViolations (v : VertexId) : List Violation :=
  let name := M.topology.qualifiedName (.vertex v)
  let behavior := M.stateBehavior v
  breach (M.topology.isFinal v) (.finalStateWithTransitions name) ++
    breach (M.topology.isSimple v) (.finalStateWithRegions name) ++
    breach behavior.entry.isEmpty (.finalStateWithEntry name) ++
    breach behavior.exit.isEmpty (.finalStateWithExit name)

def vertexViolations (v : VertexId) : List Violation :=
  match M.topology.kind v with
  | .pseudo kind => M.pseudoViolations v kind
  | .finalState => M.stateViolations v ++ M.finalViolations v
  | .state | .machine => M.stateViolations v

/-- A local transition ends in its source or beneath it. -/
def transitionViolations (t : TransitionId) : List Violation :=
  let node := M.topology.transition t
  if node.kind = .within then
    breach (node.target.any fun target =>
        target = node.source || M.topology.isDescendant target node.source)
      (.localTargetNotDescendant (M.topology.describe t))
  else []

/-- The names that occurred before in the list, each as often as it does. -/
def repeatedNames : List String → List String → List String
  | _, [] => []
  | seen, name :: rest =>
    if name ∈ seen then name :: repeatedNames seen rest else repeatedNames (name :: seen) rest

/-- Qualified names are distinct, of vertices and regions together. -/
def nameViolations : List Violation :=
  let T := M.topology
  let elements := T.vertices.map Element.vertex ++ T.regions.map Element.region
  (repeatedNames [] (elements.map T.qualifiedName)).map .duplicateQualifiedName

/-- Every breach, in order. -/
def violations : List Violation :=
  M.topology.regions.flatMap M.regionViolations ++
    M.topology.vertices.flatMap M.vertexViolations ++
    M.topology.transitions.flatMap M.transitionViolations ++
    M.nameViolations

/-- The messages of a validation. -/
def validationMessages : List (Level × String) :=
  M.violations.map fun v => (v.severity.level, v.message)

end Machine

end Hsm
