import Hsm.Assoc
import Hsm.Instance.Basic

/-!
# Instances kept in a tree of names

The tree follows the ownership of the model by name: the root stands for the machine, its children
for regions, theirs for states, and so on. The node of a region holds the name of its last known
state, which is all that is needed to take a run up again; snapshots hold the tree, the lines
traced so far and whether the run has ended.
-/

namespace Hsm

/-- A node of the tree of active states. -/
structure StateNode where
  name : String
  lastKnown : Option String := none
  children : List StateNode := []

namespace StateNode

/-- The first child with the name. -/
def child? (node : StateNode) (name : String) : Option StateNode :=
  node.children.find? (·.name = name)

/-- The node at the end of a path of names below a node. -/
def find? (node : StateNode) : List String → Option StateNode
  | [] => some node
  | name :: path => (node.child? name).bind (find? · path)

/-- Changes the first node of a list that has the name; a new one goes to the end. -/
def alterFirst (name : String) (f : StateNode → StateNode) : List StateNode → List StateNode
  | [] => [f ⟨name, none, []⟩]
  | node :: rest => if node.name = name then f node :: rest else node :: alterFirst name f rest

/-- Changes the node at the end of a path, making what is missing on the way. -/
def alter (f : StateNode → StateNode) : List String → StateNode → StateNode
  | [], node => f node
  | name :: path, node => { node with children := alterFirst name (alter f path) node.children }

end StateNode

/-- The persisted form of an instance. Traced lines are listed most recent first. -/
structure Snapshot where
  activeState : Option StateNode := none
  eventHistory : List String := []
  terminated : Bool := false

/-- An instance whose configuration can be stored and taken up again. -/
structure TreeInstance where
  name : String
  /-- The current vertices of this process; a snapshot leaves them out. -/
  current : Assoc RegionId VertexId := {}
  activeState : Option StateNode := none
  eventHistory : List String := []
  /-- The number of traced lines that are kept, if there is a limit. -/
  historyLimit : Option Nat := none
  terminated : Bool := false

namespace TreeInstance

/-- Drops the oldest lines that are over the limit. -/
def truncated (limit : Option Nat) (lines : List String) : List String :=
  match limit with
  | some n => lines.take n
  | none => lines

/-- Keeps at most `limit` traced lines from now on. -/
def withHistoryLimit (limit : Nat) (i : TreeInstance) : TreeInstance :=
  { i with historyLimit := some limit, eventHistory := i.eventHistory.take limit }

def snapshot (i : TreeInstance) : Snapshot :=
  ⟨i.activeState, i.eventHistory, i.terminated⟩

/-- Replaces the configuration. Last known states take the place of current vertices. -/
def apply (i : TreeInstance) (s : Snapshot) : TreeInstance :=
  { i with
    current := {}
    activeState := s.activeState
    eventHistory := truncated i.historyLimit s.eventHistory
    terminated := s.terminated }

/-- The instance of a snapshot. -/
def restore (name : String) (s : Snapshot) : TreeInstance :=
  ({ name := name } : TreeInstance).apply s

/-- The names that lead from the root of the tree to the node of a region. -/
def path (T : Topology) (r : RegionId) : List String :=
  (T.ancestry (.region r)).tail.map T.name

def lastKnown (T : Topology) (r : RegionId) (i : TreeInstance) : Option VertexId :=
  ((i.activeState.bind (·.find? (path T r))).bind StateNode.lastKnown).bind (T.findState r)

/-- Records the last known state of a region under its name. -/
def remember (T : Topology) (r : RegionId) (v : VertexId) (i : TreeInstance) : TreeInstance :=
  let tree := i.activeState.getD ⟨T.name (.vertex Topology.root), none, []⟩
  let name := T.name (.vertex v)
  { i with
    activeState := some (tree.alter (fun node => { node with lastKnown := some name }) (path T r)) }

def setCurrent (T : Topology) (r : RegionId) (v : VertexId) (i : TreeInstance) : TreeInstance :=
  let i := { i with current := i.current.insert r v }
  if T.isState v then i.remember T r v else i

/-- An instance that was restored knows last known states alone, so they stand in. -/
def currentIn (T : Topology) (r : RegionId) (i : TreeInstance) : Option VertexId :=
  match i.current.get? r with
  | some v => some v
  | none => i.lastKnown T r

def trace (line : String) (i : TreeInstance) : TreeInstance :=
  { i with eventHistory := truncated i.historyLimit (line :: i.eventHistory) }

instance : Instance TreeInstance where
  name := TreeInstance.name
  setCurrent := setCurrent
  current := currentIn
  lastKnown := lastKnown
  isTerminated := TreeInstance.terminated
  terminate i := { i with terminated := true }
  trace := trace

end TreeInstance

end Hsm
