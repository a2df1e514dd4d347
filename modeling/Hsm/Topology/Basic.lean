import Hsm.Element
import Hsm.Forest
import Hsm.Kind

/-!
# The structure of a model

A topology numbers the regions, vertices and transitions of a model and stores ownership and
transition ends. Lookups are total. A link from a vertex to its region counts as ownership only if
that region belongs to an earlier vertex, which makes ownership a forest without further
hypotheses (`Topology.ownership`, `Topology.stateTree`); editing only ever makes such links.
-/

namespace Hsm

structure RegionNode where
  name : String
  /-- The state that owns the region. -/
  parent : VertexId
  vertices : List VertexId := []
  detached : Bool := false
  deriving DecidableEq, Inhabited

structure VertexNode where
  name : String
  /-- The region that owns the vertex; none only for the root. -/
  parent : Option RegionId
  kind : VertexKind
  regions : List RegionId := []
  /-- The region for vertices that are placed in this state without naming a region. -/
  defaultRegion : Option RegionId := none
  outgoing : List TransitionId := []
  incoming : List TransitionId := []
  detached : Bool := false
  deriving DecidableEq

instance : Inhabited VertexNode := ⟨⟨"", none, .state, [], none, [], [], false⟩⟩

structure TransitionNode where
  source : VertexId
  /-- None for a transition that can only be internal. -/
  target : Option VertexId
  kind : TransitionKind
  detached : Bool := false
  deriving DecidableEq

instance : Inhabited TransitionNode := ⟨⟨⟨0⟩, none, .internal, false⟩⟩

/-- Regions, vertices and transitions by number; vertex 0 is the root. -/
structure Topology where
  /-- Written between the parts of a qualified name. -/
  separator : String
  regionNodes : Array RegionNode
  vertexNodes : Array VertexNode
  transitionNodes : Array TransitionNode

namespace Topology

/-- The topology of a model that has only its root. -/
def ofName (name : String) : Topology where
  separator := "."
  regionNodes := #[]
  vertexNodes := #[⟨name, none, .machine, [], none, [], [], false⟩]
  transitionNodes := #[]

def root : VertexId := ⟨0⟩

variable (T : Topology)

def region (r : RegionId) : RegionNode :=
  T.regionNodes[r.index]?.getD default

def vertex (v : VertexId) : VertexNode :=
  T.vertexNodes[v.index]?.getD default

def transition (t : TransitionId) : TransitionNode :=
  T.transitionNodes[t.index]?.getD default

def name : Element → String
  | .region r => (T.region r).name
  | .vertex v => (T.vertex v).name

/-! ## Ownership -/

/-- The region that owns a vertex. -/
def ownerRegion (v : VertexId) : Option RegionId :=
  (T.vertex v).parent.filter fun r => (T.region r).parent.index < v.index

/-- The element that owns an element. -/
def owner : Element → Option Element
  | .region r => some (.vertex (T.region r).parent)
  | .vertex v => (T.ownerRegion v).map .region

/-- The state that owns the region of a vertex. -/
def parentState (v : VertexId) : Option VertexId :=
  (T.ownerRegion v).map fun r => (T.region r).parent

theorem ownerRegion_lt {v : VertexId} {r : RegionId} (h : T.ownerRegion v = some r) :
    (T.region r).parent.index < v.index := by
  obtain ⟨-, h⟩ := Option.filter_eq_some_iff.1 h
  exact of_decide_eq_true h

/-- Ownership, with vertices and regions in turn. -/
def ownership : Forest Element where
  parent := T.owner
  height
    | .region r => 2 * (T.region r).parent.index + 1
    | .vertex v => 2 * v.index
  height_lt := by
    intro a b h
    cases a with
    | region r =>
      obtain rfl : Element.vertex (T.region r).parent = b := Option.some.inj h
      exact Nat.lt_succ_self _
    | vertex v =>
      obtain ⟨r, hr, rfl⟩ := Option.map_eq_some_iff.1 h
      have := T.ownerRegion_lt hr
      show 2 * (T.region r).parent.index + 1 < 2 * v.index
      omega

/-- Ownership among vertices alone. -/
def stateTree : Forest VertexId where
  parent := T.parentState
  height v := v.index
  height_lt := by
    intro a b h
    obtain ⟨r, hr, rfl⟩ := Option.map_eq_some_iff.1 h
    exact T.ownerRegion_lt hr

/-- The elements from the root down to `e`, vertices and regions in turn. -/
def ancestry (e : Element) : List Element :=
  T.ownership.ancestors e

/-- The vertices from the root down to `v`. -/
def vertexAncestry (v : VertexId) : List VertexId :=
  T.stateTree.ancestors v

def depth (e : Element) : Nat :=
  T.ownership.depth e

/-- Whether `v` lies strictly beneath `top`. -/
def isDescendant (v top : VertexId) : Bool :=
  T.stateTree.isBelow v top

/-! ## Names -/

/-- The names of the ancestry, with the separator between them. -/
def qualifiedName (e : Element) : String :=
  T.separator.intercalate ((T.ancestry e).map T.name)

/-- The qualified ends of a transition in brackets. -/
def describe (t : TransitionId) : String :=
  let node := T.transition t
  let source := T.qualifiedName (.vertex node.source)
  match node.target with
  | some target => "[" ++ source ++ " -> " ++ T.qualifiedName (.vertex target) ++ "]"
  | none => "[" ++ source ++ "]"

/-! ## Kinds -/

def kind (v : VertexId) : VertexKind :=
  (T.vertex v).kind

def pseudoKind? (v : VertexId) : Option PseudoKind :=
  (T.kind v).pseudoKind?

def isState (v : VertexId) : Bool :=
  (T.kind v).isState

def isHistory (v : VertexId) : Bool :=
  (T.pseudoKind? v).any PseudoKind.isHistory

/-- Nothing leads out of the vertex. -/
def isFinal (v : VertexId) : Bool :=
  (T.vertex v).outgoing.isEmpty

def isSimple (v : VertexId) : Bool :=
  (T.vertex v).regions.isEmpty

def isComposite (v : VertexId) : Bool :=
  !T.isSimple v

def isOrthogonal (v : VertexId) : Bool :=
  1 < (T.vertex v).regions.length

/-- The element has not been removed. -/
def isAttached : Element → Bool
  | .region r => !(T.region r).detached
  | .vertex v => !(T.vertex v).detached

/-- The transition has not been removed. -/
def isAttachedTransition (t : TransitionId) : Bool :=
  !(T.transition t).detached

/-! ## Looking inside regions and states -/

/-- The entry point of a region: the initial or history pseudostate declared last, else the only
vertex. -/
def regionInitial (r : RegionId) : Option VertexId :=
  let vertices := (T.region r).vertices
  match vertices.reverse.find? fun v => (T.pseudoKind? v).any PseudoKind.isInitial with
  | some v => some v
  | none =>
    match vertices with
    | [only] => some only
    | _ => none

/-- The first state of a region that has the name. -/
def findState (r : RegionId) (name : String) : Option VertexId :=
  (T.region r).vertices.find? fun v => T.isState v && (T.vertex v).name = name

/-- The vertices of the regions of `v` down to `n` levels, each before what it owns. -/
def verticesFrom : Nat → VertexId → List VertexId
  | 0, v => [v]
  | n + 1, v =>
    v :: (T.vertex v).regions.flatMap fun r => (T.region r).vertices.flatMap (verticesFrom n)

/-- The vertices that are in the model, from the root, each before what it owns. No chain of
ownership is longer than the number of vertices. -/
def vertices : List VertexId :=
  T.verticesFrom T.vertexNodes.size root

/-- The regions that are in the model, by the vertex that owns them. -/
def regions : List RegionId :=
  T.vertices.flatMap fun v => (T.vertex v).regions

/-- The transitions that are in the model, by their source. -/
def transitions : List TransitionId :=
  T.vertices.flatMap fun v => (T.vertex v).outgoing

/-! ## Activity -/

/-- Whether `v` and all above it are the last known states of their regions. -/
def isActiveIn (lastKnown : RegionId → Option VertexId) (v : VertexId) : Bool :=
  (T.vertexAncestry v).all fun w =>
    match (T.vertex w).parent with
    | some r => lastKnown r = some w
    | none => true

end Topology

end Hsm
