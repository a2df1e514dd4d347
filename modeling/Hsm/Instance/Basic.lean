import Hsm.Topology.Basic

/-!
# Instances

An instance is one run of a model: the vertex that is current in each region, the last known
state of each region, which history and completion rest on, and whether the run has ended. It
holds nothing of the model; regions and vertices are resolved through the topology.
-/

namespace Hsm

/-- What the engine needs of an instance. -/
class Instance (ι : Type) where
  name : ι → String
  /-- Makes a vertex current in a region. A state also becomes the last known state. -/
  setCurrent : Topology → RegionId → VertexId → ι → ι
  current : Topology → RegionId → ι → Option VertexId
  lastKnown : Topology → RegionId → ι → Option VertexId
  isTerminated : ι → Bool
  terminate : ι → ι
  /-- Takes note of a line of the run. -/
  trace : String → ι → ι

namespace Instance

variable {ι : Type} [Instance ι] (T : Topology) (i : ι)

/-- Whether `v` and all above it are last known states. -/
def isActive (v : VertexId) : Bool :=
  T.isActiveIn (fun r => lastKnown T r i) v

/-- A region is complete if its last known state is final. -/
def isCompleteRegion (r : RegionId) : Bool :=
  (lastKnown T r i).any T.isFinal

/-- A vertex is complete if all its regions are. -/
def isComplete (v : VertexId) : Bool :=
  (T.vertex v).regions.all (isCompleteRegion T i)

end Instance

end Hsm
