import Hsm.Assoc
import Hsm.Instance.Basic

/-!
# Instances kept in tables of handles
-/

namespace Hsm

/-- An instance that lives as long as the process. -/
structure TableInstance where
  name : String
  current : Assoc RegionId VertexId := {}
  lastKnown : Assoc RegionId VertexId := {}
  terminated : Bool := false
  deriving DecidableEq

namespace TableInstance

def setCurrent (T : Topology) (r : RegionId) (v : VertexId) (i : TableInstance) : TableInstance :=
  { i with
    current := i.current.insert r v
    lastKnown := if T.isState v then i.lastKnown.insert r v else i.lastKnown }

instance : Instance TableInstance where
  name := TableInstance.name
  setCurrent := setCurrent
  current _ r i := i.current.get? r
  lastKnown _ r i := i.lastKnown.get? r
  isTerminated := TableInstance.terminated
  terminate i := { i with terminated := true }
  trace _ i := i

end TableInstance

end Hsm
