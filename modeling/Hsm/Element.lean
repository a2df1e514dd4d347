/-!
# Handles

Regions, vertices and transitions of a model are numbered in order of creation; a handle is such
a number, and it keeps its meaning after the element is removed. The elements that have a place
in the ownership tree are the regions and the vertices.
-/

namespace Hsm

/-- A region of a state. -/
structure RegionId where
  index : Nat
  deriving DecidableEq, Inhabited

/-- A vertex: a pseudostate, a state, a final state or the machine. -/
structure VertexId where
  index : Nat
  deriving DecidableEq, Inhabited

/-- A transition. -/
structure TransitionId where
  index : Nat
  deriving DecidableEq, Inhabited

/-- A node of the ownership tree: states own regions and regions own vertices. -/
inductive Element
  | region (id : RegionId)
  | vertex (id : VertexId)
  deriving DecidableEq

/-- Where a new vertex goes: into a region, or into the default region of a state. -/
inductive Place
  | region (id : RegionId)
  | state (id : VertexId)
  deriving DecidableEq

end Hsm
