import Hsm.Topology.Basic

/-!
# Editing a topology

Additions give the next number to what they add. Removal keeps the numbers: it marks what is
removed as detached and takes it out of the lists of its neighbours, with everything it owns and
every transition that touches it.
-/

namespace Hsm

namespace Topology

/-- The name of a region that is made because a vertex was placed in a state. -/
def defaultRegionName : String := "default"

variable (T : Topology)

def modifyRegion (r : RegionId) (f : RegionNode → RegionNode) : Topology :=
  { T with regionNodes := T.regionNodes.modify r.index f }

def modifyVertex (v : VertexId) (f : VertexNode → VertexNode) : Topology :=
  { T with vertexNodes := T.vertexNodes.modify v.index f }

def modifyTransition (t : TransitionId) (f : TransitionNode → TransitionNode) : Topology :=
  { T with transitionNodes := T.transitionNodes.modify t.index f }

/-! ## Additions -/

def addRegion (name : String) (state : VertexId) : RegionId × Topology :=
  let r : RegionId := ⟨T.regionNodes.size⟩
  (r, { T with regionNodes := T.regionNodes.push ⟨name, state, [], false⟩ }.modifyVertex state
    fun node => { node with regions := node.regions ++ [r] })

/-- The default region of a state, made anew if there is none or it was removed. -/
def defaultRegion (state : VertexId) : RegionId × Topology :=
  match (T.vertex state).defaultRegion.filter fun r => T.isAttached (.region r) with
  | some r => (r, T)
  | none =>
    let (r, T) := T.addRegion defaultRegionName state
    (r, T.modifyVertex state fun node => { node with defaultRegion := some r })

/-- The region that a place stands for. -/
def regionAt : Place → RegionId × Topology
  | .region r => (r, T)
  | .state state => T.defaultRegion state

def addVertex (name : String) (place : Place) (kind : VertexKind) : VertexId × Topology :=
  let (r, T) := T.regionAt place
  let v : VertexId := ⟨T.vertexNodes.size⟩
  (v, { T with vertexNodes := T.vertexNodes.push ⟨name, some r, kind, [], none, [], [], false⟩
    }.modifyRegion r fun node => { node with vertices := node.vertices ++ [v] })

/-- Without a target a transition can only be internal. -/
def effectiveKind (target : Option VertexId) (kind : TransitionKind) : TransitionKind :=
  if target.isSome then kind else .internal

def addTransition (source : VertexId) (target : Option VertexId) (kind : TransitionKind) :
    TransitionId × Topology :=
  let t : TransitionId := ⟨T.transitionNodes.size⟩
  let node : TransitionNode := ⟨source, target, effectiveKind target kind, false⟩
  let T := { T with transitionNodes := T.transitionNodes.push node }.modifyVertex source
    fun node => { node with outgoing := node.outgoing ++ [t] }
  match target with
  | some target =>
    (t, T.modifyVertex target fun node => { node with incoming := node.incoming ++ [t] })
  | none => (t, T)

def setTransitionKind (t : TransitionId) (kind : TransitionKind) : Topology :=
  T.modifyTransition t fun node => { node with kind := effectiveKind node.target kind }

/-! ## Removals -/

def detachTransition (t : TransitionId) : Topology :=
  let node := T.transition t
  let T := (T.modifyTransition t fun node => { node with detached := true }).modifyVertex node.source
    fun node => { node with outgoing := node.outgoing.filter (· ≠ t) }
  match node.target with
  | some target =>
    T.modifyVertex target fun node => { node with incoming := node.incoming.filter (· ≠ t) }
  | none => T

/-- Detaches a vertex whose regions are already gone, with the transitions that touch it. -/
def detachBareVertex (v : VertexId) : Topology :=
  let node := T.vertex v
  let T := (node.outgoing ++ node.incoming).foldl detachTransition T
  let T := match node.parent with
    | some r =>
      T.modifyRegion r fun node => { node with vertices := node.vertices.filter (· ≠ v) }
    | none => T
  T.modifyVertex v fun node => { node with detached := true }

/-- Detaches a region whose vertices are already gone. -/
def detachBareRegion (r : RegionId) : Topology :=
  (T.modifyVertex (T.region r).parent
    fun node => { node with regions := node.regions.filter (· ≠ r) }).modifyRegion r
    fun node => { node with detached := true }

/-- Detaches a region after its vertices, each by `detach`. -/
def detachRegionBy (detach : Topology → VertexId → Topology) (r : RegionId) : Topology :=
  ((T.region r).vertices.foldl detach T).detachBareRegion r

/-- Detaches a vertex after its regions, down to `n` levels. -/
def detachVertexWithin : Nat → Topology → VertexId → Topology
  | 0, T, v => T.detachBareVertex v
  | n + 1, T, v =>
    ((T.vertex v).regions.foldl (detachRegionBy · (detachVertexWithin n)) T).detachBareVertex v

/-- Detaches a vertex and everything it owns. -/
def detachVertex (v : VertexId) : Topology :=
  detachVertexWithin T.vertexNodes.size T v

/-- Detaches a region and everything it owns. -/
def detachRegion (r : RegionId) : Topology :=
  T.detachRegionBy (detachVertexWithin T.vertexNodes.size) r

end Topology

end Hsm
