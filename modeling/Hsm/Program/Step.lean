import Hsm.Assoc
import Hsm.Behavior

/-!
# Compiled programs

A program holds, for every region and vertex, the steps of leaving it and of beginning and ending
its entry, and for every transition the steps of running along it.
-/

namespace Hsm

/-- One instruction of a program. -/
inductive Step (σ : Type)
  /-- Tell that the element is entered. -/
  | enter (e : Element)
  /-- Tell that the element is left. -/
  | leave (e : Element)
  | setCurrent (r : RegionId) (v : VertexId)
  | behavior (a : Action σ)
  /-- Leave whatever is current in the region. -/
  | leaveActive (r : RegionId)
  /-- Enter the region at its last known state or at `initial`, as history demands. -/
  | enterRegion (r : RegionId) (initial : Option VertexId)
  /-- End the entry of an initial or history pseudostate. -/
  | resume (v : VertexId)
  | terminate
  /-- Check the completion of a state after an internal transition. -/
  | completeInternal (v : VertexId)
  /-- Run along a local transition; its path depends on what is active. -/
  | traverseWithin (t : TransitionId)

/-- The steps of one element. -/
structure ElementSteps (σ : Type) where
  leave : List (Step σ) := []
  beginEnter : List (Step σ) := []
  endEnter : List (Step σ) := []

structure Program (σ : Type) where
  elements : Assoc Element (ElementSteps σ) := {}
  traversals : Assoc TransitionId (List (Step σ)) := {}
  onInitialise : List (Step σ) := []

namespace Program

variable {σ : Type} (P : Program σ)

/-- The steps of an element; none for one that was not compiled. -/
def steps (e : Element) : ElementSteps σ :=
  (P.elements.get? e).getD {}

def leave (e : Element) : List (Step σ) :=
  (P.steps e).leave

def beginEnter (e : Element) : List (Step σ) :=
  (P.steps e).beginEnter

def endEnter (e : Element) : List (Step σ) :=
  (P.steps e).endEnter

/-- Both halves of the entry. -/
def enter (e : Element) : List (Step σ) :=
  P.beginEnter e ++ P.endEnter e

def traversal (t : TransitionId) : List (Step σ) :=
  (P.traversals.get? t).getD []

/-- The regions of a state on a path: each begins entry, and all but `next` end it too. -/
def enterBeside (next : Option RegionId) (regions : List RegionId) : List (Step σ) :=
  regions.flatMap fun r =>
    P.beginEnter (.region r) ++ if some r = next then [] else P.endEnter (.region r)

/-- The entry down a path of vertices. Each begins entry; below a state on the path its regions
are entered, and the region on the path is left open for the next vertex. What ends the entry of
the last vertex is left to the caller. -/
def cascade (T : Topology) : List VertexId → List (Step σ)
  | [] => []
  | [v] => P.beginEnter (.vertex v)
  | v :: w :: rest =>
    P.beginEnter (.vertex v) ++
      (if T.isState v then P.enterBeside (T.vertex w).parent (T.vertex v).regions else []) ++
      cascade T (w :: rest)

end Program

end Hsm
