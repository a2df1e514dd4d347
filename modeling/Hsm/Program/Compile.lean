import Hsm.Fault
import Hsm.Machine.Basic

/-!
# Compiling a model

A walk over the ownership tree collects the steps of every region and vertex, owned before owner,
since an owner copies the steps of what it owns. Then every transition gets its steps, so that
running it never has to look for the common ancestor of its ends.
-/

namespace Hsm

/-- A program under construction and the faults that were found on the way. -/
structure Draft (σ : Type) where
  program : Program σ := {}
  faults : List Fault := []

namespace Draft

variable {σ : Type} (D : Draft σ)

def modify (e : Element) (f : ElementSteps σ → ElementSteps σ) : Draft σ :=
  { D with program.elements := D.program.elements.alter e fun s => f (s.getD {}) }

def addLeave (e : Element) (steps : List (Step σ)) : Draft σ :=
  D.modify e fun s => { s with leave := s.leave ++ steps }

def addBeginEnter (e : Element) (steps : List (Step σ)) : Draft σ :=
  D.modify e fun s => { s with beginEnter := s.beginEnter ++ steps }

def addEndEnter (e : Element) (steps : List (Step σ)) : Draft σ :=
  D.modify e fun s => { s with endEnter := s.endEnter ++ steps }

/-- Tells of leaving and entering the element. -/
def announce (e : Element) : Draft σ :=
  (D.addLeave e [.leave e]).addBeginEnter e [.enter e]

end Draft

namespace Machine

variable {σ : Type} (M : Machine σ)

/-- A vertex is announced and becomes current in its region. -/
def draftVertex (v : VertexId) (D : Draft σ) : Draft σ :=
  let D := D.announce (.vertex v)
  match (M.topology.vertex v).parent with
  | some r => D.addBeginEnter (.vertex v) [.setCurrent r v]
  | none => D

def draftPseudo (v : VertexId) (k : PseudoKind) (D : Draft σ) : Draft σ :=
  let D := M.draftVertex v D
  if k.isInitial then D.addEndEnter (.vertex v) [.resume v]
  else if k = .terminate then D.addBeginEnter (.vertex v) [.terminate]
  else D

/-- The entry of a region copies the entry of its initial vertex, unless history has to decide
when it is run: the history of the region itself or a deep history above it. -/
def draftRegion (draft : VertexId → Bool → Draft σ → Draft σ) (deepAbove : Bool) (r : RegionId)
    (D : Draft σ) : Draft σ :=
  let T := M.topology
  let initial := T.regionInitial r
  let kind := initial.bind T.pseudoKind?
  let deep := deepAbove || kind = some .deepHistory
  let D := (T.region r).vertices.foldl (fun D v => draft v deep D) D
  let D := D.addLeave (.region r) [.leaveActive r]
  let entry := match initial with
    | some v =>
      if !deepAbove && !kind.any PseudoKind.isHistory then D.program.enter (.vertex v)
      else [.enterRegion r initial]
    | none => [.enterRegion r initial]
  (D.addEndEnter (.region r) entry).announce (.region r)

/-- A state leaves and enters with the steps of its regions, and then runs its own behavior. -/
def draftState (draftRegion : RegionId → Draft σ → Draft σ) (v : VertexId) (D : Draft σ) :
    Draft σ :=
  let D := (M.topology.vertex v).regions.foldl (fun D r =>
    let D := draftRegion r D
    let leave := D.program.leave (.region r)
    let enter := D.program.enter (.region r)
    (D.addLeave (.vertex v) leave).addEndEnter (.vertex v) enter) D
  let D := M.draftVertex v D
  let behavior := M.stateBehavior v
  (D.addLeave (.vertex v) (behavior.exit.map .behavior)).addBeginEnter (.vertex v)
    (behavior.entry.map .behavior)

/-- Drafts `v` and what it owns, down to `n` levels. -/
def draftWithin : Nat → VertexId → Bool → Draft σ → Draft σ
  | 0, _, _, D => D
  | n + 1, v, deepAbove, D =>
    match M.topology.kind v with
    | .pseudo k => M.draftPseudo v k D
    | _ => M.draftState (M.draftRegion (draftWithin n) deepAbove) v D

/-- The index at which an external transition changes from leaving to entering: just below the
last common vertex of the two ancestries, or their shorter end. -/
def splitIndex (source target : List VertexId) : Nat :=
  let last := min source.length target.length - 1
  min (match Forest.commonIndex source target with | some i => i + 1 | none => 0) last

/-- The steps of leaving the source side, running the effects and entering the target side. -/
def externalSteps (P : Program σ) (source target : VertexId) (effects : List (Action σ)) :
    List (Step σ) :=
  let T := M.topology
  let sourcePath := T.vertexAncestry source
  let targetPath := T.vertexAncestry target
  let split := splitIndex sourcePath targetPath
  P.leave (.vertex (sourcePath[split]?.getD source)) ++ effects.map .behavior ++
    P.cascade T (targetPath.drop split) ++ P.endEnter (.vertex target)

/-- The target is the source or lies beneath it. -/
def staysWithin (source target : VertexId) : Bool :=
  target = source || M.topology.isDescendant target source

/-- The steps along one transition, and the fault of a local one that ends outside its source. -/
def draftTransition (D : Draft σ) (t : TransitionId) : Draft σ :=
  let node := M.topology.transition t
  let effects := M.effects t
  let put (faults : List Fault) (steps : List (Step σ)) : Draft σ :=
    { D with
      program.traversals := D.program.traversals.insert t steps
      faults := D.faults ++ faults }
  match node.kind, node.target with
  | .internal, _ | _, none =>
    put [] (effects.map .behavior ++
      if M.settings.completeInternal then [.completeInternal node.source] else [])
  | .external, some target => put [] (M.externalSteps D.program node.source target effects)
  | .within, some target =>
    if M.staysWithin node.source target then put [] [.traverseWithin t]
    else put [.targetNotWithin (M.topology.describe t)]
      (M.externalSteps D.program node.source target effects)

/-- Every element and transition that is in the model, compiled. -/
def draft : Draft σ :=
  let D := M.draftWithin (M.topology.vertexNodes.size + 1) Topology.root false {}
  let D := M.topology.transitions.foldl M.draftTransition D
  { D with program.onInitialise := D.program.enter (.vertex Topology.root) }

/-- The program of the present model. -/
def compile : Program σ :=
  M.draft.program

/-- The model with its program up to date. -/
def initialise : Machine σ :=
  { M with program := some M.compile, clean := true }

end Machine

end Hsm
