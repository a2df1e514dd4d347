import Hsm.Machine.Basic

/-!
# Building and changing a model

Every change makes the model dirty. A removal that is refused changes nothing.
-/

namespace Hsm

/-- Why a removal is refused. -/
inductive EditError
  | cannotRemoveRoot
  | alreadyRemoved (what : String)
  deriving DecidableEq

def EditError.message : EditError → String
  | cannotRemoveRoot => "The state machine root cannot be removed"
  | alreadyRemoved what => what ++ " has already been removed from the model"

namespace Machine

variable {σ : Type} (M : Machine σ)

/-- Puts a changed structure in place. -/
def withTopology (T : Topology) : Machine σ :=
  { M with topology := T, clean := false }

def setSettings (settings : Settings) : Machine σ :=
  { M with settings := settings, clean := false }

def setSeparator (separator : String) : Machine σ :=
  M.withTopology { M.topology with separator := separator }

/-! ## Additions -/

def addRegion (name : String) (state : VertexId) : RegionId × Machine σ :=
  let (r, T) := M.topology.addRegion name state
  (r, M.withTopology T)

/-- The region that vertices placed in `state` go to. -/
def defaultRegion (state : VertexId) : RegionId × Machine σ :=
  let (r, T) := M.topology.defaultRegion state
  (r, M.withTopology T)

def addVertex (name : String) (place : Place) (kind : VertexKind) : VertexId × Machine σ :=
  let (v, T) := M.topology.addVertex name place kind
  (v, { M.withTopology T with stateBehaviors := M.stateBehaviors.push {} })

/-- A transition that leaves a state waits for its completion; one that leaves a pseudostate
always passes. -/
def defaultGuard (source : VertexId) : Guard σ :=
  if M.topology.isState source then .completion source else .always

/-- An external transition, or one that can only be internal if there is no target. -/
def addTransition (source : VertexId) (target : Option VertexId) : TransitionId × Machine σ :=
  let (t, T) := M.topology.addTransition source target .external
  (t, { M.withTopology T with
    transitionBehaviors := M.transitionBehaviors.push ⟨M.defaultGuard source, []⟩ })

/-! ## Changes -/

def setTransitionKind (t : TransitionId) (kind : TransitionKind) : Machine σ :=
  M.withTopology (M.topology.setTransitionKind t kind)

def modifyTransition (t : TransitionId) (f : TransitionBehavior σ → TransitionBehavior σ) :
    Machine σ :=
  { M with transitionBehaviors := M.transitionBehaviors.modify t.index f, clean := false }

def modifyState (v : VertexId) (f : StateBehavior σ → StateBehavior σ) : Machine σ :=
  { M with stateBehaviors := M.stateBehaviors.modify v.index f, clean := false }

def setGuard (t : TransitionId) (guard : Guard σ) : Machine σ :=
  M.modifyTransition t fun b => { b with guard := guard }

def addEffect (t : TransitionId) (a : Action σ) : Machine σ :=
  M.modifyTransition t fun b => { b with effects := b.effects ++ [a] }

def addEntry (v : VertexId) (a : Action σ) : Machine σ :=
  M.modifyState v fun b => { b with entry := b.entry ++ [a] }

def addExit (v : VertexId) (a : Action σ) : Machine σ :=
  M.modifyState v fun b => { b with exit := b.exit ++ [a] }

/-! ## Removals -/

def removeTransition (t : TransitionId) : Except EditError (Machine σ) :=
  if M.topology.isAttachedTransition t then
    .ok (M.withTopology (M.topology.detachTransition t))
  else
    .error (.alreadyRemoved ("transition " ++ t.text))

/-- Removes a vertex, what it owns, and every transition that touches any of them. -/
def removeVertex (v : VertexId) : Except EditError (Machine σ) :=
  if v = Topology.root then
    .error .cannotRemoveRoot
  else if M.topology.isAttached (.vertex v) then
    .ok (M.withTopology (M.topology.detachVertex v))
  else
    .error (.alreadyRemoved (M.topology.qualifiedName (.vertex v)))

/-- Removes a region and what it owns. -/
def removeRegion (r : RegionId) : Except EditError (Machine σ) :=
  if M.topology.isAttached (.region r) then
    .ok (M.withTopology (M.topology.detachRegion r))
  else
    .error (.alreadyRemoved (M.topology.qualifiedName (.region r)))

end Machine

end Hsm
