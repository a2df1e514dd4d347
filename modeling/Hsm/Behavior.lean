import Hsm.Text.Handle
import Hsm.Text.Quoted
import Hsm.Topology.Basic

/-!
# Triggers, guards and actions

An evaluation is caused by a trigger. Guards decide from the trigger, the environment and the
last known states of the instance whether a transition may be taken; they change nothing. Actions
change the environment and may fail. Both may leave notes, which are told in the order in which
they were made.
-/

namespace Hsm

/-- What caused an evaluation. -/
inductive Trigger
  /-- The first entry into the machine. -/
  | initialise
  | message (text : String)
  /-- The state has finished its work. -/
  | completion (state : VertexId)
  deriving DecidableEq

namespace Trigger

def message? : Trigger → Option String
  | message m => some m
  | _ => none

def isCompletionOf (state : VertexId) : Trigger → Bool
  | completion v => v = state
  | _ => false

def isMessage (expected : String) : Trigger → Bool
  | message m => m = expected
  | _ => false

def text : Trigger → String
  | initialise => "initialise"
  | message m => Text.quoted m
  | completion v => "completion of " ++ v.text

end Trigger

/-- What a guard sees besides the trigger. -/
structure GuardContext (σ : Type) where
  env : σ
  topology : Topology
  lastKnown : RegionId → Option VertexId

/-- Whether `v` is active in the instance that the guard is asked about. -/
def GuardContext.isActive {σ : Type} (c : GuardContext σ) (v : VertexId) : Bool :=
  c.topology.isActiveIn c.lastKnown v

/-- The answer of a custom guard with its notes. -/
structure Verdict where
  holds : Bool
  notes : List String := []

/-- The condition under which a transition may be taken. -/
inductive Guard (σ : Type)
  /-- Passes on the completion of the state; the default for transitions that leave a state. -/
  | completion (state : VertexId)
  /-- The default for transitions that leave a pseudostate. -/
  | always
  /-- Never passes, and marks the fallback of a branch. -/
  | otherwise
  | custom (decide : Trigger → GuardContext σ → Verdict)

namespace Guard

variable {σ : Type}

/-- Passes for one message only. -/
def on (m : String) : Guard σ :=
  custom fun trigger _ => ⟨trigger.isMessage m, []⟩

def check : Guard σ → Trigger → GuardContext σ → Verdict
  | completion v, trigger, _ => ⟨trigger.isCompletionOf v, []⟩
  | always, _, _ => ⟨true, []⟩
  | otherwise, _, _ => ⟨false, []⟩
  | custom decide, trigger, context => decide trigger context

def isOtherwise : Guard σ → Bool
  | otherwise => true
  | _ => false

/-- Neither a custom condition nor the fallback mark. -/
def isDefault : Guard σ → Bool
  | completion _ | always => true
  | _ => false

def text : Guard σ → String
  | completion v => "Completion(" ++ v.text ++ ")"
  | always => "Always"
  | otherwise => "Else"
  | custom _ => "Custom"

end Guard

/-- What an action did: the environment it left, its notes, and why it failed if it did. -/
structure Reaction (σ : Type) where
  env : σ
  notes : List String := []
  failure : Option String := none

/-- Behavior run on entry, on exit or on the way along a transition. -/
def Action (σ : Type) : Type :=
  Trigger → σ → Reaction σ

end Hsm
