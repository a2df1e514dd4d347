import Hsm.Fault
import Hsm.Instance.Basic
import Hsm.Machine.Basic

/-!
# Runs and their trails

A run carries the environment, the instance, the source of choices, and a trail of everything that
happened, newest first. It ends with a value, with a failure, or without an answer because the
depth that it was given did not suffice; what happened before stays in every case.
-/

namespace Hsm

/-- One thing that happened in a run. -/
inductive Event
  /-- A message for the logger. -/
  | message (level : Level) (text : String)
  /-- A line for the history of the instance. -/
  | traced (line : String)
  | entered (e : Element)
  | left (e : Element)
  | setCurrent (r : RegionId) (v : VertexId)
  | terminated
  /-- An action ran, left its notes, and perhaps failed. -/
  | acted (notes : List String) (failure : Option String)
  /-- A guard was asked, and what it noted. -/
  | checked (t : TransitionId) (holds : Bool) (notes : List String)
  /-- The source was asked for one of `count` branches and gave `value`. -/
  | drew (count value : Nat)
  /-- A trigger was offered to a state. -/
  | offered (state : VertexId) (trigger : Trigger)
  /-- A state took a transition for a trigger. -/
  | selected (state : VertexId) (t : TransitionId) (trigger : Trigger)
  /-- The steps of a transition began to run. -/
  | traversed (t : TransitionId)
  deriving DecidableEq

/-- How a run ended. -/
inductive Result (α : Type)
  | value (a : α)
  | failed (failure : Failure)
  /-- The depth did not suffice. -/
  | exhausted
  deriving DecidableEq

/-- What a run carries. -/
structure Session (σ ι : Type) where
  env : σ
  inst : ι
  source : IndexSource
  /-- Newest first. -/
  trail : List Event := []

/-- A computation of the engine. -/
def Run (σ ι α : Type) : Type :=
  Session σ ι → Result α × Session σ ι

namespace Run

variable {σ ι α β : Type}

instance : Monad (Run σ ι) where
  pure a s := (.value a, s)
  bind x f s :=
    match x s with
    | (.value a, s) => f a s
    | (.failed e, s) => (.failed e, s)
    | (.exhausted, s) => (.exhausted, s)

def fail (e : Failure) : Run σ ι α :=
  fun s => (.failed e, s)

def exhausted : Run σ ι α :=
  fun s => (.exhausted, s)

/-- What `f` reads off the session. -/
def read (f : Session σ ι → α) : Run σ ι α :=
  fun s => (.value (f s), s)

def record (e : Event) : Run σ ι Unit :=
  fun s => (.value (), { s with trail := e :: s.trail })

def say (level : Level) (text : String) : Run σ ι Unit :=
  record (.message level text)

/-- Runs an action. A failure ends the run, but not before the environment is changed. -/
def act (a : Action σ) (trigger : Trigger) : Run σ ι Unit := fun s =>
  let reaction := a trigger s.env
  let s := { s with
    env := reaction.env
    trail := .acted reaction.notes reaction.failure :: s.trail }
  match reaction.failure with
  | some message => (.failed (.action message), s)
  | none => (.value (), s)

def actAll (trigger : Trigger) : List (Action σ) → Run σ ι Unit
  | [] => pure ()
  | a :: rest => do
    act a trigger
    actAll trigger rest

/-- An index below `count` from the source of choices. -/
def draw (count : Nat) : Run σ ι Nat := fun s =>
  match s.source.draw with
  | (some value, source) =>
    (.value (value % count), { s with source := source, trail := .drew count value :: s.trail })
  | (none, source) => (.value 0, { s with source := source })

section Instance

variable [Instance ι]

def setCurrent (T : Topology) (r : RegionId) (v : VertexId) : Run σ ι Unit := fun s =>
  (.value (), { s with
    inst := Instance.setCurrent T r v s.inst
    trail := .setCurrent r v :: s.trail })

def terminate : Run σ ι Unit := fun s =>
  (.value (), { s with inst := Instance.terminate s.inst, trail := .terminated :: s.trail })

def trace (line : String) : Run σ ι Unit := fun s =>
  (.value (), { s with inst := Instance.trace line s.inst, trail := .traced line :: s.trail })

def current (T : Topology) (r : RegionId) : Run σ ι (Option VertexId) :=
  read fun s => Instance.current T r s.inst

def lastKnown (T : Topology) (r : RegionId) : Run σ ι (Option VertexId) :=
  read fun s => Instance.lastKnown T r s.inst

def isActive (T : Topology) (v : VertexId) : Run σ ι Bool :=
  read fun s => Instance.isActive T s.inst v

def isComplete (T : Topology) (v : VertexId) : Run σ ι Bool :=
  read fun s => Instance.isComplete T s.inst v

/-- Asks a guard of the machine. -/
def check (M : Machine σ) (trigger : Trigger) (t : TransitionId) : Run σ ι Bool := fun s =>
  let context : GuardContext σ :=
    ⟨s.env, M.topology, fun r => Instance.lastKnown M.topology r s.inst⟩
  let verdict := (M.guard t).check trigger context
  (.value verdict.holds, { s with trail := .checked t verdict.holds verdict.notes :: s.trail })

end Instance

end Run

end Hsm
