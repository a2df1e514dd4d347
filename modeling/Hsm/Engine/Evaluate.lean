import Hsm.Engine.Layer

/-!
# Starting instances and evaluating messages

A call compiles the model if it changed, unless it asks for a model that is clean. It answers with
the result, what became of model, environment and instance, and the events in order. Of the model
only the program and the source of choices can have changed.
-/

namespace Hsm

/-- What a call left behind. -/
structure Outcome (σ ι α : Type) where
  result : Result α
  machine : Machine σ
  env : σ
  inst : ι
  /-- Oldest first. -/
  events : List Event

/-- The messages of an initialisation: its announcement, then the faults. -/
def Machine.initialiseEvents {σ : Type} (M : Machine σ) : List Event :=
  .message .debug ("initialise " ++ M.name) ::
    M.draft.faults.map fun f => .message .error f.message

namespace Machine

variable {σ ι α : Type}

/-- Carries out a run on behalf of the model. -/
def execute (M : Machine σ) (env : σ) (inst : ι) (x : Run σ ι α) : Outcome σ ι α :=
  let (result, s) := x ⟨env, inst, M.settings.source, []⟩
  ⟨result, { M with settings.source := s.source }, s.env, s.inst, s.trail.reverse⟩

/-- Carries out a run that needs the program of the present model. -/
def executeCompiled (M : Machine σ) (env : σ) (inst : ι) (x : Program σ → Run σ ι α) :
    Outcome σ ι α :=
  match M.clean, M.program with
  | true, some P => M.execute env inst (x P)
  | _, _ => M.execute env inst (Run.fail (.notInitialised M.name))

/-- Compiles the model if it changed before it goes on. -/
def whenClean (M : Machine σ) (next : Machine σ → Outcome σ ι α) : Outcome σ ι α :=
  if M.clean then next M
  else
    let outcome := next M.initialise
    { outcome with events := M.initialiseEvents ++ outcome.events }

variable [Instance ι]

/-- Enters the machine for the first time. -/
def startRun (M : Machine σ) (depth : Nat) (P : Program σ) : Run σ ι Unit := do
  let name ← Run.read fun s => Instance.name s.inst
  Run.say .debug ("initialise " ++ name)
  (engine M P depth).performAll .initialise false P.onInitialise

/-- Hands a message to the machine, and says whether a transition was taken. An instance whose run
has ended takes none. -/
def evaluateRun (M : Machine σ) (depth : Nat) (message : String) (P : Program σ) :
    Run σ ι Bool := do
  let name ← Run.read fun s => Instance.name s.inst
  let line := "evaluate " ++ Text.quoted message
  Run.say .debug (name ++ " " ++ line)
  Run.trace line
  if ← Run.read fun s => Instance.isTerminated s.inst then pure false
  else (engine M P depth).offer Topology.root (.message message)

def startCompiled (M : Machine σ) (depth : Nat) (env : σ) (inst : ι) : Outcome σ ι Unit :=
  M.executeCompiled env inst (M.startRun depth)

def start (M : Machine σ) (depth : Nat) (env : σ) (inst : ι) : Outcome σ ι Unit :=
  M.whenClean fun M => M.startCompiled depth env inst

def evaluateCompiled (M : Machine σ) (depth : Nat) (env : σ) (inst : ι) (message : String) :
    Outcome σ ι Bool :=
  M.executeCompiled env inst (M.evaluateRun depth message)

def evaluate (M : Machine σ) (depth : Nat) (env : σ) (inst : ι) (message : String) :
    Outcome σ ι Bool :=
  M.whenClean fun M => M.evaluateCompiled depth env inst message

end Machine

end Hsm
