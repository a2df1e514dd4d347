import Hsm.Instance.Tree
import Hsm.Machine.Basic
import Hsm.Timestamp.Basic

/-!
# Checkpoints

A checkpoint is the snapshot of an instance with a version, an identifier, a time, and the names of
model and instance. It holds nothing of the model, and is checked against its name when the
instance is restored.
-/

namespace Hsm

structure Checkpoint where
  version : Nat
  id : String
  timestamp : Timestamp
  /-- The name of the model. -/
  machine : String
  /-- The name of the instance. -/
  instanceName : String
  snapshot : Snapshot

/-- Why a checkpoint cannot be read or restored. -/
inductive CheckpointError
  | deserializationFailed
  | unsupportedVersion (found : Nat)
  /-- It was taken from one model and is restored into another. -/
  | validationFailed (taken into : String)
  deriving DecidableEq

namespace Checkpoint

/-- The version that is written and read. -/
def currentVersion : Nat := 1

end Checkpoint

def CheckpointError.message : CheckpointError → String
  | deserializationFailed => "Checkpoint deserialization failed"
  | unsupportedVersion found =>
    "Unsupported checkpoint version " ++ toString found ++ ", supported: " ++
      toString Checkpoint.currentVersion
  | validationFailed taken into =>
    "Checkpoint does not match the model: checkpoint was taken from " ++ taken ++
      " but restored into " ++ into

namespace Checkpoint

variable {σ : Type}

/-- The present configuration of an instance. -/
def capture (M : Machine σ) (i : TreeInstance) (id : String) (timestamp : Timestamp) : Checkpoint :=
  ⟨currentVersion, id, timestamp, M.name, i.name, i.snapshot⟩

/-- The instance that a checkpoint of the model was taken from. -/
def restore (c : Checkpoint) (M : Machine σ) : Except CheckpointError TreeInstance :=
  if c.machine = M.name then .ok (TreeInstance.restore c.instanceName c.snapshot)
  else .error (.validationFailed c.machine M.name)

/-- A checkpoint that was read, if its version is supported. -/
def checked : Option Checkpoint → Except CheckpointError Checkpoint
  | none => .error .deserializationFailed
  | some c =>
    if c.version = currentVersion then .ok c else .error (.unsupportedVersion c.version)

end Checkpoint

end Hsm
