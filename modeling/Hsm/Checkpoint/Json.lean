import Hsm.Checkpoint.Basic
import Hsm.Snapshot.Json
import Hsm.Timestamp.Text

/-!
# Checkpoints as JSON

All six fields have to be there. The version is looked at when everything else was read.
-/

namespace Hsm.Checkpoint

def json (c : Checkpoint) : String :=
  Json.object
    [("version", toString c.version), ("id", Json.string c.id),
      ("timestamp", Json.string c.timestamp.text), ("machine", Json.string c.machine),
      ("instance", Json.string c.instanceName), ("snapshot", c.snapshot.json)]

/-- The fields of a checkpoint that were read so far. -/
structure Fields where
  version : Option Nat := none
  id : Option String := none
  timestamp : Option Timestamp := none
  machine : Option String := none
  instanceName : Option String := none
  snapshot : Option Snapshot := none

open Json Reader in
def timestampReader : Reader Timestamp := do
  match Timestamp.ofText? (← string) with
  | some t => pure t
  | none => fail .mismatch

open Json Reader in
/-- The two forms of a checkpoint with `n` levels of nesting left inside it. -/
def form (n : Nat) : Record Checkpoint :=
  let version := natural (Nat.pow 2 32)
  let snapshot := Snapshot.reader n
  { asList := do
      let version ← field true version none
      let id ← field false string none
      let timestamp ← field false timestampReader none
      let machine ← field false string none
      let instanceName ← field false string none
      let snapshot ← field false snapshot none
      pure ⟨version, id, timestamp, machine, instanceName, snapshot⟩
    asObject :=
      object
        (fun c name =>
          match name with
          | "version" => .once c.version version fun a => { c with version := some a }
          | "id" => .once c.id string fun a => { c with id := some a }
          | "timestamp" =>
            .once c.timestamp timestampReader fun a => { c with timestamp := some a }
          | "machine" => .once c.machine string fun a => { c with machine := some a }
          | "instance" => .once c.instanceName string fun a => { c with instanceName := some a }
          | "snapshot" => .once c.snapshot snapshot fun a => { c with snapshot := some a }
          | _ => .unknown)
        ({} : Fields)
        fun c => do
          some ⟨← c.version, ← c.id, ← c.timestamp, ← c.machine, ← c.instanceName, ← c.snapshot⟩ }

def ofJson (text : String) : Except CheckpointError Checkpoint :=
  checked ((Json.Reader.record (some (form (Snapshot.maxNesting - 1)))).run text).toOption

end Hsm.Checkpoint
