import Hsm.Checkpoint.Basic
import Hsm.Timestamp.Text

/-!
# Checkpoints as bytes

Fields follow each other without separators. Numbers have a fixed width, least byte first; texts
and lists come after their length in eight bytes, an optional value after a byte that is 1 if there
is one and 0 if not. What comes after the end is not looked at.
-/

namespace Hsm

namespace Binary

/-! ## Writing -/

/-- `n` in `width` bytes, least first. -/
def number : Nat → Nat → List UInt8
  | 0, _ => []
  | width + 1, n => UInt8.ofNat (n % 256) :: number width (n / 256)

/-- Text as its length in bytes and UTF-8. -/
def text (s : String) : List UInt8 :=
  let bytes := s.toUTF8.data.toList
  number 8 bytes.length ++ bytes

def flag (b : Bool) : List UInt8 :=
  [if b then 1 else 0]

def optional {α : Type} (write : α → List UInt8) : Option α → List UInt8
  | none => [0]
  | some a => 1 :: write a

def list {α : Type} (write : α → List UInt8) (as : List α) : List UInt8 :=
  number 8 as.length ++ as.flatMap write

mutual

def node : StateNode → List UInt8
  | ⟨name, lastKnown, children⟩ =>
    text name ++ optional text lastKnown ++ number 8 children.length ++ nodes children

def nodes : List StateNode → List UInt8
  | [] => []
  | n :: rest => node n ++ nodes rest

end

def snapshot (s : Snapshot) : List UInt8 :=
  optional node s.activeState ++ list text s.eventHistory ++ flag s.terminated

/-! ## Reading -/

/-- Reads a value off the front of the bytes, or nothing at all. -/
abbrev Reader (α : Type) : Type :=
  StateT (List UInt8) Option α

namespace Reader

variable {α : Type}

def byte : Reader UInt8 := do
  match ← get with
  | b :: rest =>
    set rest
    pure b
  | [] => failure

def number : Nat → Reader Nat
  | 0 => pure 0
  | width + 1 => do
    let b ← byte
    let n ← number width
    pure (b.toNat + 256 * n)

def text : Reader String := do
  let n ← number 8
  let s ← get
  let bytes := s.take n
  if bytes.length = n then
    set (s.drop n)
    match String.fromUTF8? ⟨bytes.toArray⟩ with
    | some t => pure t
    | none => failure
  else failure

def flag : Reader Bool := do
  match (← byte).toNat with
  | 0 => pure false
  | 1 => pure true
  | _ => failure

def optional (value : Reader α) : Reader (Option α) := do
  if ← flag then
    let a ← value
    pure (some a)
  else pure none

def times (value : Reader α) : Nat → Reader (List α)
  | 0 => pure []
  | n + 1 => do
    let a ← value
    let rest ← times value n
    pure (a :: rest)

def list (value : Reader α) : Reader (List α) := do
  let n ← number 8
  times value n

/-- A node with at most `depth` levels; none has more levels than it has bytes. -/
def nodeWithin : Nat → Reader StateNode
  | 0 => failure
  | depth + 1 => do
    let name ← text
    let lastKnown ← optional text
    let children ← list (nodeWithin depth)
    pure ⟨name, lastKnown, children⟩

def node : Reader StateNode := do
  let s ← get
  nodeWithin s.length

def snapshot : Reader Snapshot := do
  let activeState ← optional node
  let eventHistory ← list text
  let terminated ← flag
  pure ⟨activeState, eventHistory, terminated⟩

def timestamp : Reader Timestamp := do
  match Timestamp.ofText? (← text) with
  | some t => pure t
  | none => failure

def checkpoint : Reader Checkpoint := do
  let version ← number 4
  let id ← text
  let timestamp ← timestamp
  let machine ← text
  let instanceName ← text
  let snapshot ← snapshot
  pure ⟨version, id, timestamp, machine, instanceName, snapshot⟩

end Reader

end Binary

namespace Checkpoint

def binary (c : Checkpoint) : List UInt8 :=
  Binary.number 4 c.version ++ Binary.text c.id ++ Binary.text c.timestamp.text ++
    Binary.text c.machine ++ Binary.text c.instanceName ++ Binary.snapshot c.snapshot

def ofBinary (bytes : List UInt8) : Except CheckpointError Checkpoint :=
  checked ((Binary.Reader.checkpoint.run bytes).map (·.1))

end Checkpoint

end Hsm
