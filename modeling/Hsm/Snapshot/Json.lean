import Hsm.Instance.Tree
import Hsm.Json.Printer
import Hsm.Json.Shape

/-!
# Snapshots as JSON

A node is an object of its name, its last known name if there is one, and its children. Reading
wants the name alone, and null or nothing for a last known name that is not set.
-/

namespace Hsm

namespace StateNode

mutual

/-- The members of a node in writing order. -/
def json : StateNode → String
  | ⟨name, lastKnown, children⟩ =>
    Json.object
      ([("name", Json.string name)] ++
        (match lastKnown with | some s => [("lastKnown", Json.string s)] | none => []) ++
        [("children", Json.list (jsonAll children))])

def jsonAll : List StateNode → List String
  | [] => []
  | node :: rest => json node :: jsonAll rest

end

/-- The fields of a node that were read so far. -/
structure Fields where
  name : Option String := none
  lastKnown : Option (Option String) := none
  children : Option (List StateNode) := none

open Json Reader in
/-- The two forms of a node whose children are read by `children`. -/
def form (children : Reader (List StateNode)) : Record StateNode where
  asList := do
    let name ← field true string none
    let lastKnown ← field false (optional string) (some none)
    let children ← field false children (some [])
    pure ⟨name, lastKnown, children⟩
  asObject :=
    object
      (fun node name =>
        match name with
        | "name" => .once node.name string fun a => { node with name := some a }
        | "lastKnown" =>
          .once node.lastKnown (optional string) fun a => { node with lastKnown := some a }
        | "children" => .once node.children children fun a => { node with children := some a }
        | _ => .unknown)
      ({} : Fields)
      fun node => node.name.map fun name => ⟨name, node.lastKnown.join, node.children.getD []⟩

/-- Reads a node with `n` levels of nesting left. -/
def reader : Nat → Json.Reader StateNode
  | 0 => Json.Reader.record none
  | 1 => Json.Reader.record (some (form (Json.Reader.list none)))
  | n + 2 => Json.Reader.record (some (form (Json.Reader.list (some (reader n)))))

end StateNode

namespace Snapshot

def json (s : Snapshot) : String :=
  Json.object
    [("activeState", match s.activeState with | some node => node.json | none => "null"),
      ("eventHistory", Json.list (s.eventHistory.map Json.string)),
      ("terminated", Json.boolean s.terminated)]

/-- The fields of a snapshot that were read so far. -/
structure Fields where
  activeState : Option (Option StateNode) := none
  eventHistory : Option (List String) := none
  terminated : Option Bool := none

open Json Reader in
/-- The two forms of a snapshot with `n` levels of nesting left inside it. As an object it may lack
any field, as a list only those at the end that have a default. -/
def form (n : Nat) : Record Snapshot :=
  let node := optional (StateNode.reader n)
  let lines : Reader (List String) := list (if n = 0 then none else some string)
  { asList := do
      let activeState ← field true node none
      let eventHistory ← field false lines (some [])
      let terminated ← field false boolean (some false)
      pure ⟨activeState, eventHistory, terminated⟩
    asObject :=
      object
        (fun s name =>
          match name with
          | "activeState" => .once s.activeState node fun a => { s with activeState := some a }
          | "eventHistory" => .once s.eventHistory lines fun a => { s with eventHistory := some a }
          | "terminated" => .once s.terminated boolean fun a => { s with terminated := some a }
          | _ => .unknown)
        ({} : Fields)
        fun s => some ⟨s.activeState.join, s.eventHistory.getD [], s.terminated.getD false⟩ }

/-- Reads a snapshot with `n` levels of nesting left. -/
def reader : Nat → Json.Reader Snapshot
  | 0 => Json.Reader.record none
  | n + 1 => Json.Reader.record (some (form n))

/-- The number of lists and objects that may be open at once. -/
def maxNesting : Nat := 127

def ofJson (text : String) : Except Json.Flaw Snapshot :=
  (reader maxNesting).run text

end Snapshot

/-- The JSON text of the present configuration. -/
def TreeInstance.json (i : TreeInstance) : String :=
  i.snapshot.json

/-- The instance after taking up the configuration of a text. -/
def TreeInstance.ofJson (i : TreeInstance) (text : String) : Except Json.Flaw TreeInstance :=
  (Snapshot.ofJson text).map i.apply

end Hsm
