import Hsm.Assoc
import Hsm.Behavior

/-!
# Scripted guards and actions

Conditions and commands are data that stand for guards and actions over an environment of named
counters. They note what they do under labels.
-/

namespace Hsm.Script

/-- Named counters; one that was never set counts as 0. -/
abbrev Counters : Type :=
  Assoc String Int

def Counters.value (c : Counters) (name : String) : Int :=
  (c.get? name).getD 0

inductive Comparison
  | lt
  | le
  | eq
  | ne
  | ge
  | gt
  deriving DecidableEq

def Comparison.holds : Comparison → Int → Int → Bool
  | lt, a, b => a < b
  | le, a, b => a ≤ b
  | eq, a, b => a = b
  | ne, a, b => a ≠ b
  | ge, a, b => b ≤ a
  | gt, a, b => b < a

/-- A condition on the trigger, the instance and the counters. -/
inductive Condition
  | const (b : Bool)
  | message (m : String)
  | anyMessage
  /-- The trigger is a message that starts with the text. -/
  | startsWith (start : String)
  | initialising
  | completionOf (state : VertexId)
  | active (v : VertexId)
  | lastKnown (r : RegionId) (v : Option VertexId)
  | counter (name : String) (comparison : Comparison) (n : Int)
  | negation (e : Condition)
  /-- All hold; looked at from left to right up to the first that does not. -/
  | all (es : List Condition)
  /-- One holds; looked at from left to right up to the first that does. -/
  | any (es : List Condition)
  /-- Notes the label and goes on with the condition. -/
  | noted (label : String) (e : Condition)

namespace Condition

mutual

def eval (trigger : Trigger) (context : GuardContext Counters) : Condition → Verdict
  | const b => ⟨b, []⟩
  | message m => ⟨trigger.isMessage m, []⟩
  | anyMessage => ⟨trigger.message?.isSome, []⟩
  | startsWith start => ⟨trigger.message?.any fun m => start.toList.isPrefixOf m.toList, []⟩
  | initialising => ⟨trigger = .initialise, []⟩
  | completionOf state => ⟨trigger.isCompletionOf state, []⟩
  | active v => ⟨context.isActive v, []⟩
  | lastKnown r v => ⟨context.lastKnown r = v, []⟩
  | counter name comparison n => ⟨comparison.holds (context.env.value name) n, []⟩
  | negation e =>
    let verdict := eval trigger context e
    ⟨!verdict.holds, verdict.notes⟩
  | all es => evalAll trigger context es
  | any es => evalAny trigger context es
  | noted label e =>
    let verdict := eval trigger context e
    ⟨verdict.holds, ("guard|" ++ label) :: verdict.notes⟩

def evalAll (trigger : Trigger) (context : GuardContext Counters) : List Condition → Verdict
  | [] => ⟨true, []⟩
  | e :: rest =>
    let first := eval trigger context e
    if first.holds then
      let others := evalAll trigger context rest
      ⟨others.holds, first.notes ++ others.notes⟩
    else first

def evalAny (trigger : Trigger) (context : GuardContext Counters) : List Condition → Verdict
  | [] => ⟨false, []⟩
  | e :: rest =>
    let first := eval trigger context e
    if first.holds then first
    else
      let others := evalAny trigger context rest
      ⟨others.holds, first.notes ++ others.notes⟩

end

/-- The guard that a condition stands for. -/
def guard (e : Condition) : Guard Counters :=
  .custom fun trigger context => e.eval trigger context

end Condition

/-- One action. -/
inductive Command
  /-- Notes the label. -/
  | note (label : String)
  /-- Notes the label with the trigger. -/
  | noteTrigger (label : String)
  | add (name : String) (n : Int)
  | fail (message : String)
  /-- Fails if the comparison holds of the counter. -/
  | failIf (name : String) (comparison : Comparison) (n : Int) (message : String)

/-- The action that a command stands for. -/
def Command.action : Command → Action Counters
  | note label => fun _ env => ⟨env, ["act|" ++ label], none⟩
  | noteTrigger label => fun trigger env => ⟨env, ["act|" ++ label ++ "|" ++ trigger.text], none⟩
  | add name n => fun _ env => ⟨env.insert name (env.value name + n), [], none⟩
  | fail message => fun _ env => ⟨env, [], some message⟩
  | failIf name comparison n message => fun _ env =>
    ⟨env, [], if comparison.holds (env.value name) n then some message else none⟩

end Hsm.Script
