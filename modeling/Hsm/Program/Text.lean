import Hsm.Program.Step

/-!
# The text of programs
-/

namespace Hsm

variable {σ : Type}

def Step.text : Step σ → String
  | enter e => "Enter(" ++ e.text ++ ")"
  | leave e => "Leave(" ++ e.text ++ ")"
  | setCurrent r v => "SetCurrent(" ++ r.text ++ ", " ++ v.text ++ ")"
  | behavior _ => "Behavior"
  | leaveActive r => "LeaveActive(" ++ r.text ++ ")"
  | enterRegion r initial =>
    "EnterRegion(" ++ r.text ++ ", " ++ VertexId.optionText initial ++ ")"
  | resume v => "Resume(" ++ v.text ++ ")"
  | terminate => "Terminate"
  | completeInternal v => "CompleteInternal(" ++ v.text ++ ")"
  | traverseWithin t => "Local(" ++ t.text ++ ")"

/-- Steps in brackets. -/
def Step.listText (steps : List (Step σ)) : String :=
  "[" ++ ", ".intercalate (steps.map text) ++ "]"

/-- Entries in braces. -/
def entriesText (entries : List (String × String)) : String :=
  "\x7b" ++ ", ".intercalate (entries.map fun e => e.1 ++ ": " ++ e.2) ++ "\x7d"

def ElementSteps.text (s : ElementSteps σ) : String :=
  "ElementBehavior \x7b leave: " ++ Step.listText s.leave ++ ", begin_enter: " ++
    Step.listText s.beginEnter ++ ", end_enter: " ++ Step.listText s.endEnter ++ " \x7d"

namespace Program

/-- The elements of a program by number, regions before vertices, of a model with so many of
each. -/
def elementEntries (P : Program σ) (regions vertices : Nat) : List (Element × ElementSteps σ) :=
  let elements := (List.range regions).map (fun n => Element.region ⟨n⟩) ++
    (List.range vertices).map fun n => Element.vertex ⟨n⟩
  elements.filterMap fun e => (P.elements.get? e).map fun s => (e, s)

/-- The transitions of a program by number, of a model with so many. -/
def traversalEntries (P : Program σ) (transitions : Nat) :
    List (TransitionId × List (Step σ)) :=
  (List.range transitions).filterMap fun n =>
    (P.traversals.get? ⟨n⟩).map fun steps => (⟨n⟩, steps)

/-- A whole program of a model of this structure. -/
def text (P : Program σ) (T : Topology) : String :=
  let elements := P.elementEntries T.regionNodes.size T.vertexNodes.size
  let traversals := P.traversalEntries T.transitionNodes.size
  "Compiled \x7b behaviors: " ++ entriesText (elements.map fun e => (e.1.text, e.2.text)) ++
    ", traversals: " ++
    entriesText (traversals.map fun t => (t.1.text, Step.listText t.2)) ++
    ", on_initialise: " ++ Step.listText P.onInitialise ++ " \x7d"

end Program

end Hsm
