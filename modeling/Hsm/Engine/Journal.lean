import Hsm.Engine.Run

/-!
# The lines of a journal

What a run and its logger tell the outside, line by line. Events that only the trail knows have no
line.
-/

namespace Hsm

/-- The line of a message; none if the logger drops it. -/
def Logger.line (logger : Logger) (level : Level) (text : String) : List String :=
  match logger, level with
  | silent, _ => []
  | record, .debug => ["log|" ++ text]
  | record, .warn => ["warn|" ++ text]
  | record, .error => ["error|" ++ text]
  | tracing, .debug => ["statechart|DEBUG|" ++ text]
  | tracing, .warn => ["statechart|WARN|" ++ text]
  | tracing, .error => ["statechart|ERROR|" ++ text]

def setCurrentLine (r : RegionId) (v : VertexId) : String :=
  "set|" ++ toString r.index ++ "|" ++ toString v.index

def terminateLine : String := "terminate"

def Event.lines (logger : Logger) : Event → List String
  | message level text => logger.line level text
  | setCurrent r v => [setCurrentLine r v]
  | terminated => [terminateLine]
  | acted notes _ => notes
  | checked _ _ notes => notes
  | drew count value => ["random|" ++ toString count ++ "|" ++ toString value]
  | traced _ | entered _ | left _ | offered _ _ | selected _ _ _ | traversed _ => []

/-- The journal of events in order. -/
def journal (logger : Logger) (events : List Event) : List String :=
  events.flatMap (Event.lines logger)

end Hsm
