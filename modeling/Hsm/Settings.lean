/-!
# Settings of a model

Everything the engine would otherwise take from its surroundings: where messages go, how a choice
among open branches falls, and what follows a fault of the model.
-/

namespace Hsm

/-- How grave a message is. -/
inductive Level
  | debug
  | warn
  | error
  deriving DecidableEq

/-- Where messages go. -/
inductive Logger
  /-- Kept in the journal of the caller. -/
  | record
  /-- Dropped. -/
  | silent
  /-- Sent to the subscriber of the process. -/
  | tracing
  deriving DecidableEq

/-- What follows a fault that can be passed over. -/
inductive ErrorPolicy
  /-- The evaluation stops with the fault. -/
  | abort
  /-- The evaluation goes on as if no transition had fired. -/
  | ignoreAndLog
  deriving DecidableEq

/-- Where the index of a branch comes from. -/
inductive IndexSource
  /-- Always the first branch. -/
  | first
  /-- The values one after the other, and again from the start. -/
  | cycle (values : Array Nat) (next : Nat)
  deriving DecidableEq

/-- The next value of a source, if it counts values, and the source after it. A value may exceed
the number of branches; the engine reduces it. -/
def IndexSource.draw : IndexSource → Option Nat × IndexSource
  | first => (none, first)
  | cycle values next => (some (values[next % values.size]?.getD 0), cycle values (next + 1))

structure Settings where
  logger : Logger := .tracing
  source : IndexSource := .first
  /-- Internal transitions check again whether their source is complete. -/
  completeInternal : Bool := false
  onError : ErrorPolicy := .ignoreAndLog
  deriving DecidableEq

def ErrorPolicy.text : ErrorPolicy → String
  | abort => "Abort"
  | ignoreAndLog => "IgnoreAndLog"

/-- The text of the settings: the two policies, and a mark for the rest. -/
def Settings.text (s : Settings) : String :=
  "Config \x7b internal_transitions_trigger_completion: " ++
    (if s.completeInternal then "true" else "false") ++
    ", on_error: " ++ s.onError.text ++ ", .. \x7d"

end Hsm
