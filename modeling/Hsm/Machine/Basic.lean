import Hsm.Program.Step
import Hsm.Settings
import Hsm.Topology.Edit

/-!
# Models of hierarchical state machines

A machine is its structure, the behavior of its states and transitions, its settings, and the
program that was last compiled from them. `clean` says that nothing has changed since.
-/

namespace Hsm

/-- Entry and exit actions of a state. -/
structure StateBehavior (σ : Type) where
  entry : List (Action σ) := []
  exit : List (Action σ) := []

instance {σ : Type} : Inhabited (StateBehavior σ) := ⟨{}⟩

/-- Neither entry nor exit actions. -/
def StateBehavior.isInert {σ : Type} (b : StateBehavior σ) : Bool :=
  b.entry.isEmpty && b.exit.isEmpty

/-- Guard and effects of a transition. -/
structure TransitionBehavior (σ : Type) where
  guard : Guard σ
  effects : List (Action σ) := []

instance {σ : Type} : Inhabited (TransitionBehavior σ) := ⟨⟨.always, []⟩⟩

/-- A model over environments of type `σ`. -/
structure Machine (σ : Type) where
  topology : Topology
  /-- By number of the vertex. -/
  stateBehaviors : Array (StateBehavior σ)
  /-- By number of the transition. -/
  transitionBehaviors : Array (TransitionBehavior σ)
  settings : Settings
  /-- The program is the one of the present model. -/
  clean : Bool
  /-- The program compiled last. -/
  program : Option (Program σ)

namespace Machine

variable {σ : Type}

/-- A model with nothing but its root. -/
def ofName (name : String) (settings : Settings) : Machine σ where
  topology := .ofName name
  stateBehaviors := #[{}]
  transitionBehaviors := #[]
  settings := settings
  clean := false
  program := none

variable (M : Machine σ)

def name : String :=
  M.topology.name (.vertex Topology.root)

def stateBehavior (v : VertexId) : StateBehavior σ :=
  M.stateBehaviors[v.index]?.getD default

def transitionBehavior (t : TransitionId) : TransitionBehavior σ :=
  M.transitionBehaviors[t.index]?.getD default

def guard (t : TransitionId) : Guard σ :=
  (M.transitionBehavior t).guard

def effects (t : TransitionId) : List (Action σ) :=
  (M.transitionBehavior t).effects

end Machine

end Hsm
