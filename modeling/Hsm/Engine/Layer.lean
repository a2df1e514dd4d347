import Hsm.Engine.Run
import Hsm.Program.Compile

/-!
# The engine

Steps, offers of a trigger to a state, and transitions call each other without a bound that the
model would give. The engine is therefore built in layers: `engine n` does what can be done with
calls nested at most `n` deep, and each of its operations is written once, over the operations of
the layer below.
-/

namespace Hsm

/-- The operations that call each other. -/
structure Engine (σ ι : Type) where
  /-- Performs a step of a program; the flag says that a deep history is being restored. -/
  perform : Step σ → Trigger → Bool → Run σ ι Unit
  /-- Offers a trigger to a state, those beneath it first, and says whether a transition was
  taken. -/
  offer : VertexId → Trigger → Run σ ι Bool
  /-- Runs along a transition and on to where it leads. -/
  fire : TransitionId → Trigger → Run σ ι Bool
  /-- The transitions that a transition consists of when it leads through junctions. -/
  legs : TransitionId → Trigger → Run σ ι (List TransitionId)

namespace Engine

variable {σ ι : Type} [Instance ι]

/-- Performs steps in order. -/
def performAll (below : Engine σ ι) (trigger : Trigger) (deep : Bool) :
    List (Step σ) → Run σ ι Unit
  | [] => pure ()
  | step :: rest => do
    below.perform step trigger deep
    performAll below trigger deep rest

variable (M : Machine σ) (P : Program σ) (below : Engine σ ι)

/-! ## Faults -/

/-- Tells of a fault that can be passed over, and stops if the policy says so. -/
def report (f : Fault) : Run σ ι Unit := do
  Run.say .error f.message
  match M.settings.onError with
  | .abort => Run.fail (.fault f)
  | .ignoreAndLog => pure ()

/-- Tells of a fault that leaves nothing to go on with. -/
def stop {α : Type} (f : Fault) : Run σ ι α := do
  Run.say .error f.message
  Run.fail (.fault f)

/-! ## Choosing transitions -/

/-- The transitions whose guards pass, asked in order. -/
def passing (trigger : Trigger) : List TransitionId → Run σ ι (List TransitionId)
  | [] => pure []
  | t :: rest => do
    let holds ← Run.check M trigger t
    let others ← passing trigger rest
    pure (if holds then t :: others else others)

/-- One of the open branches of a choice, by the source of choices. -/
def pickChoice : List TransitionId → Run σ ι (Option TransitionId)
  | [] => pure none
  | branches => do
    let i ← Run.draw branches.length
    pure branches[i]?

/-- The first open branch of a junction, telling if there are several. -/
def pickJunction (v : VertexId) (trigger : Trigger) :
    List TransitionId → Run σ ι (Option TransitionId)
  | t :: _ :: _ => do
    report M (.ambiguousJunction (M.topology.qualifiedName (.vertex v)) trigger.text)
    pure (some t)
  | branches => pure branches.head?

/-- The open branch to take at a choice or a junction, if there is one. -/
def pick (v : VertexId) (trigger : Trigger) (branches : List TransitionId) :
    Run σ ι (Option TransitionId) :=
  if M.topology.pseudoKind? v = some .choice then pickChoice branches
  else pickJunction M v trigger branches

/-- The branch to take at a choice or a junction: an open one, else the fallback. -/
def branch (v : VertexId) (trigger : Trigger) : Run σ ι TransitionId := do
  let outgoing := (M.topology.vertex v).outgoing
  let branches ← passing M trigger outgoing
  match ← pick M v trigger branches with
  | some t => pure t
  | none =>
    match outgoing.find? fun t => (M.guard t).isOtherwise with
    | some t => pure t
    | none => stop (.noEligibleTransition (M.topology.qualifiedName (.vertex v)) trigger.text)

/-- The legs of a transition, resolved from junction to junction before any of them runs. -/
def legsFrom (t : TransitionId) (trigger : Trigger) : Run σ ι (List TransitionId) := do
  match (M.topology.transition t).target with
  | some v =>
    if M.topology.pseudoKind? v = some .junction then
      let next ← branch M v trigger
      let rest ← below.legs next trigger
      pure (t :: rest)
    else pure [t]
  | none => pure [t]

/-! ## Entering and leaving -/

/-- Both halves of an entry. -/
def enterElement (e : Element) (trigger : Trigger) (deep : Bool) : Run σ ι Unit := do
  below.performAll trigger deep (P.beginEnter e)
  below.performAll trigger deep (P.endEnter e)

/-- Leaves what is current in a region, if anything is. -/
def leaveCurrent (r : RegionId) (trigger : Trigger) : Run σ ι Unit := do
  match ← Run.current M.topology r with
  | some v => below.performAll trigger false (P.leave (.vertex v))
  | none => pure ()

/-- Enters a region at its last known state where history asks for it, else at `initial`. -/
def enterRegion (r : RegionId) (initial : Option VertexId) (trigger : Trigger) (deep : Bool) :
    Run σ ι Unit := do
  let T := M.topology
  let kind := initial.bind T.pseudoKind?
  let lastKnown ← Run.lastKnown T r
  match if deep || kind.any PseudoKind.isHistory then lastKnown.or initial else initial with
  | some v => enterElement P below (.vertex v) trigger (deep || kind = some .deepHistory)
  | none =>
    if (T.region r).vertices.isEmpty then pure ()
    else Run.say .warn (T.qualifiedName (.region r) ++ ": region has no initial vertex to enter")

/-- The state that an initial or history pseudostate resumes, where history applies. -/
def historyState (v : VertexId) (deep : Bool) : Run σ ι (Option VertexId) :=
  match (M.topology.vertex v).parent with
  | some r =>
    if deep || (M.topology.pseudoKind? v).any PseudoKind.isHistory then Run.lastKnown M.topology r
    else pure none
  | none => pure none

/-- Ends the entry of an initial or history pseudostate: with the last known state where history
applies and there is one, else along the first transition that leads out. -/
def resume (v : VertexId) (trigger : Trigger) (deep : Bool) : Run σ ι Unit := do
  match ← historyState M v deep with
  | some state =>
    below.performAll trigger false (P.leave (.vertex v))
    enterElement P below (.vertex state) trigger
      (deep || M.topology.pseudoKind? v = some .deepHistory)
  | none =>
    match (M.topology.vertex v).outgoing.head? with
    | some t => discard (below.fire t trigger)
    | none => stop (.missingInitialTransition (M.topology.qualifiedName (.vertex v)))

/-- Runs along a local transition: leaves what is active beside the first vertex of the target's
path that is not active (beside the target if all are), runs the effects, and enters down to the
target. -/
def traverseWithin (t : TransitionId) (trigger : Trigger) : Run σ ι Unit := do
  let T := M.topology
  match (T.transition t).target with
  | none => stop (.targetNotWithin (T.describe t))
  | some target =>
    let path := T.vertexAncestry target
    let active ← Run.read fun s => path.takeWhile (Instance.isActive T s.inst)
    let index := min active.length (path.length - 1)
    match (T.vertex (path[index]?.getD target)).parent with
    | none => stop (.targetNotWithin (T.describe t))
    | some r =>
      leaveCurrent M P below r trigger
      Run.actAll trigger (M.effects t)
      below.performAll trigger false (P.cascade T (path.drop index))
      below.performAll trigger false (P.endEnter (.vertex target))

/-- Tells of entering or leaving an element, to the logger and to the instance. -/
def announce (verb : String) (e : Element) : Run σ ι Unit := do
  let line := verb ++ " " ++ M.topology.qualifiedName e
  let name ← Run.read fun s => Instance.name s.inst
  Run.say .debug (name ++ " " ++ line)
  Run.trace line

/-- Offers a state its own completion if it is complete. -/
def offerCompletion (v : VertexId) : Run σ ι Unit := do
  if ← Run.isComplete M.topology v then discard (below.offer v (.completion v))
  else pure ()

def performStep (step : Step σ) (trigger : Trigger) (deep : Bool) : Run σ ι Unit := do
  match step with
  | .enter e =>
    Run.record (.entered e)
    announce M "enter" e
  | .leave e =>
    Run.record (.left e)
    announce M "leave" e
  | .setCurrent r v => Run.setCurrent M.topology r v
  | .behavior a => Run.act a trigger
  | .leaveActive r => leaveCurrent M P below r trigger
  | .enterRegion r initial => enterRegion M P below r initial trigger deep
  | .resume v => resume M P below v trigger deep
  | .terminate => Run.terminate
  | .completeInternal v =>
    if M.topology.isState v then offerCompletion M below v else pure ()
  | .traverseWithin t => traverseWithin M P below t trigger

/-! ## Offering triggers and running along transitions -/

/-- Offers a trigger to what is active in the regions of a state, until the state itself is no
longer active. -/
def offerRegions (state : VertexId) (trigger : Trigger) : List RegionId → Run σ ι Bool
  | [] => pure false
  | r :: rest => do
    match ← Run.lastKnown M.topology r with
    | none => offerRegions state trigger rest
    | some v =>
      if ← below.offer v trigger then
        if ← Run.isActive M.topology state then
          let _ ← offerRegions state trigger rest
          pure true
        else pure true
      else offerRegions state trigger rest

/-- Offers a trigger to what is beneath a state. Its own completion concerns the state alone. -/
def offerBeneath (state : VertexId) (trigger : Trigger) : Run σ ι Bool :=
  if trigger.isCompletionOf state then pure false
  else offerRegions M below state trigger (M.topology.vertex state).regions

/-- Takes the only transition out of a state that passes. -/
def takeOnly (state : VertexId) (trigger : Trigger) : List TransitionId → Run σ ι Bool
  | [] => pure false
  | [t] => do
    Run.record (.selected state t trigger)
    below.fire t trigger
  | _ => do
    report M (.ambiguousTransition (M.topology.qualifiedName (.vertex state)) trigger.text)
    pure false

/-- A state takes a trigger only if nothing beneath it did. If something did, the state may have
become complete by it. -/
def offerState (state : VertexId) (trigger : Trigger) : Run σ ι Bool := do
  Run.record (.offered state trigger)
  if ← offerBeneath M below state trigger then
    offerCompletion M below state
    pure true
  else
    let transitions ← passing M trigger (M.topology.vertex state).outgoing
    takeOnly M below state trigger transitions

/-- Runs the legs of a transition one after the other. -/
def traverseAll (trigger : Trigger) : List TransitionId → Run σ ι Unit
  | [] => pure ()
  | t :: rest => do
    Run.record (.traversed t)
    below.performAll trigger false (P.traversal t)
    traverseAll trigger rest

/-- What follows at the end of a transition: a choice leads on at once, and a state may be complete
already. -/
def leadOn (trigger : Trigger) (target : VertexId) : Run σ ι Unit := do
  if M.topology.pseudoKind? target = some .choice then
    let next ← branch M target trigger
    discard (below.fire next trigger)
  else if M.topology.isState target then offerCompletion M below target
  else pure ()

/-- Runs along a transition and on from its end. -/
def fireTransition (t : TransitionId) (trigger : Trigger) : Run σ ι Bool := do
  let legs ← below.legs t trigger
  traverseAll P below trigger legs
  match (M.topology.transition (legs.getLast?.getD t)).target with
  | none => pure true
  | some target =>
    leadOn M below trigger target
    pure true

end Engine

open Engine in
/-- The engine with calls nested at most `n` deep. -/
def engine {σ ι : Type} [Instance ι] (M : Machine σ) (P : Program σ) : Nat → Engine σ ι
  | 0 =>
    { perform := fun _ _ _ => Run.exhausted
      offer := fun _ _ => Run.exhausted
      fire := fun _ _ => Run.exhausted
      legs := fun _ _ => Run.exhausted }
  | n + 1 =>
    { perform := fun step trigger deep => performStep M P (engine M P n) step trigger deep
      offer := fun state trigger => offerState M (engine M P n) state trigger
      fire := fun t trigger => fireTransition M P (engine M P n) t trigger
      legs := fun t trigger => legsFrom M (engine M P n) t trigger }

end Hsm
