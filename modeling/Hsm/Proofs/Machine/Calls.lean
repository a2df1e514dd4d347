import Hsm.Engine.Evaluate
import Hsm.Proofs.Machine.Reachable

/-!
# Calls on a model

A model that can be built is compiled by its first call and stays as it is from then on, but for
its source of choices; so a sequence of calls runs one engine over one program.
-/

namespace Hsm

variable {σ ι : Type}

def Result.Succeeds {α : Type} (e : Result α) : Prop :=
  ∃ a, e = .value a

def Result.map {α β : Type} (f : α → β) : Result α → Result β
  | value a => value (f a)
  | failed e => failed e
  | exhausted => exhausted

theorem Result.succeeds_map {α β : Type} {f : α → β} {e : Result α} :
    (e.map f).Succeeds ↔ e.Succeeds := by
  cases e with
  | value a => exact ⟨fun _ => ⟨a, rfl⟩, fun _ => ⟨f a, rfl⟩⟩
  | failed _ | exhausted => exact ⟨fun ⟨_, h⟩ => (nomatch h), fun ⟨_, h⟩ => (nomatch h)⟩

def Outcome.map {α β : Type} (f : α → β) (o : Outcome σ ι α) : Outcome σ ι β :=
  ⟨o.result.map f, o.machine, o.env, o.inst, o.events⟩

/-- What can be asked of a model on behalf of an instance, with the depth that nested calls of the
engine may have, and the environment in which it is asked. -/
inductive Call (σ : Type)
  | start (depth : Nat) (env : σ)
  | evaluate (depth : Nat) (env : σ) (message : String)

namespace Machine

section

variable [Instance ι]

/-- Carries out a call. Only evaluations answer with more than that they came to an end. -/
def call (M : Machine σ) (i : ι) : Call σ → Outcome σ ι (Option Bool)
  | .start depth env => (M.start depth env i).map fun _ => none
  | .evaluate depth env message => (M.evaluate depth env i message).map some

/-- Carries out calls one after the other on the same model and instance. -/
def calls (M : Machine σ) (i : ι) : List (Call σ) → List (Outcome σ ι (Option Bool))
  | [] => []
  | c :: cs => M.call i c :: (M.call i c).machine.calls (M.call i c).inst cs

/-- What a start and any evaluations after it, each with an end that is accepted, lead to from an
instance: all events, the model and the instance. -/
inductive Visits (accepted : Result (Option Bool) → Prop) (M : Machine σ) (i₀ : ι) :
    List Event → Machine σ → ι → Prop
  | start (depth : Nat) (env : σ) : accepted (M.call i₀ (.start depth env)).result →
    Visits accepted M i₀ (M.call i₀ (.start depth env)).events
      (M.call i₀ (.start depth env)).machine (M.call i₀ (.start depth env)).inst
  | evaluate {events : List Event} {M' : Machine σ} {i : ι} (depth : Nat) (env : σ)
      (message : String) : Visits accepted M i₀ events M' i →
    accepted (M'.call i (.evaluate depth env message)).result →
    Visits accepted M i₀ (events ++ (M'.call i (.evaluate depth env message)).events)
      (M'.call i (.evaluate depth env message)).machine
      (M'.call i (.evaluate depth env message)).inst

end

/-- The model with its program up to date, and its source of choices as given. -/
def ready (M : Machine σ) (source : IndexSource) : Machine σ :=
  M.used source true (some M.compile)

variable {M : Machine σ}

theorem ready_ready (source source' : IndexSource) :
    (M.ready source).ready source' = M.ready source' := by
  show M.used source' true (some (M.ready source).compile) = _
  rw [show (M.ready source).compile = M.compile from M.compile_used ..]
  rfl

theorem Reachable.ready {allowed : Edit σ → Prop} (hM : M.Reachable allowed)
    (source : IndexSource) : (M.ready source).Reachable allowed :=
  .draw source (.initialise hM)

/-- What a model tells of its compilation when it is called. -/
def preamble (M : Machine σ) : List Event :=
  if M.clean then [] else M.initialiseEvents

/-- The outcome of a run on behalf of the model. -/
def outcome {α : Type} (M : Machine σ) (e : Result α × Session σ ι) : Outcome σ ι α :=
  ⟨e.1, M.ready e.2.source, e.2.env, e.2.inst, M.preamble ++ e.2.trail.reverse⟩

section

variable [Instance ι] {allowed : Edit σ → Prop}

omit [Instance ι] in
theorem Reachable.ready_of_clean (hM : M.Reachable allowed) (hc : M.clean) :
    M.ready M.settings.source = M := by
  unfold Machine.ready
  rw [← hM.program_eq hc, ← hc]
  rfl

omit [Instance ι] in
theorem executeCompiled_ready {α : Type} (source : IndexSource) (env : σ) (i : ι)
    (x : Program σ → Run σ ι α) :
    (M.ready source).executeCompiled env i x =
      ⟨(x M.compile ⟨env, i, source, []⟩).1,
        M.ready (x M.compile ⟨env, i, source, []⟩).2.source,
        (x M.compile ⟨env, i, source, []⟩).2.env, (x M.compile ⟨env, i, source, []⟩).2.inst,
        (x M.compile ⟨env, i, source, []⟩).2.trail.reverse⟩ :=
  rfl

omit [Instance ι] in
/-- A call runs the present program of the model, compiled or not. -/
theorem Reachable.whenClean_eq {α : Type} (hM : M.Reachable allowed) (env : σ) (i : ι)
    (x : Machine σ → Program σ → Run σ ι α) :
    (M.whenClean fun N => N.executeCompiled env i (x N)) =
      M.outcome (x (M.ready M.settings.source) M.compile ⟨env, i, M.settings.source, []⟩) := by
  have hready := executeCompiled_ready (M := M) M.settings.source env i
    (x (M.ready M.settings.source))
  unfold whenClean outcome preamble
  cases hc : M.clean with
  | true =>
    rw [if_pos rfl, if_pos rfl, List.nil_append, ← hready, hM.ready_of_clean hc]
  | false =>
    rw [if_neg Bool.false_ne_true, if_neg Bool.false_ne_true]
    exact congrArg (fun o : Outcome σ ι α => { o with events := M.initialiseEvents ++ o.events })
      hready

omit [Instance ι] in
/-- A call runs the model as it is when it is compiled. -/
theorem Reachable.whenClean_ready {α : Type} (hM : M.Reachable allowed) (env : σ) (i : ι)
    (x : Machine σ → Program σ → Run σ ι α) :
    (M.whenClean fun N => N.executeCompiled env i (x N)) =
      M.outcome (x (M.ready M.settings.source) (M.ready M.settings.source).compile
        ⟨env, i, M.settings.source, []⟩) := by
  rw [show (M.ready M.settings.source).compile = M.compile from M.compile_used ..]
  exact hM.whenClean_eq env i x

theorem Reachable.call_start (hM : M.Reachable allowed) (depth : Nat) (env : σ) (i : ι) :
    M.call i (.start depth env) = (M.outcome ((M.ready M.settings.source).startRun depth
      (M.ready M.settings.source).compile ⟨env, i, M.settings.source, []⟩)).map fun _ => none :=
  congrArg (Outcome.map _) (hM.whenClean_ready env i fun N => N.startRun depth)

theorem Reachable.call_evaluate (hM : M.Reachable allowed) (depth : Nat) (env : σ) (i : ι)
    (message : String) :
    M.call i (.evaluate depth env message) = (M.outcome ((M.ready M.settings.source).evaluateRun
      depth message (M.ready M.settings.source).compile
        ⟨env, i, M.settings.source, []⟩)).map some :=
  congrArg (Outcome.map _) (hM.whenClean_ready env i fun N => N.evaluateRun depth message)

theorem Visits.exists_ready (hM : M.Reachable allowed) {accepted : Result (Option Bool) → Prop}
    {i₀ i : ι} {events : List Event} {M' : Machine σ} (h : M.Visits accepted i₀ events M' i) :
    ∃ source, M' = M.ready source := by
  induction h with
  | start depth env _ =>
    rw [hM.call_start]
    exact ⟨_, rfl⟩
  | evaluate depth env message _ _ ih =>
    obtain ⟨source, rfl⟩ := ih
    rw [(hM.ready source).call_evaluate]
    exact ⟨_, ready_ready source _⟩

/-- What the run of a start brings about, and the run of every evaluation keeps, holds wherever
calls lead. -/
theorem Visits.induction (hM : M.Reachable allowed) {accepted : Result (Option Bool) → Prop}
    {i₀ : ι} {I : List Event → ι → Prop}
    (hstart : ∀ depth env, ∀ e, (M.ready M.settings.source).startRun depth
        (M.ready M.settings.source).compile ⟨env, i₀, M.settings.source, []⟩ = e →
      accepted (e.1.map fun _ => none) → I (M.preamble ++ e.2.trail.reverse) e.2.inst)
    (hevaluate : ∀ source events i depth env message, I events i →
      ∀ e, (M.ready source).evaluateRun depth message (M.ready source).compile
        ⟨env, i, source, []⟩ = e →
      accepted (e.1.map some) → I (events ++ e.2.trail.reverse) e.2.inst)
    {events : List Event} {M' : Machine σ} {i : ι} (h : M.Visits accepted i₀ events M' i) :
    I events i := by
  induction h with
  | start depth env ha =>
    rw [hM.call_start] at ha ⊢
    exact hstart depth env _ rfl ha
  | evaluate depth env message h ha ih =>
    obtain ⟨source, rfl⟩ := h.exists_ready hM
    rw [(hM.ready source).call_evaluate] at ha ⊢
    rw [show (M.ready source).settings.source = source from rfl, ready_ready] at ha ⊢
    exact hevaluate source _ _ depth env message ih _ rfl ha

end

end Machine

end Hsm
