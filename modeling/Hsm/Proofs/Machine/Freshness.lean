import Hsm.Proofs.Engine.Failures
import Hsm.Proofs.Machine.Calls
import Hsm.Validation

/-!
# Clean models hold their present program

Whatever is asked of a model, in whatever order, a clean model holds the program that its structure,
behavior and settings compile to now (`Machine.UpToDate`), so a call runs that program or is told
that there is none (`Machine.serve_neverStale`). Every edit that is not refused clears the mark, and
what is refused changes nothing (`Machine.ask_rejects`).
-/

namespace Hsm

variable {σ ι α : Type}

/-- What is asked of a model. Guards, effects and actions are set, also of reopened elements, by
edits that modify a transition or a state. -/
inductive Request (σ : Type) : Type 1
  | edit (e : Edit σ)
  | validate
  | initialise
  /-- A call that compiles the model first if it changed. -/
  | call {ι : Type} [Instance ι] (i : ι) (c : Call σ)
  /-- A call that asks for a clean model. -/
  | callCompiled {ι : Type} [Instance ι] (i : ι) (c : Call σ)

inductive Answer
  | done
  | refused (e : EditError)
  | violations (found : List Violation)
  | result (r : Result (Option Bool))

/-- A removal was refused, or a call found no program. -/
def Answer.Rejects : Answer → Prop
  | refused _ => True
  | result (.failed (.notInitialised _)) => True
  | _ => False

/-- Why an edit is refused, if it is. -/
def Edit.refusal (M : Machine σ) (e : Edit σ) : Option EditError :=
  let failure (outcome : Except EditError (Machine σ)) : Option EditError :=
    match outcome with
    | .error e => some e
    | .ok _ => none
  match e with
  | removeTransition t => failure (M.removeTransition t)
  | removeVertex v => failure (M.removeVertex v)
  | removeRegion r => failure (M.removeRegion r)
  | _ => none

theorem Edit.apply_eq_of_refusal {M : Machine σ} {e : Edit σ} (h : (e.refusal M).isSome) :
    e.apply M = M := by
  cases e with
  | removeTransition t =>
    rcases hr : M.removeTransition t with err | N <;> simp_all [refusal, apply, Except.toOption]
  | removeVertex v =>
    rcases hr : M.removeVertex v with err | N <;> simp_all [refusal, apply, Except.toOption]
  | removeRegion r =>
    rcases hr : M.removeRegion r with err | N <;> simp_all [refusal, apply, Except.toOption]
  | _ => cases h

namespace Machine

variable {M : Machine σ}

/-- Carries out a call on a model as it is. -/
def callCompiled [Instance ι] (M : Machine σ) (i : ι) : Call σ → Outcome σ ι (Option Bool)
  | .start depth env => (M.startCompiled depth env i).map fun _ => none
  | .evaluate depth env message => (M.evaluateCompiled depth env i message).map some

def ask (M : Machine σ) : Request σ → Answer × Machine σ
  | .edit e => ((e.refusal M).elim .done .refused, e.apply M)
  | .validate => (.violations M.violations, M)
  | .initialise => (.done, M.initialise)
  | @Request.call _ _ _ i c => (.result (M.call i c).result, (M.call i c).machine)
  | @Request.callCompiled _ _ _ i c =>
    (.result (M.callCompiled i c).result, (M.callCompiled i c).machine)

/-- The model after everything that is asked of it. -/
def serve (M : Machine σ) (requests : List (Request σ)) : Machine σ :=
  requests.foldl (fun M q => (M.ask q).2) M

/-- Structure, behavior and settings of the model alone. -/
def uncompiled (M : Machine σ) : Machine σ :=
  { M with clean := false, program := none }

def UpToDate (M : Machine σ) : Prop :=
  M.clean → M.program = some M.uncompiled.compile

theorem compile_uncompiled (M : Machine σ) : M.uncompiled.compile = M.compile :=
  M.compile_used M.settings.source false none

theorem upToDate_initialise (M : Machine σ) : M.initialise.UpToDate := fun _ => by
  show some M.compile = some M.uncompiled.compile
  rw [compile_uncompiled]

theorem UpToDate.apply (hM : M.UpToDate) (e : Edit σ) : (e.apply M).UpToDate := by
  rcases e.apply_dirty M with h | h
  · exact fun hc => absurd (h.symm.trans hc) Bool.false_ne_true
  · rwa [h]

theorem UpToDate.draw (hM : M.UpToDate) (source : IndexSource) :
    UpToDate { M with settings.source := source } := fun hc => by
  have hp : M.program = some M.uncompiled.compile := hM hc
  rw [compile_uncompiled] at hp ⊢
  rw [show M.compile = _ from (M.compile_used source M.clean M.program).symm] at hp
  exact hp

/-! ## Calls -/

theorem executeCompiled_machine (M : Machine σ) (env : σ) (i : ι) (x : Program σ → Run σ ι α) :
    ∃ source, (M.executeCompiled env i x).machine = { M with settings.source := source } := by
  unfold executeCompiled
  split <;> exact ⟨_, rfl⟩

theorem UpToDate.executeCompiled (hM : M.UpToDate) (env : σ) (i : ι)
    (x : Program σ → Run σ ι α) : (M.executeCompiled env i x).machine.UpToDate := by
  obtain ⟨source, h⟩ := M.executeCompiled_machine env i x
  rw [h]
  exact hM.draw source

theorem UpToDate.executeCompiled_eq (hM : M.UpToDate) (env : σ) (i : ι)
    (x : Program σ → Run σ ι α) : M.executeCompiled env i x = M.execute env i
      (if M.clean then x M.uncompiled.compile else Run.fail (.notInitialised M.name)) := by
  unfold Machine.executeCompiled
  cases hc : M.clean with
  | true => rw [hM hc]; rfl
  | false => rfl

theorem UpToDate.whenClean (hM : M.UpToDate) (env : σ) (i : ι)
    (x : Machine σ → Program σ → Run σ ι α) :
    (M.whenClean fun N => N.executeCompiled env i (x N)).machine.UpToDate := by
  unfold Machine.whenClean
  split
  · exact hM.executeCompiled env i (x M)
  · exact M.upToDate_initialise.executeCompiled env i (x M.initialise)

/-- A run that ends as runs of the engine do never asks for a program. -/
theorem not_notInitialised {x : Run σ ι α} {s : Session σ ι} (hx : Run.Ends s (x s))
    (machine : String) : (x s).1 ≠ .failed (.notInitialised machine) := by
  generalize x s = e at hx
  cases hx <;> nofun

theorem executeCompiled_rejects {env : σ} {i : ι} {x : Program σ → Run σ ι α}
    (hx : ∀ P s, Run.Ends s (x P s)) {machine : String}
    (h : (M.executeCompiled env i x).result = .failed (.notInitialised machine)) :
    (M.executeCompiled env i x).machine = M := by
  unfold executeCompiled at h ⊢
  split at h
  · exact absurd h (not_notInitialised (hx _ _) machine)
  · rfl

theorem whenClean_rejects {env : σ} {i : ι} {x : Machine σ → Program σ → Run σ ι α}
    (hx : ∀ N P s, Run.Ends s (x N P s)) {machine : String}
    (h : (M.whenClean fun N => N.executeCompiled env i (x N)).result =
      .failed (.notInitialised machine)) :
    (M.whenClean fun N => N.executeCompiled env i (x N)).machine = M := by
  unfold whenClean at h ⊢
  split at h
  · rename_i hc
    rw [if_pos hc]
    exact executeCompiled_rejects (hx M) h
  · -- a model that was just compiled has its program
    exact absurd h (not_notInitialised (hx _ _ _) machine)

end Machine

theorem Result.map_eq_failed {β : Type} {f : α → β} {e : Result α} {failure : Failure} :
    e.map f = .failed failure ↔ e = .failed failure := by
  cases e <;> simp [Result.map]

namespace Machine

variable {M : Machine σ}

theorem Answer.exists_of_rejects {r : Result (Option Bool)} (h : (Answer.result r).Rejects) :
    ∃ machine, r = .failed (.notInitialised machine) := by
  match r, h with
  | .failed (.notInitialised machine), _ => exact ⟨machine, rfl⟩

/-- What is rejected leaves the model as it was, with its program and its mark. -/
theorem ask_rejects {q : Request σ} (h : (M.ask q).1.Rejects) : (M.ask q).2 = M := by
  cases q with
  | edit e =>
    refine Edit.apply_eq_of_refusal ?_
    cases hr : e.refusal M with
    | none => simp [ask, hr, Answer.Rejects] at h
    | some err => rfl
  | validate | initialise => exact h.elim
  | call i c =>
    obtain ⟨machine, hr⟩ := Answer.exists_of_rejects h
    cases c with
    | start depth env =>
      exact whenClean_rejects (x := fun N => N.startRun depth) (fun _ _ s => startRun_ends depth s)
        (Result.map_eq_failed.1 hr)
    | evaluate depth env message =>
      exact whenClean_rejects (x := fun N => N.evaluateRun depth message)
        (fun _ _ s => evaluateRun_ends depth message s) (Result.map_eq_failed.1 hr)
  | callCompiled i c =>
    obtain ⟨machine, hr⟩ := Answer.exists_of_rejects h
    cases c with
    | start depth env =>
      exact executeCompiled_rejects (fun _ s => startRun_ends depth s) (Result.map_eq_failed.1 hr)
    | evaluate depth env message =>
      exact executeCompiled_rejects (fun _ s => evaluateRun_ends depth message s)
        (Result.map_eq_failed.1 hr)

theorem UpToDate.ask (hM : M.UpToDate) (q : Request σ) : (M.ask q).2.UpToDate := by
  cases q with
  | edit e => exact hM.apply e
  | validate => exact hM
  | initialise => exact M.upToDate_initialise
  | call i c =>
    cases c with
    | start depth env => exact hM.whenClean env i fun N => N.startRun depth
    | evaluate depth env message => exact hM.whenClean env i fun N => N.evaluateRun depth message
  | callCompiled i c =>
    cases c with
    | start depth env => exact hM.executeCompiled env i (M.startRun depth)
    | evaluate depth env message => exact hM.executeCompiled env i (M.evaluateRun depth message)

theorem UpToDate.serve (hM : M.UpToDate) (requests : List (Request σ)) :
    (M.serve requests).UpToDate := by
  induction requests generalizing M with
  | nil => exact hM
  | cons q qs ih => exact ih (hM.ask q)

/-- The model runs no program but that of its present form, and keeps it when it rejects what it is
asked. -/
structure NeverStale (M : Machine σ) : Prop where
  program_eq : M.clean → M.program = some M.uncompiled.compile
  executeCompiled_eq : ∀ {ι α : Type} (env : σ) (i : ι) (x : Program σ → Run σ ι α),
    M.executeCompiled env i x = M.execute env i
      (if M.clean then x M.uncompiled.compile else Run.fail (.notInitialised M.name))
  ask_eq_self : ∀ q, (M.ask q).1.Rejects → (M.ask q).2 = M

/-- Whatever is asked of a new model, it never holds a stale program and calls it its own. -/
theorem serve_neverStale (name : String) (settings : Settings) (requests : List (Request σ)) :
    ((ofName name settings).serve requests).NeverStale := by
  have hnew : (ofName (σ := σ) name settings).UpToDate := fun h => absurd h Bool.false_ne_true
  have hM := hnew.serve requests
  exact ⟨hM, hM.executeCompiled_eq, fun _ => ask_rejects⟩

/-- A removal that is refused leaves a clean model clean. -/
example : ((ofName (σ := Unit) "m" {}).serve
    [.edit (.addVertex "a" (.state ⟨0⟩) .state), .edit (.removeVertex ⟨1⟩), .initialise,
      .edit (.removeVertex ⟨1⟩), .edit (.removeVertex ⟨0⟩)]).clean = true := by
  decide +kernel

end Machine

end Hsm
