import Mathlib.Data.List.Forall2
import Hsm.Proofs.Instance.Sound
import Hsm.Proofs.Machine.Calls

/-!
# Instances that behave alike

A relation between two kinds of instances that shows the engine the same and is kept by what the
engine does to them makes every sequence of calls go the same way on both
(`Reachable.calls_agree`).
-/

namespace Hsm

variable {σ ι κ : Type}

variable [Instance ι] [Instance κ]

/-- The relation shows the same, and is kept by all that the engine does to instances. -/
structure Instance.Simulation (T : Topology) (allowed : RegionId → VertexId → Prop)
    (R : ι → κ → Prop) : Prop where
  agree : ∀ {i j}, R i j → Agree T i j
  setCurrent : ∀ {i j r v}, R i j → allowed r v → R (setCurrent T r v i) (setCurrent T r v j)
  terminate : ∀ {i j}, R i j → R (terminate i) (terminate j)
  trace : ∀ {i j} (line : String), R i j → R (trace line i) (trace line j)

theorem Instance.Simulation.event {T : Topology} {R : ι → κ → Prop}
    (hR : Simulation T (fun _ _ => True) R) {i : ι} {j : κ} (h : R i j) (e : Event) :
    R (e.replay T i) (e.replay T j) := by
  cases e with
  | setCurrent r v => exact hR.setCurrent h trivial
  | terminated => exact hR.terminate h
  | traced line => exact hR.trace line h
  | _ => exact h

/-- Sessions that differ in the kind of their instances alone. -/
structure Session.Twin (R : ι → κ → Prop) (s : Session σ ι) (s' : Session σ κ) : Prop where
  env : s.env = s'.env
  inst : R s.inst s'.inst
  source : s.source = s'.source
  trail : s.trail = s'.trail

/-- From twins both runs end alike, in twins again. -/
def Run.Simulates (R : ι → κ → Prop) {α : Type} (x : Run σ ι α) (y : Run σ κ α) : Prop :=
  ∀ s s', s.Twin R s' → (x s).1 = (y s').1 ∧ (x s).2.Twin R (y s').2

theorem simulates_uniform {M : Machine σ} {allowed : RegionId → VertexId → Prop}
    {R : ι → κ → Prop} (h : Instance.Simulation M.topology allowed R) :
    Run.Uniform M allowed True fun _ x y => x.Simulates R y where
  pure _ := fun _ _ hs => ⟨rfl, hs⟩
  bind hx hf := by
    rename_i x y f g
    intro s s' hs
    obtain ⟨hr, ht⟩ := hx s s' hs
    simp only [Bind.bind]
    rcases hxs : x s with ⟨r, s₁⟩
    rcases hys : y s' with ⟨r', s₁'⟩
    rw [hxs, hys] at hr ht
    dsimp only at hr ht
    subst hr
    cases r with
    | value a => exact hf a s₁ s₁' ht
    | failed e => exact ⟨rfl, ht⟩
    | exhausted => exact ⟨rfl, ht⟩
  stop _ := fun _ _ hs => ⟨rfl, hs.env, hs.inst, hs.source, congrArg (_ :: ·) hs.trail⟩
  exhausted := fun _ _ hs => ⟨rfl, hs⟩
  note e _ _ := fun _ _ hs => ⟨rfl, hs.env, hs.inst, hs.source, congrArg (e :: ·) hs.trail⟩
  act a trigger := by
    intro s s' hs
    unfold Run.act
    rw [hs.env]
    dsimp only
    split <;> exact ⟨rfl, rfl, hs.inst, hs.source, congrArg (_ :: ·) hs.trail⟩
  draw count := by
    intro s s' hs
    unfold Run.draw
    rw [hs.source]
    split
    · exact ⟨rfl, hs.env, hs.inst, rfl, congrArg (_ :: ·) hs.trail⟩
    · exact ⟨rfl, hs.env, hs.inst, rfl, hs.trail⟩
  setCurrent r v hrv := fun _ _ hs =>
    ⟨rfl, hs.env, h.setCurrent hs.inst hrv, hs.source, congrArg (_ :: ·) hs.trail⟩
  terminate := fun _ _ hs =>
    ⟨rfl, hs.env, h.terminate hs.inst, hs.source, congrArg (_ :: ·) hs.trail⟩
  trace line := fun _ _ hs =>
    ⟨rfl, hs.env, h.trace line hs.inst, hs.source, congrArg (_ :: ·) hs.trail⟩
  check trigger t := by
    intro s s' hs
    have hlast : (fun r => Instance.lastKnown M.topology r s.inst)
        = fun r => Instance.lastKnown M.topology r s'.inst := funext (h.agree hs.inst).lastKnown
    unfold Run.check
    rw [hlast, hs.env]
    exact ⟨rfl, rfl, hs.inst, hs.source, congrArg (_ :: ·) hs.trail⟩
  read hfg := fun s s' hs => ⟨congrArg Result.value (hfg s s' (h.agree hs.inst)), hs⟩

/-- Two outcomes that tell the same and leave instances that show the same. -/
structure Outcome.Agree (T : Topology) {α : Type} (o : Outcome σ ι α) (o' : Outcome σ κ α) :
    Prop where
  result : o.result = o'.result
  machine : o.machine = o'.machine
  env : o.env = o'.env
  events : o.events = o'.events
  inst : Instance.Agree T o.inst o'.inst

namespace Machine

variable {M : Machine σ} {allowed : Edit σ → Prop} {R : ι → κ → Prop}

theorem outcome_agree {T : Topology} (hR : ∀ {i j}, R i j → Instance.Agree T i j) {α β : Type}
    (f : α → β) {e : Result α × Session σ ι} {e' : Result α × Session σ κ} (hr : e.1 = e'.1)
    (hs : e.2.Twin R e'.2) : Outcome.Agree T ((M.outcome e).map f) ((M.outcome e').map f) where
  result := congrArg (Result.map f) hr
  machine := congrArg M.ready hs.source
  env := hs.env
  events := congrArg (fun trail : List Event => M.preamble ++ trail.reverse) hs.trail
  inst := hR hs.inst

theorem Reachable.call_agree (hM : M.Reachable allowed)
    (hR : Instance.Simulation M.topology M.topology.Holds R) {i : ι} {j : κ} (h : R i j)
    (c : Call σ) : Outcome.Agree M.topology (M.call i c) (M.call j c)
      ∧ (∃ source, (M.call i c).machine = M.ready source)
      ∧ R (M.call i c).inst (M.call j c).inst := by
  have hP := all_allowed (hM.ready M.settings.source).wellFormed
  have hU := simulates_uniform (M := M.ready M.settings.source) hR
  have htwin : ∀ env : σ, Session.Twin R ⟨env, i, M.settings.source, []⟩
      ⟨env, j, M.settings.source, []⟩ := fun _ => ⟨rfl, h, rfl, rfl⟩
  cases c with
  | start depth env =>
    obtain ⟨hr, hs⟩ := startRun_related hU (engine_related hU hP trivial depth)
      hP.onInitialise _ _ (htwin env)
    rw [hM.call_start, hM.call_start]
    exact ⟨outcome_agree hR.agree _ hr hs, ⟨_, rfl⟩, hs.inst⟩
  | evaluate depth env message =>
    obtain ⟨hr, hs⟩ := evaluateRun_related hU (engine_related hU hP trivial depth) trivial
      message _ _ (htwin env)
    rw [hM.call_evaluate, hM.call_evaluate]
    exact ⟨outcome_agree hR.agree _ hr hs, ⟨_, rfl⟩, hs.inst⟩

/-- Related instances go through any sequence of calls alike. -/
theorem Reachable.calls_agree :
    ∀ {M : Machine σ}, M.Reachable allowed →
      Instance.Simulation M.topology M.topology.Holds R →
      ∀ {i : ι} {j : κ}, R i j → ∀ cs,
        List.Forall₂ (Outcome.Agree M.topology) (M.calls i cs) (M.calls j cs)
  | _, _, _, _, _, _, [] => .nil
  | M, hM, hR, i, j, h, c :: cs => by
    obtain ⟨ho, ⟨source, hm⟩, hi⟩ := hM.call_agree hR h c
    refine .cons ho ?_
    rw [← ho.machine, hm]
    exact calls_agree (hM.ready source) hR hi cs

end Machine

end Hsm
