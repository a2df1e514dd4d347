import Hsm.Proofs.Engine.Simulation
import Hsm.Proofs.Engine.Termination
import Hsm.Proofs.Instance.Restoring
import Hsm.Proofs.Machine.Freshness
import Hsm.Snapshot.Json

/-!
# Histories of limited length

An instance with a limit on its history is at every moment the one without a limit, less the lines
that are over the limit (`TreeInstance.Limits`). Lines are dropped where the limit is set, where a
line is traced and where a snapshot is taken up; the engine does not look at lines, so whatever is
done with the two instances in turn, by calls or directly, tells the same
(`Machine.Reachable.limit_truncates`).
-/

namespace Hsm

variable {σ : Type}

/-- The environment in which a call is made. -/
def Call.env : Call σ → σ
  | .start _ env | .evaluate _ env _ => env

namespace TreeInstance

/-! ## What is done with an instance -/

/-- What an application does with an instance that it keeps. -/
inductive Operation (σ : Type)
  | call (c : Call σ)
  /-- A call that asks for a clean model. -/
  | callCompiled (c : Call σ)
  | trace (line : String)
  | apply (s : Snapshot)
  | ofJson (text : String)

/-- What an operation tells. -/
inductive Report (σ : Type)
  | called (result : Result (Option Bool)) (env : σ) (events : List Event)
  | done
  | refused (flaw : Json.Flaw)

/-- What an operation leaves behind. -/
structure Stage (σ : Type) where
  report : Report σ
  machine : Machine σ
  inst : TreeInstance
  /-- The instance before the operation and after each thing that happens to it. -/
  moments : List TreeInstance

end TreeInstance

open TreeInstance

namespace Machine

/-- The stage of a call: things happen to the instance in the order of the events. -/
def stage (T : Topology) (i : TreeInstance) (o : Outcome σ TreeInstance (Option Bool)) : Stage σ where
  report := .called o.result o.env o.events
  machine := o.machine
  inst := o.inst
  moments := o.events.scanl (fun i e => e.replay T i) i

/-- Carries out an operation. A text that is refused leaves the instance as it is. -/
def operate (M : Machine σ) (i : TreeInstance) : Operation σ → Stage σ
  | .call c => stage M.topology i (M.call i c)
  | .callCompiled c => stage M.topology i (M.callCompiled i c)
  | .trace line => ⟨.done, M, i.trace line, [i, i.trace line]⟩
  | .apply s => ⟨.done, M, i.apply s, [i, i.apply s]⟩
  | .ofJson text =>
    match i.ofJson text with
    | .ok i' => ⟨.done, M, i', [i, i']⟩
    | .error flaw => ⟨.refused flaw, M, i, [i]⟩

/-- Carries out operations one after the other on the same model and instance. -/
def stages (M : Machine σ) (i : TreeInstance) : List (Operation σ) → List (Stage σ)
  | [] => []
  | op :: ops => M.operate i op :: (M.operate i op).machine.stages (M.operate i op).inst ops

end Machine

/-! ## Under a limit -/

namespace TreeInstance

/-- `j` is `i` with a limit of `n` lines. -/
structure Limits (n : Nat) (i j : TreeInstance) : Prop where
  unlimited : i.historyLimit = none
  eq : j = i.withHistoryLimit n

/-- `j` shows what `i` shows, and of what was traced the first `n` lines, the most recent. -/
structure Shortens (n : Nat) (i j : TreeInstance) : Prop where
  current : ∀ T r, j.currentIn T r = i.currentIn T r
  lastKnown : ∀ T r, j.lastKnown T r = i.lastKnown T r
  terminated : j.terminated = i.terminated
  history : j.eventHistory = i.eventHistory.take n

/-- The operations tell the same, and at every moment the second history is the shorter one. -/
structure Stage.Shortens (n : Nat) (s s' : Stage σ) : Prop where
  report : s'.report = s.report
  machine : s'.machine = s.machine
  inst : s.inst.Shortens n s'.inst
  moments : List.Forall₂ (TreeInstance.Shortens n) s.moments s'.moments

namespace Limits

variable {n : Nat} {i j : TreeInstance}

theorem shortens (h : Limits n i j) : i.Shortens n j := by
  obtain ⟨-, rfl⟩ := h
  exact ⟨fun _ _ => rfl, fun _ _ => rfl, rfl, rfl⟩

theorem setCurrent (h : Limits n i j) (T : Topology) (r : RegionId) (v : VertexId) :
    Limits n (i.setCurrent T r v) (j.setCurrent T r v) := by
  obtain ⟨hi, rfl⟩ := h
  unfold TreeInstance.setCurrent
  by_cases hs : T.isState v
  · simp only [hs, if_true]
    exact ⟨hi, rfl⟩
  · simp only [hs]
    exact ⟨hi, rfl⟩

/-- The line that falls off the longer history fell off the shorter one before. -/
theorem trace (h : Limits n i j) (line : String) : Limits n (i.trace line) (j.trace line) := by
  obtain ⟨hi, rfl⟩ := h
  have htake : (line :: i.eventHistory.take n).take n = (line :: i.eventHistory).take n := by
    cases n with
    | zero => rfl
    | succ n => simp only [List.take_succ_cons, List.take_take]; congr 2; omega
  refine ⟨hi, ?_⟩
  simp only [TreeInstance.trace, withHistoryLimit, truncated, hi, htake]

theorem apply (h : Limits n i j) (s : Snapshot) : Limits n (i.apply s) (j.apply s) := by
  obtain ⟨hi, rfl⟩ := h
  refine ⟨hi, ?_⟩
  simp only [TreeInstance.apply, withHistoryLimit, truncated, hi]

end Limits

theorem limits_simulation (n : Nat) (T : Topology) (allowed : RegionId → VertexId → Prop) :
    Instance.Simulation T allowed (Limits n) where
  agree := by
    rintro i _ ⟨-, rfl⟩
    exact ⟨rfl, fun _ => rfl, fun _ => rfl, rfl⟩
  setCurrent h _ := h.setCurrent T _ _
  terminate := by
    rintro i _ ⟨hi, rfl⟩
    exact ⟨hi, rfl⟩
  trace line h := h.trace line

theorem Limits.scanl {n : Nat} (T : Topology) : ∀ (es : List Event) {i j : TreeInstance},
    Limits n i j → List.Forall₂ (Shortens n) (es.scanl (fun i e => e.replay T i) i)
      (es.scanl (fun i e => e.replay T i) j)
  | [], _, _, h => .cons h.shortens .nil
  | e :: es, _, _, h => by
    rw [List.scanl_cons, List.scanl_cons]
    exact .cons h.shortens (scanl T es ((limits_simulation n T _).event h e))

end TreeInstance

/-! ## Under a limit all the time -/

namespace Machine

variable {M : Machine σ} {allowed : Edit σ → Prop} {n : Nat} {i j : TreeInstance}

theorem stage_shortens {T : Topology} {o o' : Outcome σ TreeInstance (Option Bool)}
    (ho : Outcome.Agree T o o') (h : Limits n i j) (h' : Limits n o.inst o'.inst) :
    (stage T i o).Shortens n (stage T j o') where
  report := by simp only [stage, ho.result, ho.env, ho.events]
  machine := ho.machine.symm
  inst := h'.shortens
  moments := by
    simp only [stage, ho.events]
    exact h.scanl T _

/-- A call that asks for a clean model fails on another, and does nothing. -/
theorem callCompiled_eq {ι : Type} [Instance ι] (M : Machine σ) (i : ι) (c : Call σ) :
    M.callCompiled i c = if M.clean then M.call i c else
      ⟨.failed (.notInitialised M.name), M, c.env, i, []⟩ := by
  have hfail : M.clean = false → ∀ {α : Type} (env : σ) (x : Program σ → Run σ ι α),
      M.executeCompiled env i x = ⟨.failed (.notInitialised M.name), M, env, i, []⟩ := by
    intro hc α env x
    unfold executeCompiled
    rw [hc]
    rfl
  cases hc : M.clean with
  | true => cases c <;> simp [callCompiled, call, start, evaluate, whenClean, hc]
  | false => cases c <;> exact congrArg (Outcome.map _) (hfail hc _ _)

theorem Reachable.operate_shortens (hM : M.Reachable allowed) (h : Limits n i j)
    (op : Operation σ) : (M.operate i op).Shortens n (M.operate j op)
      ∧ Limits n (M.operate i op).inst (M.operate j op).inst
      ∧ (M.operate i op).machine.Reachable allowed := by
  have hcall : ∀ c, (stage M.topology i (M.call i c)).Shortens n (stage M.topology j (M.call j c))
      ∧ Limits n (M.call i c).inst (M.call j c).inst ∧ (M.call i c).machine.Reachable allowed :=
    fun c => by
      obtain ⟨ho, ⟨source, hm⟩, hi⟩ := hM.call_agree (limits_simulation n _ _) h c
      exact ⟨stage_shortens ho h hi, hi, hm ▸ hM.ready source⟩
  have hdirect : ∀ {i' j'}, Limits n i' j' → Stage.Shortens n ⟨.done, M, i', [i, i']⟩
      (⟨.done, M, j', [j, j']⟩ : Stage σ) := fun h' =>
    ⟨rfl, rfl, h'.shortens, .cons h.shortens (.cons h'.shortens .nil)⟩
  cases op with
  | call c => exact hcall c
  | callCompiled c =>
    simp only [operate, callCompiled_eq]
    split
    · exact hcall c
    · exact ⟨⟨rfl, rfl, h.shortens, .cons h.shortens .nil⟩, h, hM⟩
  | trace line => exact ⟨hdirect (h.trace line), h.trace line, hM⟩
  | apply s => exact ⟨hdirect (h.apply s), h.apply s, hM⟩
  | ofJson text =>
    simp only [operate, TreeInstance.ofJson]
    cases Snapshot.ofJson text with
    | ok s => exact ⟨hdirect (h.apply s), h.apply s, hM⟩
    | error flaw => exact ⟨⟨rfl, rfl, h.shortens, .cons h.shortens .nil⟩, h, hM⟩

/-- Operations on an instance without a limit, and on one that is the same with a limit, go alike. -/
theorem Reachable.stages_shorten : ∀ (ops : List (Operation σ)) {M : Machine σ} {i j : TreeInstance},
    M.Reachable allowed → Limits n i j →
      List.Forall₂ (Stage.Shortens n) (M.stages i ops) (M.stages j ops)
  | [], _, _, _, _, _ => .nil
  | op :: ops, M, i, j, hM, h => by
    obtain ⟨hstage, hinst, hmachine⟩ := hM.operate_shortens h op
    refine .cons hstage ?_
    rw [hstage.machine]
    exact stages_shorten ops hmachine hinst

/-- The last moment of an operation is what it leaves behind. -/
theorem Reachable.getLast?_moments (hM : M.Reachable allowed) (i : TreeInstance)
    (op : Operation σ) : (M.operate i op).moments.getLast? = some (M.operate i op).inst := by
  have hcall : ∀ c, (stage M.topology i (M.call i c)).moments.getLast?
      = some (M.call i c).inst := fun c => by
    rw [hM.call_replay, Instance.replay, List.foldr_reverse]
    exact List.getLast?_scanl
  cases op with
  | call c => exact hcall c
  | callCompiled c =>
    simp only [operate, callCompiled_eq]
    split
    · exact hcall c
    · rfl
  | trace line => rfl
  | apply s => rfl
  | ofJson text =>
    simp only [operate]
    cases i.ofJson text <;> rfl

/-- A limit on the history of a new instance makes a difference to nothing but the history, and
there it drops what is over the limit. -/
theorem Reachable.limit_truncates (hM : M.Reachable allowed) (name : String) (n : Nat)
    (ops : List (Operation σ)) :
    List.Forall₂ (Stage.Shortens n) (M.stages { name := name } ops)
      (M.stages (({ name := name } : TreeInstance).withHistoryLimit n) ops) :=
  hM.stages_shorten ops ⟨rfl, rfl⟩

end Machine

/-- The lamp is started, goes on from a snapshot, and is asked to go on from what is none. -/
theorem lamp_truncates :
    let ops : List (Operation Unit) := [.callCompiled (.start 9 ()), .call (.start 9 ()),
      .trace "noted", .apply ⟨none, ["c", "b", "a"], false⟩, .ofJson "[",
      .callCompiled (.evaluate 9 () "switch")]
    let free := lamp.stages { name := "i" } ops
    let bound := lamp.stages (({ name := "i" } : TreeInstance).withHistoryLimit 2) ops
    List.Forall₂ (Stage.Shortens 2) free bound
    ∧ (free.map fun s => s.inst.eventHistory.length) = [0, 5, 6, 3, 3, 4]
    ∧ (bound.map fun s => s.inst.eventHistory.length) = [0, 2, 2, 2, 2, 2] := by
  intro ops free bound
  have hM : lamp.Reachable fun _ => True := .build (by decide +kernel) fun _ _ => trivial
  exact ⟨hM.limit_truncates "i" 2 ops, by decide +kernel, by decide +kernel⟩

end Hsm
