import Hsm.Proofs.Engine.Trail

/-!
# What the engine relies on of instances

A kind of instance is orderly on a topology if only states of a region are found as its last known
state (`Instance.Orderly`), and lawful if what becomes current becomes the last known state of its
own region and of no other (`Instance.Laws`). The laws are asked of the regions that are in the
model, and of instances that are what the engine made of them.
-/

namespace Hsm

variable {σ ι : Type} [Instance ι]

/-- A vertex may become current in the region that it is in. -/
def Topology.Holds (T : Topology) (r : RegionId) (v : VertexId) : Prop :=
  v ∈ T.vertices ∧ (T.vertex v).parent = some r

theorem Machine.Fits.allowed {M : Machine σ} {step : Step σ} (h : M.Fits step) :
    step.Allowed M.topology.Holds := by
  cases step with
  | setCurrent r v => exact h
  | _ => trivial

theorem Machine.all_allowed {M : Machine σ} (hT : M.topology.WellFormed) :
    M.compile.All (Step.Allowed M.topology.Holds) :=
  (all_fits hT).mono fun _ h => h.allowed

namespace Instance

/-- The engine decides the same on either instance, but for what is current. -/
structure Alike (T : Topology) (i j : ι) : Prop where
  lastKnown : ∀ r, lastKnown T r j = lastKnown T r i
  isTerminated : isTerminated j = isTerminated i

namespace Alike

variable {T : Topology} {i j k : ι}

theorem refl (i : ι) : Alike T i i :=
  ⟨fun _ => rfl, rfl⟩

theorem trans (h : Alike T i j) (h' : Alike T j k) : Alike T i k :=
  ⟨fun r => (h'.lastKnown r).trans (h.lastKnown r), h'.isTerminated.trans h.isTerminated⟩

theorem isActive (h : Alike T i j) (v : VertexId) : isActive T j v = isActive T i v := by
  unfold Instance.isActive
  rw [funext h.lastKnown]

theorem isComplete (h : Alike T i j) (v : VertexId) : isComplete T j v = isComplete T i v := by
  unfold Instance.isComplete isCompleteRegion
  simp only [h.lastKnown]

end Alike

/-- Whatever the engine does to an instance with the property `J`, it has it still. -/
structure Kept (T : Topology) (J : ι → Prop) : Prop where
  trace : ∀ {i} (line : String), J i → J (trace line i)
  terminate : ∀ {i}, J i → J (terminate i)
  setCurrent : ∀ {i r v}, J i → T.Holds r v → J (setCurrent T r v i)

/-- Only states of a region are found as its last known state, in instances with the property `J`,
and telling changes nothing. -/
structure Orderly (T : Topology) (J : ι → Prop) : Prop extends Kept T J where
  alike_trace : ∀ (i : ι) (line : String), Alike T i (Instance.trace line i)
  listed : ∀ {i}, J i → ∀ {r v}, lastKnown T r i = some v →
    v ∈ (T.region r).vertices ∧ T.isState v

/-- The laws of a kind of instance, on those with the property `J`. -/
structure Laws (T : Topology) (J : ι → Prop) : Prop extends Orderly T J where
  lastKnown_terminate : ∀ (i : ι) (r), lastKnown T r (Instance.terminate i) = lastKnown T r i
  isTerminated_terminate : ∀ i : ι, isTerminated (Instance.terminate i)
  lastKnown_setCurrent : ∀ {i r v}, J i → T.Holds r v → ∀ s ∈ T.regions,
    lastKnown T s (Instance.setCurrent T r v i) =
      if s = r ∧ T.isState v then some v else lastKnown T s i
  isTerminated_setCurrent : ∀ (i : ι) (r v),
    isTerminated (Instance.setCurrent T r v i) = isTerminated i

namespace Orderly

variable {T : Topology} {J : ι → Prop} (hJ : Orderly T J) {i : ι}
include hJ

theorem alike_replay_quiet (i : ι) {es : List Event} (hes : ∀ e ∈ es, e.Quiet) :
    Alike T i (replay T es i) ∧ (J i → J (replay T es i)) := by
  induction es with
  | nil => exact ⟨.refl i, id⟩
  | cons e es ih =>
    obtain ⟨halike, hkeep⟩ := ih fun e h => hes e (List.mem_cons_of_mem _ h)
    have he := hes e List.mem_cons_self
    cases e with
    | traced line => exact ⟨halike.trans (hJ.alike_trace _ line), fun h => hJ.trace line (hkeep h)⟩
    | setCurrent | terminated | selected | traversed => exact he.elim
    | _ => exact ⟨halike, hkeep⟩

variable (hi : J i) {r : RegionId} {v : VertexId} (hv : lastKnown T r i = some v)
include hi hv

theorem parent_eq (hT : T.WellFormed) : (T.vertex v).parent = some r :=
  (hT.mem_vertices r v (hJ.listed hi hv).1).2

theorem isState : T.isState v :=
  (hJ.listed hi hv).2

theorem holds (hT : T.WellFormed) (hr : r ∈ T.regions) : T.Holds r v :=
  ⟨hT.mem_vertices_of_region hr (hJ.listed hi hv).1, hJ.parent_eq hi hv hT⟩

end Orderly

/-- A run that has ended stays so. -/
theorem Laws.isTerminated_replay {T : Topology} {J : ι → Prop} (hJ : Laws T J) {i : ι}
    (es : List Event) (h : isTerminated i) : isTerminated (replay T es i) := by
  induction es with
  | nil => exact h
  | cons e es ih =>
    cases e with
    | traced line => exact (hJ.alike_trace _ line).isTerminated.trans ih
    | setCurrent r v => exact (hJ.isTerminated_setCurrent _ r v).trans ih
    | terminated => exact hJ.isTerminated_terminate _
    | _ => exact ih

theorem Laws.kept_isTerminated {T : Topology} {J : ι → Prop} (hJ : Laws T J) :
    Kept T fun i : ι => isTerminated i where
  trace line h := (hJ.alike_trace _ line).isTerminated.trans h
  terminate _ := hJ.isTerminated_terminate _
  setCurrent h _ := (hJ.isTerminated_setCurrent _ _ _).trans h

end Instance

/-- The run keeps the property of lawful instances, and adds to the trail what it does. -/
def Run.Tame (T : Topology) (J : ι → Prop) {α : Type} (x : Run σ ι α) : Prop :=
  (∀ s, J s.inst → J (x s).2.inst) ∧ x.Adds T fun _ => True

omit [Instance ι] in
theorem Run.keeps_bind {I : Session σ ι → Prop} {α β : Type} {x : Run σ ι α} {f : α → Run σ ι β}
    (hx : ∀ s, I s → I (x s).2) (hf : ∀ a s, I s → I (f a s).2) (s : Session σ ι) (hs : I s) :
    I ((x >>= f) s).2 := by
  have h := hx s hs
  simp only [Bind.bind]
  rcases hxs : x s with ⟨r, s'⟩
  rw [hxs] at h
  cases r with
  | value a => exact hf a s' h
  | failed e => exact h
  | exhausted => exact h

/-- Whatever the engine does keeps the property of lawful instances. -/
theorem keeps_uniform {M : Machine σ} {J : ι → Prop} (hJ : Instance.Kept M.topology J)
    {offers : Prop} : Run.Uniform (ι := ι) (κ := ι) M M.topology.Holds offers
      (fun _ x _ => ∀ s : Session σ ι, J s.inst → J (x s).2.inst) where
  pure _ := fun _ h => h
  bind hx hf := Run.keeps_bind hx hf
  stop _ := fun _ h => h
  exhausted := fun _ h => h
  note _ _ _ := fun _ h => h
  act a trigger := fun s h => by
    unfold Run.act
    dsimp only
    split <;> exact h
  draw count := fun s h => by
    unfold Run.draw
    split <;> exact h
  setCurrent _ _ hv := fun _ h => hJ.setCurrent h hv
  terminate := fun _ h => hJ.terminate h
  trace line := fun _ h => hJ.trace line h
  check _ _ := fun _ h => h
  read _ := fun _ h => h

theorem tame_uniform {M : Machine σ} {J : ι → Prop} (hJ : Instance.Laws M.topology J) :
    Run.Uniform (ι := ι) (κ := ι) M M.topology.Holds True (fun _ x _ => x.Tame M.topology J) :=
  (keeps_uniform hJ.toKept).and (adds_uniform fun _ _ => trivial)

/-- Everything that the engine does is tame. -/
theorem engine_tame {M : Machine σ} (hT : M.topology.WellFormed) {J : ι → Prop}
    (hJ : Instance.Laws M.topology J) (n : Nat) :
    (engine (ι := ι) M M.compile n).Related M M.topology.Holds True
      (fun _ x (_ : Run σ ι _) => x.Tame M.topology J) (engine M M.compile n) :=
  engine_related (tame_uniform hJ) (Machine.all_allowed hT) trivial n

theorem tame_performAll {M : Machine σ} {J : ι → Prop} (hJ : Instance.Laws M.topology J)
    (hT : M.topology.WellFormed) {n : Nat} {trigger : Trigger} {deep : Bool}
    {steps : List (Step σ)} (h : ∀ step ∈ steps, M.Fits step) :
    ((engine (ι := ι) M M.compile n).performAll trigger deep steps).Tame M.topology J :=
  Engine.Related.performAll (tame_uniform hJ) (engine_tame hT hJ n) _ _ _ fun step hs =>
    (h step hs).allowed

end Hsm
