import Hsm.Proofs.Instance.Agreement

/-!
# Restored instances

A snapshot leaves the current vertices out. An instance that is restored from one takes the last
known states for current, and goes on as the instance did of which the snapshot was taken
(`calls_restore`): where a vertex becomes current the two have the same, and elsewhere the last
known state stays as it was, as long as no other region leads to the same node of the tree.
-/

namespace Hsm

variable {σ : Type}

namespace Topology

variable (T : Topology)

/-- Some state is in the region. -/
def HoldsState (r : RegionId) : Prop :=
  ∃ v ∈ (T.region r).vertices, T.isState v

/-- No region leads to the node of one that is in the model, where both hold states. -/
def DistinctPaths : Prop :=
  ∀ r ∈ T.regions, ∀ s, T.HoldsState r → T.HoldsState s →
    TreeInstance.path T s = TreeInstance.path T r → s = r

variable {T}

/-- Distinct names make for distinct paths, if there are no vertices in removed regions. -/
theorem WellFormed.distinctPaths (hT : T.WellFormed) (hN : T.DistinctNames)
    (hF : ∀ r, (T.region r).vertices ≠ [] → r ∈ T.regions) : T.DistinctPaths :=
  fun _ hr s _ ⟨_, hv, _⟩ h => hT.eq_of_path (hN.siblings hT) (hF s (List.ne_nil_of_mem hv)) hr h

end Topology

namespace TreeInstance

variable {T : Topology} {i j : TreeInstance}

theorem lastKnown_of_not_holdsState {r : RegionId} (h : ¬T.HoldsState r) (i : TreeInstance) :
    i.lastKnown T r = none :=
  Option.eq_none_iff_forall_ne_some.2 fun v hv => h ⟨v, mem_of_lastKnown hv⟩

/-- Only the region in which a vertex becomes current can get another last known state. -/
theorem lastKnown_setCurrent_of_ne (hT : T.WellFormed) (hD : T.DistinctPaths) {r s : RegionId}
    {v : VertexId} (hv : T.Holds r v) (hs : s ≠ r) (i : TreeInstance) :
    (i.setCurrent T r v).lastKnown T s = i.lastKnown T s := by
  by_cases hholds : T.HoldsState s
  · unfold setCurrent
    dsimp only
    split
    · rename_i hstate
      obtain ⟨hr, hmem⟩ := hT.listed_of_parent hv.1 hv.2
      have hpath : path T s ≠ path T r := fun h => hs (hD r hr s ⟨v, hmem, hstate⟩ hholds h)
      rw [lastKnown_eq_known, lastKnown_eq_known, known_remember, if_neg hpath]
    · rfl
  · rw [lastKnown_of_not_holdsState hholds, lastKnown_of_not_holdsState hholds]

/-- `j` is like `i`, except that it may have lost current vertices that are last known states. -/
structure Resumes (T : Topology) (i j : TreeInstance) : Prop where
  name : i.name = j.name
  activeState : i.activeState = j.activeState
  terminated : i.terminated = j.terminated
  current : ∀ r, j.current.get? r = i.current.get? r ∨
    j.current.get? r = none ∧ i.current.get? r = i.lastKnown T r

theorem resumes_restore (hi : ∀ r v, i.current.get? r = some v → i.lastKnown T r = some v) :
    i.Resumes T (restore i.name i.snapshot) where
  name := rfl
  activeState := rfl
  terminated := rfl
  current r := by
    cases hc : i.current.get? r with
    | none => exact .inl rfl
    | some v => exact .inr ⟨rfl, (hi r v hc).symm⟩

namespace Resumes

theorem lastKnown (h : i.Resumes T j) (r : RegionId) : i.lastKnown T r = j.lastKnown T r := by
  rw [lastKnown_eq_known, lastKnown_eq_known, h.activeState]

theorem agree (h : i.Resumes T j) : Instance.Agree T i j where
  name := h.name
  current r := by
    show i.currentIn T r = j.currentIn T r
    unfold currentIn
    rw [← h.lastKnown r]
    rcases h.current r with hc | ⟨hj, hi⟩
    · rw [hc]
    · rw [hj, hi]
      cases i.lastKnown T r <;> rfl
  lastKnown := h.lastKnown
  isTerminated := h.terminated

theorem setCurrent (hT : T.WellFormed) (hD : T.DistinctPaths) (h : i.Resumes T j) {r : RegionId}
    {v : VertexId} (hv : T.Holds r v) : (i.setCurrent T r v).Resumes T (j.setCurrent T r v) := by
  have hcurrent : ∀ k : TreeInstance, (k.setCurrent T r v).current = k.current.insert r v :=
    fun k => by unfold TreeInstance.setCurrent; dsimp only; split <;> rfl
  have hrest : (i.setCurrent T r v).name = (j.setCurrent T r v).name ∧
      (i.setCurrent T r v).activeState = (j.setCurrent T r v).activeState ∧
      (i.setCurrent T r v).terminated = (j.setCurrent T r v).terminated := by
    unfold TreeInstance.setCurrent remember
    dsimp only
    rw [h.activeState]
    split <;> exact ⟨h.name, rfl, h.terminated⟩
  refine ⟨hrest.1, hrest.2.1, hrest.2.2, fun s => ?_⟩
  rw [hcurrent, hcurrent, Assoc.get?_insert, Assoc.get?_insert]
  by_cases hs : s = r
  · exact .inl (by rw [if_pos hs, if_pos hs])
  · rw [if_neg hs, if_neg hs, lastKnown_setCurrent_of_ne hT hD hv hs]
    exact h.current s

end Resumes

end TreeInstance

theorem resumes_simulation {T : Topology} (hT : T.WellFormed) (hD : T.DistinctPaths) :
    Instance.Simulation T T.Holds (TreeInstance.Resumes T) where
  agree h := h.agree
  setCurrent h hv := h.setCurrent hT hD hv
  terminate h := ⟨h.name, h.activeState, rfl, h.current⟩
  trace _ h := ⟨h.name, h.activeState, h.terminated, h.current⟩

/-- An instance whose current vertices are last known states, and the instance restored from its
snapshot, go through any sequence of calls alike. -/
theorem calls_restore {M : Machine σ} {allowed : Edit σ → Prop} (hM : M.Reachable allowed)
    (hD : M.topology.DistinctPaths) {i : TreeInstance}
    (hi : ∀ r v, i.current.get? r = some v → i.lastKnown M.topology r = some v)
    (cs : List (Call σ)) :
    List.Forall₂ (Outcome.Agree M.topology) (M.calls i cs)
      (M.calls (TreeInstance.restore i.name i.snapshot) cs) :=
  hM.calls_agree (resumes_simulation hM.wellFormed hD) (TreeInstance.resumes_restore hi) cs

/-- A lamp that is switched on and off, and that starts dim. -/
def lamp : Machine Unit := .build "m" {} [
  .addVertex "i" (.state ⟨0⟩) (.pseudo .initial), .addVertex "off" (.state ⟨0⟩) .state,
  .addVertex "on" (.state ⟨0⟩) .state, .addVertex "dim" (.state ⟨3⟩) .state,
  .addTransition ⟨1⟩ (some ⟨2⟩), .addTransition ⟨2⟩ (some ⟨3⟩), .addTransition ⟨3⟩ (some ⟨2⟩),
  .modifyTransition ⟨1⟩ fun t => { t with guard := .on "switch" },
  .modifyTransition ⟨2⟩ fun t => { t with guard := .on "switch" }]

theorem lamp_restore :
    let i := TreeInstance.setCurrent lamp.topology ⟨0⟩ ⟨2⟩ { name := "i" }
    let cs := [.evaluate 9 () "switch", .evaluate 9 () "switch"]
    List.Forall₂ (Outcome.Agree lamp.topology) (lamp.calls i cs)
      (lamp.calls (TreeInstance.restore i.name i.snapshot) cs) := by
  intro i cs
  have hM : lamp.Reachable fun _ => True := .build (by decide +kernel) fun _ _ => trivial
  have hN : lamp.topology.DistinctNames := Machine.distinctNames fun name => by
    rw [show lamp.violations = [] by decide +kernel]
    exact List.not_mem_nil
  refine calls_restore hM (hM.wellFormed.distinctPaths hN fun r h => ?_) (fun r v h => ?_) cs
  · match r with
    | ⟨0⟩ => decide +kernel
    | ⟨1⟩ => decide +kernel
    | ⟨_ + 2⟩ => exact absurd rfl h
  · rw [show i.current = ({} : Assoc RegionId VertexId).insert ⟨0⟩ ⟨2⟩ by decide +kernel,
      Assoc.get?_insert] at h
    split at h
    · rename_i hr
      rw [hr, ← Option.some.inj h]
      decide +kernel
    · cases h

/-- Two regions of one name, with states of one name. -/
def twinRegions : Machine Unit := .build "m" {} [
  .addRegion "p" ⟨0⟩, .addRegion "p" ⟨0⟩, .addVertex "x" (.region ⟨0⟩) .state,
  .addVertex "x" (.region ⟨1⟩) .state, .addVertex "y" (.region ⟨1⟩) .state,
  .addVertex "i" (.region ⟨1⟩) (.pseudo .initial), .addTransition ⟨4⟩ (some ⟨2⟩),
  .addTransition ⟨2⟩ (some ⟨3⟩), .modifyTransition ⟨1⟩ fun t => { t with guard := .on "go" }]

/-- What becomes known of one of two regions that share a node is known of the other, and where the
current vertex was kept that makes a difference. -/
theorem twinRegions_differ :
    let i := (twinRegions.call ({ name := "i" } : TreeInstance) (.start 9 ())).inst
    twinRegions.Reachable (fun _ => True)
    ∧ (∀ r v, i.current.get? r = some v → i.lastKnown twinRegions.topology r = some v)
    ∧ ¬List.Forall₂ (Outcome.Agree twinRegions.topology)
        (twinRegions.calls i [.evaluate 9 () "go"])
        (twinRegions.calls (TreeInstance.restore i.name i.snapshot) [.evaluate 9 () "go"]) := by
  intro i
  refine ⟨.build (by decide +kernel) fun _ _ => trivial, fun r v h => ?_, fun h => ?_⟩
  · rw [show i.current = (({} : Assoc RegionId VertexId).insert ⟨0⟩ ⟨1⟩).insert ⟨1⟩ ⟨2⟩ by
      decide +kernel, Assoc.get?_insert, Assoc.get?_insert] at h
    split at h
    · rename_i hr
      rw [hr, ← Option.some.inj h]
      decide +kernel
    · split at h
      · rename_i hr
        rw [hr, ← Option.some.inj h]
        decide +kernel
      · cases h
  · have ho := (List.forall₂_cons.1 h).1
    exact absurd (ho.inst.current ⟨0⟩) (by decide +kernel)

end Hsm
