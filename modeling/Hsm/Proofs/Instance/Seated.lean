import Hsm.Proofs.Instance.Agreement

/-!
# What is current

Unlike the last known state of a region, what is current in it may be of any kind, and it only
counts when the region is left. An instance is seated if it has current in each region only what is
in the region; then making a vertex current changes that region alone (`Instance.Seats`).
-/

namespace Hsm

/-- What is current obeys the laws that last known states do. -/
structure Instance.Seats {ι : Type} [Instance ι] (T : Topology) (J : ι → Prop) : Prop
    extends Laws T J where
  seated : ∀ {i}, J i → ∀ {r v}, Instance.current T r i = some v → (T.vertex v).parent = some r
  current_trace : ∀ (i : ι) (line) (r),
    Instance.current T r (Instance.trace line i) = Instance.current T r i
  current_terminate : ∀ (i : ι) (r),
    Instance.current T r (Instance.terminate i) = Instance.current T r i
  current_setCurrent : ∀ {i r v}, J i → T.Holds r v → ∀ s ∈ T.regions,
    Instance.current T s (Instance.setCurrent T r v i) =
      if s = r then some v else Instance.current T s i

namespace TableInstance

variable {T : Topology} {i : TableInstance}

/-- The tables are sound, and what is current in a region is in the region. -/
def Seated (T : Topology) (i : TableInstance) : Prop :=
  i.Sound T ∧ ∀ r v, i.current.get? r = some v → (T.vertex v).parent = some r

theorem seated_new (T : Topology) (name : String) : Seated T ⟨name, {}, {}, false⟩ :=
  ⟨sound_new T name, fun _ _ h => nomatch h⟩

theorem Seated.setCurrent (h : i.Seated T) (hT : T.WellFormed) {r : RegionId} {v : VertexId}
    (hv : T.Holds r v) : (i.setCurrent T r v).Seated T := by
  refine ⟨h.1.setCurrent hT hv, fun s w hw => ?_⟩
  rw [current_setCurrent] at hw
  split at hw
  · rename_i he
    rw [← Option.some.inj hw, he]
    exact hv.2
  · exact h.2 s w hw

theorem seats (hT : T.WellFormed) : Instance.Seats T (Seated T) where
  trace _ h := h
  terminate h := ⟨(laws hT).terminate h.1, h.2⟩
  setCurrent h hv := h.setCurrent hT hv
  alike_trace := (laws hT).alike_trace
  listed h := (laws hT).listed h.1
  lastKnown_terminate := (laws hT).lastKnown_terminate
  isTerminated_terminate := (laws hT).isTerminated_terminate
  lastKnown_setCurrent h := (laws hT).lastKnown_setCurrent h.1
  isTerminated_setCurrent := (laws hT).isTerminated_setCurrent
  seated h _ _ hv := h.2 _ _ hv
  current_trace _ _ _ := rfl
  current_terminate _ _ := rfl
  current_setCurrent _ _ s _ := TableInstance.current_setCurrent _ s _

end TableInstance

namespace TreeInstance

variable {T : Topology} {j : TreeInstance}

/-- What is current in a region in this process is in the region. -/
def Seated (T : Topology) (j : TreeInstance) : Prop :=
  ∀ r v, j.current.get? r = some v → (T.vertex v).parent = some r

theorem seated_new (T : Topology) (name : String) : Seated T { name := name } :=
  fun _ _ h => nomatch h

theorem current_setCurrent (r : RegionId) (v : VertexId) (j : TreeInstance) (s : RegionId) :
    (j.setCurrent T r v).current.get? s = if s = r then some v else j.current.get? s := by
  unfold setCurrent
  dsimp only
  split <;> exact Assoc.get?_insert _ _ _ _

/-- On a model with distinct names the last known states stand in for what is not current. -/
theorem seats (hT : T.WellFormed) (hN : T.DistinctNames) : Instance.Seats T (Seated T) where
  trace _ h := h
  terminate h := h
  setCurrent {j r v} h hv := fun s w hw => by
    replace hw : (j.setCurrent T r v).current.get? s = some w := hw
    rw [TreeInstance.current_setCurrent] at hw
    split at hw
    · rename_i he
      rw [← Option.some.inj hw, he]
      exact hv.2
    · exact h s w hw
  alike_trace := (laws hT hN).alike_trace
  listed _ _ _ hv := mem_of_lastKnown hv
  lastKnown_terminate _ _ := rfl
  isTerminated_terminate _ := rfl
  lastKnown_setCurrent _ hv _ hs := TreeInstance.lastKnown_setCurrent hT (hN.siblings hT) hv _ hs
  isTerminated_setCurrent := (laws hT hN).isTerminated_setCurrent
  seated {j} h r v hv := by
    replace hv : j.currentIn T r = some v := hv
    unfold currentIn at hv
    split at hv
    · rename_i w hw
      exact Option.some.inj hv ▸ h r w hw
    · exact (hT.mem_vertices r v (mem_of_lastKnown hv).1).2
  current_trace _ _ _ := rfl
  current_terminate _ _ := rfl
  current_setCurrent {j r v} _ hv s hs := by
    show (j.setCurrent T r v).currentIn T s = if s = r then some v else j.currentIn T s
    unfold currentIn
    rw [TreeInstance.current_setCurrent, TreeInstance.lastKnown_setCurrent hT (hN.siblings hT) hv j hs]
    by_cases he : s = r
    · rw [if_pos he, if_pos he]
    · rw [if_neg he, if_neg he, if_neg fun h => he h.1]

end TreeInstance

end Hsm
