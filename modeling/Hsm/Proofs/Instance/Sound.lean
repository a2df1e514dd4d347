import Hsm.Instance.Table
import Hsm.Proofs.Instance.Laws

/-!
# Sound tables

The engine makes a vertex current only in the region that it is in, so what the tables of an
instance hold as last known states are states of the model in their own regions
(`TableInstance.Sound`), and tables are lawful (`TableInstance.laws`).
-/

namespace Hsm

namespace TableInstance

variable {T : Topology} {i : TableInstance}

/-- The last known states are in the model and in their regions, and were current once. -/
structure Sound (T : Topology) (i : TableInstance) : Prop where
  listed : ∀ r v, i.lastKnown.get? r = some v →
    r ∈ T.regions ∧ v ∈ (T.region r).vertices ∧ T.isState v
  current : ∀ r, (i.lastKnown.get? r).isSome → (i.current.get? r).isSome

theorem sound_new (T : Topology) (name : String) : Sound T ⟨name, {}, {}, false⟩ where
  listed _ _ h := nomatch h
  current _ h := nomatch h

theorem lastKnown_setCurrent (r r' : RegionId) (v : VertexId) :
    (i.setCurrent T r v).lastKnown.get? r' =
      if r' = r ∧ T.isState v then some v else i.lastKnown.get? r' := by
  unfold setCurrent
  by_cases hs : T.isState v
  · simp only [hs, if_true, Assoc.get?_insert, and_true]
  · simp only [hs, and_false, if_false, Bool.false_eq_true]

theorem current_setCurrent (r r' : RegionId) (v : VertexId) :
    (i.setCurrent T r v).current.get? r' = if r' = r then some v else i.current.get? r' :=
  Assoc.get?_insert _ _ _ _

theorem Sound.setCurrent (h : i.Sound T) (hT : T.WellFormed) {r : RegionId} {v : VertexId}
    (hv : T.Holds r v) : (i.setCurrent T r v).Sound T where
  listed r' w hw := by
    rw [lastKnown_setCurrent] at hw
    split at hw
    · rename_i he
      obtain rfl := Option.some.inj hw
      obtain ⟨hr, hm⟩ := hT.listed_of_parent hv.1 hv.2
      exact he.1 ▸ ⟨hr, hm, he.2⟩
    · exact h.listed r' w hw
  current r' hw := by
    rw [lastKnown_setCurrent] at hw
    rw [current_setCurrent]
    split
    · rfl
    · rename_i hne
      rw [if_neg fun he => hne he.1] at hw
      exact h.current r' hw

theorem laws (hT : T.WellFormed) : Instance.Laws T (Sound T) where
  trace _ h := h
  alike_trace i _ := .refl i
  terminate h := ⟨h.listed, h.current⟩
  lastKnown_terminate _ _ := rfl
  isTerminated_terminate _ := rfl
  setCurrent h hv := h.setCurrent hT hv
  lastKnown_setCurrent {_ r v} _ _ s _ := TableInstance.lastKnown_setCurrent r s v
  isTerminated_setCurrent _ _ _ := rfl
  listed h _ _ hv := (h.listed _ _ hv).2

end TableInstance

end Hsm
