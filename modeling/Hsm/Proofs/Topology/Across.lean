import Hsm.Proofs.Topology.Way

/-!
# Regions side by side

The regions of one state lie side by side, and so does what is in one of them with what is in
another (`Topology.Across`): neither of two such vertices is above the other.
-/

namespace Hsm

namespace Topology

variable (T : Topology)

/-- The vertices are in two different regions of one state, at whatever depth. -/
def Across (v w : VertexId) : Prop :=
  ∃ a ∈ T.vertexAncestry v, ∃ b ∈ T.vertexAncestry w, ∃ q ∈ (T.vertex a).parent,
    ∃ r ∈ (T.vertex b).parent, q ≠ r ∧ (T.region q).parent = (T.region r).parent

instance (v w : VertexId) : Decidable (T.Across v w) :=
  inferInstanceAs (Decidable (∃ a ∈ T.vertexAncestry v, ∃ b ∈ T.vertexAncestry w,
    ∃ q ∈ (T.vertex a).parent, ∃ r ∈ (T.vertex b).parent, _ ∧ _))

variable {T} {v w : VertexId} {q r : RegionId}

theorem across_iff : T.Across v w ↔ ∃ q r, T.Along v q ∧ T.Along w r ∧ q ≠ r ∧
    (T.region q).parent = (T.region r).parent :=
  ⟨fun ⟨a, ha, b, hb, q, hq, r, hr, h⟩ => ⟨q, r, ⟨a, ha, hq⟩, ⟨b, hb, hr⟩, h⟩,
    fun ⟨q, r, ⟨a, ha, hq⟩, ⟨b, hb, hr⟩, h⟩ => ⟨a, ha, b, hb, q, hq, r, hr, h⟩⟩

theorem Across.symm (h : T.Across v w) : T.Across w v := by
  obtain ⟨q, r, hv, hw, hne, hp⟩ := across_iff.1 h
  exact across_iff.2 ⟨r, q, hw, hv, hne.symm, hp.symm⟩

theorem Along.of_mem (h : T.Along v r) (hw : v ∈ T.vertexAncestry w) : T.Along w r := by
  obtain ⟨a, ha, hr⟩ := h
  exact ⟨a, Forest.mem_ancestors_trans ha hw, hr⟩

theorem along_of_parent (h : (T.vertex v).parent = some r) : T.Along v r :=
  ⟨v, mem_vertexAncestry_self v, h⟩

namespace WellFormed

variable (hT : T.WellFormed)
include hT

/-- A vertex is in one region of a state at most. -/
theorem eq_of_along (hq : T.Along v q) (hr : T.Along v r)
    (h : (T.region q).parent = (T.region r).parent) : q = r := by
  obtain ⟨a, ha, hqa⟩ := hq
  obtain ⟨b, hb, hrb⟩ := hr
  obtain rfl := hT.eq_of_mem_way ha hb hqa hrb h
  exact Option.some.inj (hqa.symm.trans hrb)

/-- Of two vertices side by side neither is the other, or above it. -/
theorem not_mem_of_across (h : T.Across v w) : v ∉ T.vertexAncestry w := by
  obtain ⟨q, r, hv, hw, hne, hp⟩ := across_iff.1 h
  exact fun hm => hne (hT.eq_of_along (hv.of_mem hm) hw hp)

end WellFormed

end Topology

end Hsm
