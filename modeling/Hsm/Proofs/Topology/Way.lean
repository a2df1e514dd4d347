import Hsm.Proofs.Instance.Laws

/-!
# The way to a state

The way to a state `s` is its ancestry: one vertex in each of some nested regions, which lie along
the way (`Topology.Along`). Whether `s` is active rests on these regions, and whether it is complete
on the regions that it owns, so making a vertex current anywhere else changes neither.
-/

namespace Hsm

namespace Topology

variable (T : Topology) (s : VertexId)

/-- The region holds a vertex of the way to `s`. -/
def Along (r : RegionId) : Prop :=
  ∃ a ∈ T.vertexAncestry s, (T.vertex a).parent = some r

/-- The vertex is in a region along the way to `s`. -/
def Beside (v : VertexId) : Prop :=
  ∃ r ∈ (T.vertex v).parent, T.Along s r

/-- The region lies in `s`. -/
def Inside (r : RegionId) : Prop :=
  s ∈ T.vertexAncestry (T.region r).parent

/-- The vertex is on the way to `s`, or something above it takes the place of a vertex there. -/
def Replaces (x : VertexId) : Prop :=
  x ∈ T.vertexAncestry s ∨ ∃ a ∈ T.vertexAncestry s, ∃ b ∈ T.vertexAncestry x,
    a ≠ b ∧ (T.vertex a).parent = (T.vertex b).parent

instance (r : RegionId) : Decidable (T.Along s r) :=
  inferInstanceAs (Decidable (∃ a ∈ T.vertexAncestry s, (T.vertex a).parent = some r))

instance (v : VertexId) : Decidable (T.Beside s v) :=
  inferInstanceAs (Decidable (∃ r ∈ (T.vertex v).parent, T.Along s r))

instance (x : VertexId) : Decidable (T.Replaces s x) :=
  inferInstanceAs (Decidable (_ ∨ ∃ a ∈ _, ∃ b ∈ _, _))

variable {T s}

theorem isDescendant_iff {v : VertexId} : T.isDescendant v s ↔ s ∈ T.vertexAncestry v ∧ s ≠ v :=
  Forest.isBelow_iff

namespace WellFormed

variable (hT : T.WellFormed)
include hT

theorem isDescendant_of_parent {v : VertexId} {r : RegionId} (h : (T.vertex v).parent = some r) :
    T.isDescendant v s ↔ T.Inside s r := by
  unfold isDescendant Inside
  rw [Forest.isBelow_of_parent (hT.parentState_eq h), Bool.or_eq_true, decide_eq_true_iff]
  constructor
  · rintro (rfl | h)
    · exact mem_vertexAncestry_self _
    · exact (Forest.isBelow_iff.1 h).1
  · intro h
    by_cases he : (T.region r).parent = s
    · exact .inl he
    · exact .inr (Forest.isBelow_iff.2 ⟨h, Ne.symm he⟩)

theorem not_isDescendant_root : ¬T.isDescendant root s := fun h => by
  obtain ⟨hmem, hne⟩ := isDescendant_iff.1 h
  rw [hT.vertexAncestry_root] at hmem
  exact hne (List.mem_singleton.1 hmem)

/-- Of the regions of one state and what is in them, one vertex at most is on the way to `s`. -/
theorem eq_of_mem_way {a b : VertexId} {q r : RegionId} (ha : a ∈ T.vertexAncestry s)
    (hb : b ∈ T.vertexAncestry s) (hq : (T.vertex a).parent = some q)
    (hr : (T.vertex b).parent = some r) (h : (T.region q).parent = (T.region r).parent) : a = b :=
  Forest.eq_of_parent_of_mem (hT.parentState_eq hq) (h ▸ hT.parentState_eq hr) ha hb

/-- A region along the way is owned by a state on the way, above `s`. -/
theorem mem_way_of_along {r : RegionId} (h : T.Along s r) :
    (T.region r).parent ∈ T.vertexAncestry s ∧ (T.region r).parent ≠ s := by
  obtain ⟨a, ha, hr⟩ := h
  have hp : T.stateTree.parent a = some (T.region r).parent := hT.parentState_eq hr
  have hup : (T.region r).parent ∈ T.vertexAncestry a :=
    (Forest.mem_ancestors_of_parent hp).2 (.inr (Forest.mem_ancestors_self _))
  refine ⟨Forest.mem_ancestors_trans hup ha, ?_⟩
  rintro rfl
  exact absurd rfl (Forest.not_mem_ancestors_of_parent hp ha)

/-- A state on the way above `s` owns a region along the way. -/
theorem exists_along {v : VertexId} (hs : s ∈ T.vertices) (hv : v ∈ T.vertexAncestry s)
    (hne : v ≠ s) : ∃ r ∈ (T.vertex v).regions, T.Along s r := by
  obtain ⟨above, below, hsplit⟩ := List.append_of_mem hv
  cases below with
  | nil => exact absurd (eq_of_suffix_singleton ⟨above, hsplit.symm⟩) hne
  | cons w below =>
    obtain ⟨r, hr, hw, -⟩ := hT.region_of_suffix hs ⟨above, hsplit.symm⟩
    refine ⟨r, hr, w, ?_, hw⟩
    rw [hsplit]
    exact List.mem_append_right _ (List.mem_cons_of_mem _ List.mem_cons_self)

theorem isState_of_mem_way (hs : s ∈ T.vertices) (hstate : T.isState s) {a : VertexId}
    (ha : a ∈ T.vertexAncestry s) : T.isState a := by
  by_cases h : a = s
  · exact h ▸ hstate
  · exact hT.isState_of_mem_vertexAncestry hs ha h

/-- A path to `x` leaves the way beside it. -/
theorem exists_beside_of_replaces (hs : s ∈ T.vertices) {x v : VertexId} (hx : x ∈ T.vertices)
    (h : T.Replaces s x) (hv : v ∈ T.vertexAncestry x) (hoff : v ∉ T.vertexAncestry s) :
    ∃ b ∈ T.vertexAncestry v, b ∉ T.vertexAncestry s ∧ T.Beside s b := by
  rcases h with h | ⟨a, ha, b, hb, hne, hp⟩
  · exact absurd (Forest.mem_ancestors_trans hv h) hoff
  · cases hr : (T.vertex a).parent with
    | none =>
      have hroot : ∀ v ∈ T.vertices, (T.vertex v).parent = none → v = root :=
        fun v hv => hT.eq_root v (hT.lt_size_of_mem_vertices hv)
      exact absurd ((hroot a (hT.mem_vertices_of_mem_vertexAncestry hs ha) hr).trans
        (hroot b (hT.mem_vertices_of_mem_vertexAncestry hx hb) (hp ▸ hr)).symm) hne
    | some r =>
      have hbr := hp ▸ hr
      have hboff : b ∉ T.vertexAncestry s := fun h => hne (hT.eq_of_mem_way ha h hr hbr rfl)
      rcases Forest.mem_ancestors_total (F := T.stateTree) hb hv with h | h
      · exact ⟨b, h, hboff, r, hbr, a, ha, hr⟩
      · rcases (hT.mem_vertexAncestry_of_parent hbr).1 h with rfl | h
        · exact ⟨v, mem_vertexAncestry_self v, hboff, r, hbr, a, ha, hr⟩
        · exact absurd (Forest.mem_ancestors_trans h (hT.mem_way_of_along ⟨a, ha, hr⟩).1) hoff

theorem listed_of_along (hs : s ∈ T.vertices) {r : RegionId} (h : T.Along s r) : r ∈ T.regions := by
  obtain ⟨a, ha, hr⟩ := h
  exact (hT.listed_of_parent (hT.mem_vertices_of_mem_vertexAncestry hs ha) hr).1

end WellFormed

end Topology

/-! ## What changes whether a state is active or complete -/

section

variable {ι : Type} [Instance ι] {T : Topology} {s : VertexId} {i : ι}

/-- The last known states of regions along the way decide whether a state is active. -/
theorem Instance.isActive_iff :
    Instance.isActive T i s ↔ ∀ a ∈ T.vertexAncestry s, ∀ r, (T.vertex a).parent = some r →
      Instance.lastKnown T r i = some a := by
  unfold Instance.isActive Topology.isActiveIn
  rw [List.all_eq_true]
  refine forall₂_congr fun a _ => ?_
  cases (T.vertex a).parent with
  | none => exact ⟨fun _ _ h => (nomatch h), fun _ => rfl⟩
  | some r =>
    exact decide_eq_true_iff.trans ⟨fun h _ he => Option.some.inj he ▸ h, fun h => h r rfl⟩

variable {J : ι → Prop} (hJ : Instance.Laws T J) (hT : T.WellFormed) (hs : s ∈ T.vertices)
  (hi : J i) {r : RegionId} {v : VertexId} (hv : T.Holds r v)
include hJ hT hs hi hv

theorem isActive_setCurrent (h : ¬(T.isState v ∧ T.Along s r)) :
    Instance.isActive T (Instance.setCurrent T r v i) s ↔ Instance.isActive T i s := by
  rw [Instance.isActive_iff, Instance.isActive_iff]
  refine forall₂_congr fun a ha => forall₂_congr fun q hq => ?_
  have hlisted := hT.listed_of_along hs ⟨a, ha, hq⟩
  rw [hJ.lastKnown_setCurrent hi hv q hlisted, if_neg]
  rintro ⟨rfl, hstate⟩
  exact h ⟨hstate, a, ha, hq⟩

/-- A state beside the way takes the place of the one on the way. -/
theorem not_isActive_setCurrent (h : T.Along s r) (hstate : T.isState v)
    (hoff : v ∉ T.vertexAncestry s) : ¬Instance.isActive T (Instance.setCurrent T r v i) s := by
  obtain ⟨a, ha, hr⟩ := h
  intro hactive
  have hlast := Instance.isActive_iff.1 hactive a ha r hr
  rw [hJ.lastKnown_setCurrent hi hv r (hT.listed_of_along hs ⟨a, ha, hr⟩), if_pos ⟨rfl, hstate⟩]
    at hlast
  exact hoff (Option.some.inj hlast ▸ ha)

omit hT in
theorem isComplete_setCurrent (h : ¬(T.isState v ∧ r ∈ (T.vertex s).regions)) :
    Instance.isComplete T (Instance.setCurrent T r v i) s ↔ Instance.isComplete T i s := by
  unfold Instance.isComplete
  rw [List.all_eq_true, List.all_eq_true]
  refine forall₂_congr fun q hq => ?_
  have hlisted : q ∈ T.regions := Topology.mem_regions.2 ⟨s, hs, hq⟩
  unfold Instance.isCompleteRegion
  rw [hJ.lastKnown_setCurrent hi hv q hlisted, if_neg]
  rintro ⟨rfl, hstate⟩
  exact h ⟨hstate, hq⟩

end

end Hsm
