import Hsm.Proofs.Topology.Tree

/-!
# Topologies from which nothing was taken

As long as nothing is removed, every element is listed by its owner and every transition ends in a
vertex that exists (`Topology.Grown`); then every vertex is in the model (`Grown.mem_all`).
-/

namespace Hsm

namespace Topology

variable {T : Topology}

structure Grown (T : Topology) : Prop extends WellFormed T where
  vertex_listed : ∀ v r, v.index < T.vertexNodes.size → (T.vertex v).parent = some r →
    v ∈ (T.region r).vertices
  region_listed : ∀ r, r.index < T.regionNodes.size → r ∈ (T.vertex (T.region r).parent).regions
  target_lt : ∀ t x, (T.transition t).target = some x → x.index < T.vertexNodes.size

theorem grown_ofName (name : String) : (Topology.ofName name).Grown where
  toWellFormed := wellFormed_ofName name
  vertex_listed := by
    rintro ⟨n⟩ r hn h
    obtain rfl : n = 0 := Nat.lt_one_iff.1 hn
    cases h
  region_listed r h := absurd h (Nat.not_lt_zero _)
  target_lt t x h := by cases h

namespace Grown

theorem mem_all (hT : T.Grown) {v : VertexId} (hv : v.index < T.vertexNodes.size) :
    v ∈ T.vertices := by
  cases hp : (T.vertex v).parent with
  | none => rw [hT.eq_root v hv hp]; exact root_mem_vertices
  | some r =>
    obtain ⟨hr, hlt⟩ := hT.parent_lt v r hp
    exact hT.mem_vertices_of_owner (mem_all hT (Nat.lt_trans hlt hv)) (hT.region_listed r hr)
      (hT.vertex_listed v r hv hp)
termination_by v.index

theorem mem_target (hT : T.Grown) {t : TransitionId} {x : VertexId}
    (h : (T.transition t).target = some x) : x ∈ T.vertices :=
  hT.mem_all (hT.target_lt t x h)

theorem addRegion (hT : T.Grown) {state : VertexId} (hs : state.index < T.vertexNodes.size)
    (hk : T.isState state) (name : String) : (T.addRegion name state).2.Grown := by
  have hU := hT.toWellFormed.addRegion hs hk name
  have hr := region_addRegion (T := T) name state
  have hv := vertex_addRegion hs name
  obtain ⟨hrs, hvs, hts⟩ := size_addRegion (T := T) name state
  generalize (T.addRegion name state).2 = U at *
  have hregions : ∀ w, (T.vertex w).regions ⊆ (U.vertex w).regions := fun w => by
    rw [hv]
    split
    · exact List.subset_append_left _ _
    · exact List.Subset.refl _
  refine ⟨hU, fun v r h hp => ?_, fun r h => ?_, fun t x h => ?_⟩
  · have hp' : (T.vertex v).parent = some r := by
      rw [hv] at hp
      split at hp <;> exact hp
    rw [hr, if_neg (Nat.ne_of_lt (hT.parent_lt v r hp').1)]
    exact hT.vertex_listed v r (hvs ▸ h) hp'
  · by_cases he : r.index = T.regionNodes.size
    · obtain rfl : r = ⟨T.regionNodes.size⟩ := by cases r; cases he; rfl
      rw [hr, if_pos rfl, hv, if_pos rfl]
      exact List.mem_append_right _ (List.mem_singleton.2 rfl)
    · rw [hr, if_neg he]
      exact hregions _ (hT.region_listed r (by omega))
  · unfold transition at h
    rw [hts] at h
    rw [hvs]
    exact hT.target_lt t x h

/-- A change of a vertex matters only if it concerns its place or its regions. -/
theorem modifyVertex (hT : T.Grown) {v : VertexId} {f : VertexNode → VertexNode}
    (hW : (T.modifyVertex v f).WellFormed) (hp : ∀ node, (f node).parent = node.parent)
    (hr : ∀ node, (f node).regions = node.regions) : (T.modifyVertex v f).Grown := by
  have hsize : (T.modifyVertex v f).vertexNodes.size = T.vertexNodes.size := Array.size_modify ..
  refine ⟨hW, fun w s h hs => ?_, fun s h => ?_, fun t x h => ?_⟩
  · rw [read_modifyVertex VertexNode.parent v w hp] at hs
    exact hT.vertex_listed w s (hsize ▸ h) hs
  · rw [read_modifyVertex VertexNode.regions v _ hr]
    exact hT.region_listed s h
  · rw [hsize]
    exact hT.target_lt t x h

theorem defaultRegion (hT : T.Grown) {state : VertexId} (hs : state.index < T.vertexNodes.size)
    (hk : T.isState state) : (T.defaultRegion state).2.Grown := by
  have hW := (hT.toWellFormed.defaultRegion hs hk).1
  unfold Topology.defaultRegion at hW ⊢
  split at hW
  · exact hT
  · exact (hT.addRegion hs hk defaultRegionName).modifyVertex hW (fun _ => rfl) fun _ => rfl

theorem regionAt (hT : T.Grown) {place : Place} (h : T.Valid place) :
    (T.regionAt place).2.Grown := by
  cases place with
  | region r => exact hT
  | state v => exact hT.defaultRegion h.1 h.2

theorem lodge (hT : T.Grown) {r : RegionId} {node : VertexNode} (hW : (T.lodge r node).WellFormed)
    (hr : r.index < T.regionNodes.size) (hp : node.parent = some r) : (T.lodge r node).Grown := by
  have hvertex := vertex_lodge (T := T) r node
  have hregion := region_lodge hr node
  have htransition : ∀ t, (T.lodge r node).transition t = T.transition t := fun _ => rfl
  obtain ⟨hvs, hrs⟩ := size_lodge (T := T) r node
  generalize T.lodge r node = U at *
  have hold : ∀ w : VertexId, w.index < T.vertexNodes.size → U.vertex w = T.vertex w :=
    fun w hw => by rw [hvertex, if_neg (Nat.ne_of_lt hw)]
  refine ⟨hW, fun w s hw hws => ?_, fun s hs => ?_, fun t x ht => ?_⟩
  · rw [hregion]
    by_cases he : w.index = T.vertexNodes.size
    · obtain rfl : w = ⟨T.vertexNodes.size⟩ := congrArg VertexId.mk he
      rw [hvertex, if_pos rfl, hp] at hws
      rw [if_pos (Option.some.inj hws).symm]
      exact List.mem_append_right _ (List.mem_singleton.2 rfl)
    · have hlt : w.index < T.vertexNodes.size := by omega
      have hlisted := hT.vertex_listed w s hlt (hold w hlt ▸ hws)
      split
      · exact List.mem_append_left _ hlisted
      · exact hlisted
  · have hlt : s.index < T.regionNodes.size := hrs ▸ hs
    have hparent : (U.region s).parent = (T.region s).parent := by rw [hregion]; split <;> rfl
    rw [hparent, hold _ (hT.region_parent_lt s hlt)]
    exact hT.region_listed s hlt
  · rw [hvs]
    exact Nat.lt_succ_of_lt (hT.target_lt t x (htransition t ▸ ht))

theorem addVertex (hT : T.Grown) {place : Place} (h : T.Valid place) (name : String)
    (kind : VertexKind) : (T.addVertex name place kind).2.Grown :=
  (hT.regionAt h).lodge (hT.toWellFormed.addVertex h name kind) (hT.toWellFormed.regionAt h).2.1 rfl

theorem pushTransition (hT : T.Grown) (node : TransitionNode)
    (ht : ∀ x, node.target = some x → x.index < T.vertexNodes.size) :
    Grown { T with transitionNodes := T.transitionNodes.push node } := by
  refine ⟨hT.toWellFormed.pushTransition node, hT.vertex_listed, hT.region_listed,
    fun t x h => ?_⟩
  rw [transition_push] at h
  split at h
  · exact ht x h
  · exact hT.target_lt t x h

theorem addTransition (hT : T.Grown) {source : VertexId} {target : Option VertexId}
    (ht : ∀ x, target = some x → x.index < T.vertexNodes.size) (kind : TransitionKind) :
    (T.addTransition source target kind).2.Grown := by
  have hW := hT.toWellFormed.addTransition source target kind
  have hU := (hT.pushTransition ⟨source, target, effectiveKind target kind, false⟩ ht).modifyVertex
    (hT.toWellFormed.issue _) (fun _ => rfl) fun _ => rfl
  unfold Topology.addTransition at hW ⊢
  cases target with
  | none => exact hU
  | some x => exact hU.modifyVertex hW (fun _ => rfl) fun _ => rfl

theorem setTransitionKind (hT : T.Grown) (t : TransitionId) (kind : TransitionKind) :
    (T.setTransitionKind t kind).Grown := by
  have htarget : ∀ u, ((T.setTransitionKind t kind).transition u).target = (T.transition u).target :=
    fun u => read_modifyTransition TransitionNode.target t u fun _ => rfl
  exact ⟨(trims_setTransitionKind t kind).wellFormed hT.toWellFormed, hT.vertex_listed,
    hT.region_listed, fun u x h => hT.target_lt u x ((htarget u).symm.trans h)⟩

end Grown

end Topology

end Hsm
