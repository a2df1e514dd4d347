import Hsm.Proofs.Topology.Tree

/-!
# Marks of removal

Every edit keeps the marks of removal and the lists of owners in step: a vertex or region is listed
by its owner just if it is not marked (`Topology.Marked`). So an element is in the model just if
neither it nor anything above it was removed (`Marked.listed_iff`).
-/

namespace Hsm

namespace Topology

variable {T U V : Topology}

/-- What an owner lists is what it owns and has not been removed. -/
structure Marked (T : Topology) : Prop extends WellFormed T where
  root_attached : (T.vertex root).detached = false
  vertex_listed : ∀ v r, v.index < T.vertexNodes.size → (T.vertex v).parent = some r →
    (v ∈ (T.region r).vertices ↔ (T.vertex v).detached = false)
  region_listed : ∀ r, r.index < T.regionNodes.size →
    (r ∈ (T.vertex (T.region r).parent).regions ↔ (T.region r).detached = false)

/-- The two have the same regions, and vertices that differ in their transitions at most. -/
structure SamePlaces (T U : Topology) : Prop where
  regionNodes : U.regionNodes = T.regionNodes
  size : U.vertexNodes.size = T.vertexNodes.size
  parent : ∀ v, (U.vertex v).parent = (T.vertex v).parent
  regions : ∀ v, (U.vertex v).regions = (T.vertex v).regions
  detached : ∀ v, (U.vertex v).detached = (T.vertex v).detached

namespace SamePlaces

theorem refl (T : Topology) : T.SamePlaces T :=
  ⟨rfl, rfl, fun _ => rfl, fun _ => rfl, fun _ => rfl⟩

theorem trans (h : T.SamePlaces U) (h' : U.SamePlaces V) : T.SamePlaces V where
  regionNodes := h'.regionNodes.trans h.regionNodes
  size := h'.size.trans h.size
  parent v := (h'.parent v).trans (h.parent v)
  regions v := (h'.regions v).trans (h.regions v)
  detached v := (h'.detached v).trans (h.detached v)

theorem foldl {α : Type} {f : Topology → α → Topology} (hf : ∀ T a, SamePlaces T (f T a)) :
    ∀ (l : List α) (T : Topology), T.SamePlaces (l.foldl f T)
  | [], T => refl T
  | a :: l, T => (hf T a).trans (foldl hf l (f T a))

theorem modifyVertex (T : Topology) (v : VertexId) {f : VertexNode → VertexNode}
    (hp : ∀ node, (f node).parent = node.parent) (hr : ∀ node, (f node).regions = node.regions)
    (hd : ∀ node, (f node).detached = node.detached) : T.SamePlaces (T.modifyVertex v f) := by
  refine ⟨rfl, Array.size_modify .., fun w => ?_, fun w => ?_, fun w => ?_⟩ <;>
    rcases vertex_modifyVertex (T := T) v w f with h | ⟨-, -, h⟩ <;> rw [h]
  · exact hp _
  · exact hr _
  · exact hd _

theorem region (h : T.SamePlaces U) (r : RegionId) : U.region r = T.region r := by
  unfold Topology.region
  rw [h.regionNodes]

theorem marked (h : T.SamePlaces U) (hU : U.WellFormed) (hT : T.Marked) : U.Marked := by
  refine ⟨hU, (h.detached root).trans hT.root_attached, fun v r hv hp => ?_, fun r hr => ?_⟩
  · rw [h.region, h.detached]
    exact hT.vertex_listed v r (h.size ▸ hv) ((h.parent v).symm.trans hp)
  · rw [h.region, h.regions]
    exact hT.region_listed r (h.regionNodes ▸ hr)

end SamePlaces

theorem samePlaces_detachTransition (T : Topology) (t : TransitionId) :
    T.SamePlaces (T.detachTransition t) := by
  have hmark : T.SamePlaces (T.modifyTransition t fun node => { node with detached := true }) :=
    ⟨rfl, rfl, fun _ => rfl, fun _ => rfl, fun _ => rfl⟩
  have hsource := hmark.trans (SamePlaces.modifyVertex _ (T.transition t).source
    (f := fun node => { node with outgoing := node.outgoing.filter (· ≠ t) })
    (fun _ => rfl) (fun _ => rfl) fun _ => rfl)
  unfold detachTransition
  dsimp only
  split
  · exact hsource.trans (.modifyVertex _ _ (fun _ => rfl) (fun _ => rfl) fun _ => rfl)
  · exact hsource

theorem samePlaces_pushTransition (node : TransitionNode) :
    T.SamePlaces { T with transitionNodes := T.transitionNodes.push node } :=
  ⟨rfl, rfl, fun _ => rfl, fun _ => rfl, fun _ => rfl⟩

theorem samePlaces_addTransition (source : VertexId) (target : Option VertexId)
    (kind : TransitionKind) : T.SamePlaces (T.addTransition source target kind).2 := by
  have hpush : T.SamePlaces _ :=
    samePlaces_pushTransition ⟨source, target, effectiveKind target kind, false⟩
  have h := hpush.trans (.modifyVertex _ source
    (f := fun node =>
      { node with outgoing := node.outgoing ++ [(⟨T.transitionNodes.size⟩ : TransitionId)] })
    (fun _ => rfl) (fun _ => rfl) fun _ => rfl)
  cases target with
  | none => exact h
  | some target => exact h.trans (.modifyVertex _ _ (fun _ => rfl) (fun _ => rfl) fun _ => rfl)

theorem modifyVertex_of_le {v : VertexId} (h : T.vertexNodes.size ≤ v.index)
    (f : VertexNode → VertexNode) : T.modifyVertex v f = T := by
  have hsame : T.vertexNodes.modify v.index f = T.vertexNodes := by
    refine Array.ext_getElem? fun i => ?_
    rw [Array.getElem?_modify]
    split
    · rename_i hi
      rw [← hi, Array.getElem?_eq_none h]
      rfl
    · rfl
  unfold modifyVertex
  rw [hsame]

/-- The topology with a vertex taken out of a region and marked. -/
def withdraw (T : Topology) (r : RegionId) (v : VertexId) : Topology :=
  (T.modifyRegion r fun node =>
    { node with vertices := node.vertices.filter (· ≠ v) }).modifyVertex v
      fun node => { node with detached := true }

theorem vertex_withdraw {v : VertexId} (h : v.index < T.vertexNodes.size) (r : RegionId)
    (w : VertexId) : (T.withdraw r v).vertex w =
      if w = v then { T.vertex w with detached := true } else T.vertex w :=
  vertex_modifyVertex_of_lt (T := T.modifyRegion r _) h w _

theorem region_withdraw {r : RegionId} (h : r.index < T.regionNodes.size) (v : VertexId)
    (s : RegionId) : (T.withdraw r v).region s = if s = r then
      { T.region s with vertices := (T.region s).vertices.filter (· ≠ v) } else T.region s :=
  region_modifyRegion_of_lt h s _

theorem size_withdraw (r : RegionId) (v : VertexId) :
    (T.withdraw r v).vertexNodes.size = T.vertexNodes.size
      ∧ (T.withdraw r v).regionNodes.size = T.regionNodes.size :=
  ⟨Array.size_modify .., Array.size_modify ..⟩

theorem marked_ofName (name : String) : (Topology.ofName name).Marked where
  toWellFormed := wellFormed_ofName name
  root_attached := rfl
  vertex_listed := by
    rintro ⟨n⟩ r hn h
    obtain rfl : n = 0 := Nat.lt_one_iff.1 hn
    cases h
  region_listed r h := absurd h (Nat.not_lt_zero _)

namespace Marked

/-! ## Additions -/

theorem addRegion (hT : T.Marked) {state : VertexId} (hs : state.index < T.vertexNodes.size)
    (hk : T.isState state) (name : String) : (T.addRegion name state).2.Marked := by
  have hU := hT.toWellFormed.addRegion hs hk name
  have hr := region_addRegion (T := T) name state
  have hv := vertex_addRegion hs name
  obtain ⟨hrs, hvs, -⟩ := size_addRegion (T := T) name state
  generalize (T.addRegion name state).2 = U at *
  have hdetached : ∀ v, (U.vertex v).detached = (T.vertex v).detached := fun v => by
    rw [hv]; split <;> rfl
  refine ⟨hU, (hdetached root).trans hT.root_attached, fun v s h hp => ?_, fun s h => ?_⟩
  · have hp' : (T.vertex v).parent = some s := by
      rw [hv] at hp
      split at hp <;> exact hp
    rw [hr, if_neg (Nat.ne_of_lt (hT.parent_lt v s hp').1), hdetached]
    exact hT.vertex_listed v s (hvs ▸ h) hp'
  · by_cases he : s.index = T.regionNodes.size
    · obtain rfl : s = ⟨T.regionNodes.size⟩ := by cases s; cases he; rfl
      simp [hr, hv]
    · have hlt : s.index < T.regionNodes.size := by omega
      have hne : s ≠ ⟨T.regionNodes.size⟩ := fun h => he (congrArg RegionId.index h)
      have hmem : s ∈ (U.vertex (T.region s).parent).regions ↔
          s ∈ (T.vertex (T.region s).parent).regions := by
        rw [hv]
        split <;> simp [hne]
      rw [hr, if_neg he, hmem]
      exact hT.region_listed s hlt

theorem defaultRegion (hT : T.Marked) {state : VertexId} (hs : state.index < T.vertexNodes.size)
    (hk : T.isState state) : (T.defaultRegion state).2.Marked := by
  have hW := (hT.toWellFormed.defaultRegion hs hk).1
  unfold Topology.defaultRegion at hW ⊢
  split at hW
  · exact hT
  · exact SamePlaces.marked (.modifyVertex _ _ (fun _ => rfl) (fun _ => rfl) fun _ => rfl) hW
      (hT.addRegion hs hk defaultRegionName)

theorem regionAt (hT : T.Marked) {place : Place} (h : T.Valid place) :
    (T.regionAt place).2.Marked := by
  cases place with
  | region r => exact hT
  | state v => exact hT.defaultRegion h.1 h.2

theorem lodge (hT : T.Marked) {r : RegionId} {node : VertexNode} (hW : (T.lodge r node).WellFormed)
    (hr : r.index < T.regionNodes.size) (hp : node.parent = some r)
    (hd : node.detached = false) : (T.lodge r node).Marked := by
  have hv := vertex_lodge (T := T) r node
  have hs := region_lodge hr node
  obtain ⟨hvsize, hrsize⟩ := size_lodge (T := T) r node
  generalize T.lodge r node = U at *
  have hold : ∀ w : VertexId, w.index < T.vertexNodes.size → U.vertex w = T.vertex w :=
    fun w hw => by rw [hv, if_neg (Nat.ne_of_lt hw)]
  refine ⟨hW, ?_, fun w s hw hws => ?_, fun s hlt => ?_⟩
  · rw [hold _ hT.root_lt]
    exact hT.root_attached
  · rw [hs]
    by_cases he : w.index = T.vertexNodes.size
    · obtain rfl : w = ⟨T.vertexNodes.size⟩ := by cases w; cases he; rfl
      have hnew : U.vertex ⟨T.vertexNodes.size⟩ = node := (hv _).trans (if_pos rfl)
      obtain rfl : r = s := Option.some.inj (hp.symm.trans (hnew ▸ hws))
      simp [hnew, hd]
    · have hlt : w.index < T.vertexNodes.size := by omega
      have hne : w ≠ ⟨T.vertexNodes.size⟩ := fun h => he (congrArg VertexId.index h)
      rw [hold w hlt] at hws ⊢
      rw [← hT.vertex_listed w s hlt hws]
      split <;> simp [hne]
  · have hlt' : s.index < T.regionNodes.size := hrsize ▸ hlt
    have hparent : (U.region s).parent = (T.region s).parent := by rw [hs]; split <;> rfl
    have hdetached : (U.region s).detached = (T.region s).detached := by rw [hs]; split <;> rfl
    rw [hparent, hdetached, hold _ (hT.region_parent_lt s hlt')]
    exact hT.region_listed s hlt'

theorem addVertex (hT : T.Marked) {place : Place} (h : T.Valid place) (name : String)
    (kind : VertexKind) : (T.addVertex name place kind).2.Marked :=
  (hT.regionAt h).lodge (hT.toWellFormed.addVertex h name kind) (hT.toWellFormed.regionAt h).2.1
    rfl rfl

/-! ## Removals -/

theorem withdraw (hT : T.Marked) {r : RegionId} {v : VertexId} (hW : (T.withdraw r v).WellFormed)
    (hlt : v.index < T.vertexNodes.size) (hp : (T.vertex v).parent = some r) :
    (T.withdraw r v).Marked := by
  have hvertex := vertex_withdraw hlt r
  have hregion := region_withdraw (hT.parent_lt v r hp).1 v
  obtain ⟨hvsize, hrsize⟩ := size_withdraw (T := T) r v
  generalize T.withdraw r v = U at *
  refine ⟨hW, ?_, fun w s hw hs => ?_, fun s hs => ?_⟩
  · have hne : root ≠ v := fun h => by rw [← h, hT.root_parent] at hp; cases hp
    rw [hvertex, if_neg hne]
    exact hT.root_attached
  · by_cases he : w = v
    · subst he
      rw [hvertex, if_pos rfl] at hs ⊢
      obtain rfl : r = s := Option.some.inj (hp.symm.trans hs)
      simp [hregion]
    · rw [hvertex, if_neg he] at hs ⊢
      rw [← hT.vertex_listed w s (hvsize ▸ hw) hs, hregion]
      split <;> simp [he]
  · have hparent : (U.region s).parent = (T.region s).parent := by rw [hregion]; split <;> rfl
    have hdetached : (U.region s).detached = (T.region s).detached := by
      rw [hregion]; split <;> rfl
    have hregions : ∀ w, (U.vertex w).regions = (T.vertex w).regions := fun w => by
      rw [hvertex]; split <;> rfl
    rw [hparent, hdetached, hregions]
    exact hT.region_listed s (hrsize ▸ hs)

theorem detachBareVertex (hT : T.Marked) {v : VertexId} (hv : v ≠ root) :
    (T.detachBareVertex v).Marked := by
  have hW := (trims_detachBareVertex T v).wellFormed hT.toWellFormed
  have hsame := SamePlaces.foldl samePlaces_detachTransition
    ((T.vertex v).outgoing ++ (T.vertex v).incoming) T
  have htrims := Trims.foldl trims_detachTransition
    ((T.vertex v).outgoing ++ (T.vertex v).incoming) T
  have hmarked := hsame.marked (htrims.wellFormed hT.toWellFormed) hT
  unfold Topology.detachBareVertex at hW ⊢
  by_cases hlt : v.index < T.vertexNodes.size
  · cases hp : (T.vertex v).parent with
    | none => exact absurd (hT.eq_root v hlt hp) hv
    | some r =>
      simp only [hp] at hW ⊢
      exact hmarked.withdraw hW (hsame.size ▸ hlt) ((hsame.parent v).trans hp)
  · have hnone : T.vertex v = default := by
      unfold vertex
      rw [Array.getElem?_eq_none (Nat.le_of_not_lt hlt)]
      rfl
    rw [hnone]
    show (T.modifyVertex v _).Marked
    rw [modifyVertex_of_le (Nat.le_of_not_lt hlt)]
    exact hT

theorem detachBareRegion (hT : T.Marked) (r : RegionId) : (T.detachBareRegion r).Marked := by
  have hW := (trims_detachBareRegion T r).wellFormed hT.toWellFormed
  have htrims := trims_detachBareRegion T r
  have hvertex : ∀ w, ((T.detachBareRegion r).vertex w).detached = (T.vertex w).detached ∧
      ∀ s, s ≠ r → (s ∈ ((T.detachBareRegion r).vertex w).regions ↔ s ∈ (T.vertex w).regions) := by
    intro w
    rcases vertex_modifyVertex (T := T) (T.region r).parent w
      fun node => { node with regions := node.regions.filter (· ≠ r) } with h | ⟨-, -, h⟩
    · exact ⟨congrArg VertexNode.detached h, fun s _ => by rw [← h]; rfl⟩
    · refine ⟨(congrArg VertexNode.detached h :), fun s hs => ?_⟩
      have hregions : ((T.detachBareRegion r).vertex w).regions
        = (T.vertex w).regions.filter (· ≠ r) := congrArg VertexNode.regions h
      simp [hregions, hs]
  have hregion : ∀ s, s ≠ r → (T.detachBareRegion r).region s = T.region s := fun s hs =>
    (region_modifyRegion (T := T.modifyVertex _ _) r s fun node =>
      { node with detached := true }).elim id fun h => absurd h.1 hs
  have hlisted : ∀ s, ((T.detachBareRegion r).region s).vertices = (T.region s).vertices := by
    intro s
    rcases region_modifyRegion (T := T.modifyVertex _ _) r s fun node =>
      { node with detached := true } with h | ⟨-, -, h⟩ <;>
      exact (congrArg RegionNode.vertices h :)
  refine ⟨hW, ((hvertex root).1).trans hT.root_attached, fun v s hv hp => ?_, fun s hs => ?_⟩
  · rw [hlisted, (hvertex v).1]
    exact hT.vertex_listed v s (htrims.vertices_size ▸ hv) ((htrims.parent v).symm.trans hp)
  · have hlt : s.index < T.regionNodes.size := htrims.regions_size ▸ hs
    rw [htrims.region_parent]
    by_cases he : s = r
    · subst he
      have hmark : (T.detachBareRegion s).region s = { T.region s with detached := true } :=
        (region_modifyRegion_of_lt (T := T.modifyVertex _ _) hlt s _).trans (if_pos rfl)
      have hgone : ((T.detachBareRegion s).vertex (T.region s).parent).regions
          = (T.vertex (T.region s).parent).regions.filter (· ≠ s) :=
        congrArg VertexNode.regions
          ((vertex_modifyVertex_of_lt (hT.region_parent_lt s hlt) _ _).trans (if_pos rfl))
      simp [hmark, hgone]
    · rw [(hvertex _).2 s he, hregion s he]
      exact hT.region_listed s hlt

/-- What keeps the marks right for every vertex but the root keeps them right for a region. -/
theorem detachRegionBy {detach : Topology → VertexId → Topology}
    (h : ∀ {T : Topology} {v : VertexId}, T.Marked → v ≠ root → (detach T v).Marked)
    (hT : T.Marked) (r : RegionId) : (T.detachRegionBy detach r).Marked := by
  have hroot : ∀ v ∈ (T.region r).vertices, v ≠ root := fun v hv he => by
    have hp := (hT.mem_vertices r v hv).2
    rw [he, hT.root_parent] at hp
    cases hp
  have hfold : ((T.region r).vertices.foldl detach T).Marked :=
    List.foldlRecOn _ _ hT fun T hT v hv => h hT (hroot v hv)
  exact hfold.detachBareRegion r

theorem detachVertexWithin : ∀ (n : Nat) {T : Topology} {v : VertexId}, T.Marked → v ≠ root →
    (Topology.detachVertexWithin n T v).Marked
  | 0, _, _, hT, hv => hT.detachBareVertex hv
  | n + 1, T, v, hT, hv => by
    have hfold : ((T.vertex v).regions.foldl
        (Topology.detachRegionBy · (Topology.detachVertexWithin n)) T).Marked :=
      List.foldlRecOn _ _ hT fun T hT r _ => detachRegionBy (detachVertexWithin n) hT r
    exact hfold.detachBareVertex hv

theorem detachVertex (hT : T.Marked) {v : VertexId} (hv : v ≠ root) : (T.detachVertex v).Marked :=
  detachVertexWithin _ hT hv

theorem detachRegion (hT : T.Marked) (r : RegionId) : (T.detachRegion r).Marked :=
  detachRegionBy (detachVertexWithin _) hT r

/-! ## What the marks mean -/

theorem mem_regions_iff (hT : T.Marked) {r : RegionId} (hr : r.index < T.regionNodes.size) :
    r ∈ (T.vertex (T.region r).parent).regions ↔ T.isAttached (.region r) := by
  rw [hT.region_listed r hr]
  simp [isAttached]

theorem mem_vertices_iff (hT : T.Marked) {v : VertexId} {r : RegionId}
    (hv : v.index < T.vertexNodes.size) (hp : (T.vertex v).parent = some r) :
    v ∈ (T.region r).vertices ↔ T.isAttached (.vertex v) := by
  rw [hT.vertex_listed v r hv hp]
  simp [isAttached]

theorem attached_of_mem_vertices (hT : T.Marked) : ∀ v ∈ T.vertices,
    ∀ a ∈ T.ancestry (.vertex v), T.isAttached a := by
  refine hT.vertices_induction (p := fun v => ∀ a ∈ T.ancestry (.vertex v), T.isAttached a)
    (fun a ha => ?_) fun u r w _ hr hw ih a ha => ?_
  · rw [hT.ancestry_vertex_of_not_parent hT.root_parent] at ha
    rw [List.mem_singleton.1 ha]
    simp [isAttached, hT.root_attached]
  · obtain ⟨hrlt, rfl⟩ := hT.mem_regions u r hr
    obtain ⟨hwlt, hp⟩ := hT.mem_vertices r w hw
    rw [hT.ancestry_vertex hp, WellFormed.ancestry_region, List.mem_append, List.mem_append] at ha
    rcases ha with (ha | ha) | ha
    · exact ih a ha
    · exact List.mem_singleton.1 ha ▸ (hT.mem_regions_iff hrlt).1 hr
    · exact List.mem_singleton.1 ha ▸ (hT.mem_vertices_iff hwlt hp).1 hw

theorem mem_vertices_of_attached (hT : T.Marked) {v : VertexId} (hv : v.index < T.vertexNodes.size)
    (h : ∀ a ∈ T.ancestry (.vertex v), T.isAttached a) : v ∈ T.vertices := by
  cases hp : (T.vertex v).parent with
  | none => exact hT.eq_root v hv hp ▸ root_mem_vertices
  | some r =>
    obtain ⟨hr, hlt⟩ := hT.parent_lt v r hp
    rw [hT.ancestry_vertex hp, WellFormed.ancestry_region] at h
    have hu : (T.region r).parent ∈ T.vertices :=
      mem_vertices_of_attached hT (Nat.lt_trans hlt hv) fun a ha =>
        h a (List.mem_append_left _ (List.mem_append_left _ ha))
    refine hT.mem_vertices_of_owner hu ((hT.mem_regions_iff hr).2 (h _ ?_))
      ((hT.mem_vertices_iff hv hp).2 (h _ ?_))
    · exact List.mem_append_left _ (List.mem_append_right _ (List.mem_singleton.2 rfl))
    · exact List.mem_append_right _ (List.mem_singleton.2 rfl)
termination_by v.index

end Marked

/-- The handle of the element was given out. -/
def Has (T : Topology) : Element → Prop
  | .region r => r.index < T.regionNodes.size
  | .vertex v => v.index < T.vertexNodes.size

/-- An element is in the model just if neither it nor anything that owns it was removed. -/
theorem Marked.listed_iff (hT : T.Marked) {e : Element} :
    T.Listed e ↔ T.Has e ∧ ∀ a ∈ T.ancestry e, T.isAttached a := by
  cases e with
  | vertex v =>
    exact ⟨fun h => ⟨hT.lt_size_of_mem_vertices h, hT.attached_of_mem_vertices v h⟩,
      fun h => hT.mem_vertices_of_attached h.1 h.2⟩
  | region r =>
    rw [WellFormed.ancestry_region]
    constructor
    · intro h
      obtain ⟨hu, hr⟩ := hT.owner_of_mem_regions h
      have hlt := (hT.mem_regions _ r hr).1
      refine ⟨hlt, fun a ha => ?_⟩
      rcases List.mem_append.1 ha with ha | ha
      · exact hT.attached_of_mem_vertices _ hu a ha
      · exact List.mem_singleton.1 ha ▸ (hT.mem_regions_iff hlt).1 hr
    · rintro ⟨hlt, h⟩
      have hu := hT.mem_vertices_of_attached (hT.region_parent_lt r hlt) fun a ha =>
        h a (List.mem_append_left _ ha)
      exact Topology.mem_regions.2 ⟨_, hu, (hT.mem_regions_iff hlt).2
        (h _ (List.mem_append_right _ (List.mem_singleton.2 rfl)))⟩

end Topology

end Hsm
