import Hsm.Proofs.Topology.Marked

/-!
# Transitions and the lists of their ends

A vertex lists a transition as outgoing or incoming just if the transition starts or ends there and
has not been removed (`Topology.Linked`). Edits of vertices and regions leave the lists alone
(`Topology.SameLinks`); adding a transition puts it into the lists of its ends, and removing one
takes it out of both.
-/

namespace Hsm

namespace Topology

variable {T U V : Topology}

/-- The transition was given out and has not been removed. -/
def Live (T : Topology) (t : TransitionId) : Prop :=
  t.index < T.transitionNodes.size ∧ T.isAttachedTransition t

structure Linked (T : Topology) : Prop where
  source_lt : ∀ t, t.index < T.transitionNodes.size →
    (T.transition t).source.index < T.vertexNodes.size
  target_lt : ∀ t x, (T.transition t).target = some x → x.index < T.vertexNodes.size
  mem_outgoing_iff : ∀ v t, t ∈ (T.vertex v).outgoing ↔ T.Live t ∧ (T.transition t).source = v
  mem_incoming_iff : ∀ v t, t ∈ (T.vertex v).incoming ↔ T.Live t ∧ (T.transition t).target = some v
  nodup_outgoing : ∀ v, (T.vertex v).outgoing.Nodup
  nodup_incoming : ∀ v, (T.vertex v).incoming.Nodup
  internal : ∀ t, (T.transition t).target = none → (T.transition t).kind = .internal

theorem linked_ofName (name : String) : (Topology.ofName name).Linked := by
  have hv : ∀ v, ((Topology.ofName name).vertex v).outgoing = [] ∧
      ((Topology.ofName name).vertex v).incoming = [] := by
    rintro ⟨_ | n⟩ <;> exact ⟨rfl, rfl⟩
  have hlive : ∀ t, ¬(Topology.ofName name).Live t := fun t h => Nat.not_lt_zero _ h.1
  exact {
    source_lt := fun t h => absurd h (Nat.not_lt_zero _)
    target_lt := fun t x h => by cases h
    mem_outgoing_iff := fun v t => by simp [hv v, hlive t]
    mem_incoming_iff := fun v t => by simp [hv v, hlive t]
    nodup_outgoing := fun v => by simp [hv v]
    nodup_incoming := fun v => by simp [hv v]
    internal := fun t _ => rfl }

/-! ## Edits that concern no transition -/

/-- The two have the same transitions, listed by the same vertices. -/
structure SameLinks (T U : Topology) : Prop where
  transitionNodes : U.transitionNodes = T.transitionNodes
  size : T.vertexNodes.size ≤ U.vertexNodes.size
  outgoing : ∀ v, (U.vertex v).outgoing = (T.vertex v).outgoing
  incoming : ∀ v, (U.vertex v).incoming = (T.vertex v).incoming

namespace SameLinks

theorem refl (T : Topology) : T.SameLinks T :=
  ⟨rfl, Nat.le_refl _, fun _ => rfl, fun _ => rfl⟩

theorem trans (h : T.SameLinks U) (h' : U.SameLinks V) : T.SameLinks V where
  transitionNodes := h'.transitionNodes.trans h.transitionNodes
  size := h.size.trans h'.size
  outgoing v := (h'.outgoing v).trans (h.outgoing v)
  incoming v := (h'.incoming v).trans (h.incoming v)

theorem modifyVertex (T : Topology) (v : VertexId) {f : VertexNode → VertexNode}
    (ho : ∀ node, (f node).outgoing = node.outgoing)
    (hi : ∀ node, (f node).incoming = node.incoming) : T.SameLinks (T.modifyVertex v f) :=
  ⟨rfl, Nat.le_of_eq (Array.size_modify ..).symm, fun w => read_modifyVertex _ v w ho,
    fun w => read_modifyVertex _ v w hi⟩

theorem modifyRegion (T : Topology) (r : RegionId) (f : RegionNode → RegionNode) :
    T.SameLinks (T.modifyRegion r f) :=
  ⟨rfl, Nat.le_refl _, fun _ => rfl, fun _ => rfl⟩

/-- A vertex that is new lists nothing, as did its number before. -/
theorem pushVertex (T : Topology) {node : VertexNode} (ho : node.outgoing = [])
    (hi : node.incoming = []) :
    T.SameLinks { T with vertexNodes := T.vertexNodes.push node } := by
  have hold : ∀ w : VertexId, w.index = T.vertexNodes.size → T.vertex w = default := fun w hw => by
    unfold vertex
    rw [hw, Array.getElem?_size]
    rfl
  refine ⟨rfl, by simp, fun w => ?_, fun w => ?_⟩ <;> rw [vertex_push] <;> split
  · rw [ho, hold w ‹_›]; rfl
  · rfl
  · rw [hi, hold w ‹_›]; rfl
  · rfl

theorem addRegion (T : Topology) (name : String) (state : VertexId) :
    T.SameLinks (T.addRegion name state).2 :=
  have hpush : T.SameLinks { T with regionNodes := T.regionNodes.push ⟨name, state, [], false⟩ } :=
    ⟨rfl, Nat.le_refl _, fun _ => rfl, fun _ => rfl⟩
  hpush.trans (.modifyVertex _ state (fun _ => rfl) fun _ => rfl)

theorem regionAt (T : Topology) : ∀ place : Place, T.SameLinks (T.regionAt place).2
  | .region _ => refl T
  | .state state => by
    show T.SameLinks (T.defaultRegion state).2
    unfold Topology.defaultRegion
    split
    · exact refl T
    · exact (addRegion T defaultRegionName state).trans
        (.modifyVertex _ state (fun _ => rfl) fun _ => rfl)

theorem addVertex (T : Topology) (name : String) (place : Place) (kind : VertexKind) :
    T.SameLinks (T.addVertex name place kind).2 :=
  (regionAt T place).trans ((pushVertex _ rfl rfl).trans (modifyRegion _ _ _))

theorem linked (h : T.SameLinks U) (hT : T.Linked) : U.Linked := by
  have ht : ∀ t, U.transition t = T.transition t := fun t => by
    unfold transition; rw [h.transitionNodes]
  have hlive : ∀ t, U.Live t ↔ T.Live t := fun t => by
    unfold Live isAttachedTransition; rw [ht, h.transitionNodes]
  refine ⟨fun t hlt => ?_, fun t x hx => ?_, fun v t => ?_, fun v t => ?_, fun v => ?_,
    fun v => ?_, fun t => ?_⟩
  · rw [ht]
    exact (hT.source_lt t (h.transitionNodes ▸ hlt)).trans_le h.size
  · rw [ht] at hx
    exact (hT.target_lt t x hx).trans_le h.size
  · rw [h.outgoing, ht, hlive]
    exact hT.mem_outgoing_iff v t
  · rw [h.incoming, ht, hlive]
    exact hT.mem_incoming_iff v t
  · rw [h.outgoing]
    exact hT.nodup_outgoing v
  · rw [h.incoming]
    exact hT.nodup_incoming v
  · rw [ht]
    exact hT.internal t

end SameLinks

/-! ## Adding a transition -/

theorem outgoing_issue {node : TransitionNode} (hs : node.source.index < T.vertexNodes.size)
    (v : VertexId) : ((T.issue node).vertex v).outgoing =
      if v = node.source then (T.vertex v).outgoing ++ [⟨T.transitionNodes.size⟩]
      else (T.vertex v).outgoing :=
  (congrArg VertexNode.outgoing (vertex_modifyVertex_of_lt
    (T := { T with transitionNodes := _ }) hs v _)).trans (apply_ite ..)

theorem incoming_issue (node : TransitionNode) (v : VertexId) :
    ((T.issue node).vertex v).incoming = (T.vertex v).incoming :=
  read_modifyVertex (T := { T with transitionNodes := _ }) _ node.source v fun _ => rfl

theorem size_issue (node : TransitionNode) : (T.issue node).vertexNodes.size = T.vertexNodes.size :=
  Array.size_modify ..

section Add

variable {source : VertexId} {target : Option VertexId}

theorem addTransition_eq_issue (source : VertexId) (kind : TransitionKind) :
    (T.addTransition source none kind).2 = T.issue ⟨source, none, .internal, false⟩ := rfl

theorem addTransition_eq_modifyVertex (source x : VertexId) (kind : TransitionKind) :
    (T.addTransition source (some x) kind).2 =
      (T.issue ⟨source, some x, kind, false⟩).modifyVertex x fun n =>
        { n with incoming := n.incoming ++ [(⟨T.transitionNodes.size⟩ : TransitionId)] } := rfl

theorem transition_addTransition (source : VertexId) (target : Option VertexId)
    (kind : TransitionKind) (u : TransitionId) :
    (T.addTransition source target kind).2.transition u =
      if u.index = T.transitionNodes.size then ⟨source, target, effectiveKind target kind, false⟩
      else T.transition u := by
  cases target <;> exact getD_push ..

theorem size_addTransition (source : VertexId) (target : Option VertexId) (kind : TransitionKind) :
    (T.addTransition source target kind).2.vertexNodes.size = T.vertexNodes.size ∧
      (T.addTransition source target kind).2.transitionNodes.size = T.transitionNodes.size + 1 := by
  cases target <;> simp [addTransition, modifyVertex]

theorem outgoing_addTransition (hs : source.index < T.vertexNodes.size)
    (target : Option VertexId) (kind : TransitionKind) (v : VertexId) :
    ((T.addTransition source target kind).2.vertex v).outgoing =
      if v = source then (T.vertex v).outgoing ++ [⟨T.transitionNodes.size⟩]
      else (T.vertex v).outgoing := by
  cases target with
  | none => rw [addTransition_eq_issue, outgoing_issue hs]
  | some x =>
    rw [addTransition_eq_modifyVertex, read_modifyVertex VertexNode.outgoing x v (by simp),
      outgoing_issue hs]

theorem incoming_addTransition (ht : ∀ x ∈ target, x.index < T.vertexNodes.size)
    (source : VertexId) (kind : TransitionKind) (v : VertexId) :
    ((T.addTransition source target kind).2.vertex v).incoming =
      if target = some v then (T.vertex v).incoming ++ [⟨T.transitionNodes.size⟩]
      else (T.vertex v).incoming := by
  cases target with
  | none =>
    rw [addTransition_eq_issue, incoming_issue]
    rfl
  | some x =>
    have hlt : x.index < (T.issue ⟨source, x, kind, false⟩).vertexNodes.size :=
      (ht x rfl).trans_eq (size_issue _).symm
    rw [addTransition_eq_modifyVertex, vertex_modifyVertex_of_lt hlt,
      apply_ite VertexNode.incoming, incoming_issue]
    simp only [Option.some.injEq, eq_comm]

/-- The new transition is live, with those that were. -/
theorem live_addTransition (source : VertexId) (target : Option VertexId) (kind : TransitionKind)
    (u : TransitionId) : (T.addTransition source target kind).2.Live u ↔
      T.Live u ∨ u = ⟨T.transitionNodes.size⟩ := by
  unfold Live isAttachedTransition
  rw [transition_addTransition, (size_addTransition source target kind).2]
  rcases u with ⟨n⟩
  simp only [TransitionId.mk.injEq]
  split
  · simp [*]
  · simp only [*, or_false, and_congr_left_iff]
    omega

theorem not_live_size (T : Topology) : ¬T.Live ⟨T.transitionNodes.size⟩ :=
  fun h => Nat.lt_irrefl _ h.1

theorem mem_ite_concat {α : Type} {p : Prop} [Decidable p] {l : List α} {a b : α} :
    b ∈ (if p then l ++ [a] else l) ↔ b ∈ l ∨ p ∧ b = a := by
  split <;> simp [*]

theorem nodup_ite_concat {α : Type} {p : Prop} [Decidable p] {l : List α} {a : α} (hl : l.Nodup)
    (ha : a ∉ l) : (if p then l ++ [a] else l).Nodup := by
  split
  · simpa using List.Nodup.concat ha hl
  · exact hl

theorem Linked.addTransition (hT : T.Linked) (hs : source.index < T.vertexNodes.size)
    (ht : ∀ x ∈ target, x.index < T.vertexNodes.size) (kind : TransitionKind) :
    (T.addTransition source target kind).2.Linked := by
  have hlive := live_addTransition (T := T) source target kind
  have hout := outgoing_addTransition hs target kind
  have hin := incoming_addTransition ht source kind
  have htransition := transition_addTransition (T := T) source target kind
  obtain ⟨hvs, hts⟩ := size_addTransition (T := T) source target kind
  generalize (T.addTransition source target kind).2 = U at *
  have hnew : U.transition ⟨T.transitionNodes.size⟩ =
      ⟨source, target, effectiveKind target kind, false⟩ := (htransition _).trans (if_pos rfl)
  have hold : ∀ u, u ≠ ⟨T.transitionNodes.size⟩ → U.transition u = T.transition u := fun u hu => by
    rw [htransition, if_neg fun he => hu (congrArg TransitionId.mk he)]
  have hfresh := T.not_live_size
  -- each condition is for what is new and for what was there
  constructor
  case source_lt =>
    intro u hu
    rw [hvs]
    by_cases he : u = ⟨T.transitionNodes.size⟩
    · rw [he, hnew]
      exact hs
    · have hne : u.index ≠ T.transitionNodes.size := fun h => he (congrArg TransitionId.mk h)
      rw [hold u he]
      exact hT.source_lt u (by omega)
  case target_lt =>
    intro u x hx
    rw [hvs]
    by_cases he : u = ⟨T.transitionNodes.size⟩
    · rw [he, hnew] at hx
      exact ht x hx
    · exact hT.target_lt u x (hold u he ▸ hx)
  case mem_outgoing_iff =>
    intro v u
    rw [hout, mem_ite_concat, hT.mem_outgoing_iff, hlive]
    by_cases he : u = ⟨T.transitionNodes.size⟩
    · simp [he, hnew, hfresh, eq_comm]
    · simp [he, hold u he]
  case mem_incoming_iff =>
    intro v u
    rw [hin, mem_ite_concat, hT.mem_incoming_iff, hlive]
    by_cases he : u = ⟨T.transitionNodes.size⟩
    · simp [he, hnew, hfresh]
    · simp [he, hold u he]
  case nodup_outgoing =>
    intro v
    rw [hout]
    exact nodup_ite_concat (hT.nodup_outgoing v) fun h => hfresh ((hT.mem_outgoing_iff v _).1 h).1
  case nodup_incoming =>
    intro v
    rw [hin]
    exact nodup_ite_concat (hT.nodup_incoming v) fun h => hfresh ((hT.mem_incoming_iff v _).1 h).1
  case internal =>
    intro u hu
    by_cases he : u = ⟨T.transitionNodes.size⟩
    · rw [he, hnew] at hu ⊢
      obtain rfl : target = none := hu
      rfl
    · rw [hold u he] at hu ⊢
      exact hT.internal u hu

end Add

/-! ## Changing and removing transitions -/

theorem transition_modifyTransition_of_lt {t : TransitionId} (h : t.index < T.transitionNodes.size)
    (u : TransitionId) (f : TransitionNode → TransitionNode) :
    (T.modifyTransition t f).transition u = if u = t then f (T.transition u) else T.transition u := by
  unfold modifyTransition transition
  simp only [Array.getElem?_modify]
  by_cases hu : u = t
  · subst hu
    simp [Array.getElem?_eq_getElem h]
  · have hi : t.index ≠ u.index := fun hi => hu (by cases t; cases u; simp_all)
    simp [hi, hu]

theorem Linked.setTransitionKind (hT : T.Linked) (t : TransitionId) (kind : TransitionKind) :
    (T.setTransitionKind t kind).Linked := by
  have hsource : ∀ u, ((T.setTransitionKind t kind).transition u).source = (T.transition u).source :=
    fun u => read_modifyTransition TransitionNode.source t u fun _ => rfl
  have htarget : ∀ u, ((T.setTransitionKind t kind).transition u).target = (T.transition u).target :=
    fun u => read_modifyTransition TransitionNode.target t u fun _ => rfl
  have hsize : (T.setTransitionKind t kind).transitionNodes.size = T.transitionNodes.size :=
    Array.size_modify ..
  have hlive : ∀ u, (T.setTransitionKind t kind).Live u ↔ T.Live u := fun u => by
    unfold Live isAttachedTransition
    rw [hsize, show ((T.setTransitionKind t kind).transition u).detached = _ from
      read_modifyTransition TransitionNode.detached t u fun _ => rfl]
  refine ⟨fun u hlt => ?_, fun u x hx => ?_, fun v u => ?_, fun v u => ?_, hT.nodup_outgoing,
    hT.nodup_incoming, fun u hnone => ?_⟩
  · rw [hsource]
    exact hT.source_lt u (hsize ▸ hlt)
  · exact hT.target_lt u x (htarget u ▸ hx)
  · rw [hlive, hsource]
    exact hT.mem_outgoing_iff v u
  · rw [hlive, htarget]
    exact hT.mem_incoming_iff v u
  · rw [htarget] at hnone
    rcases transition_modifyTransition (T := T) t u fun node =>
      { node with kind := effectiveKind node.target kind } with h | ⟨-, h⟩
    · exact (congrArg TransitionNode.kind h).trans (hT.internal u hnone)
    · refine (congrArg TransitionNode.kind h).trans ?_
      show effectiveKind (T.transition u).target kind = .internal
      rw [hnone]
      rfl

/-- A change that leaves the default vertex alone may as well be made where there is none. -/
theorem vertex_modifyVertex_of_default (v w : VertexId) {f : VertexNode → VertexNode}
    (hf : f default = default) :
    (T.modifyVertex v f).vertex w = if w = v then f (T.vertex w) else T.vertex w := by
  by_cases h : v.index < T.vertexNodes.size
  · exact vertex_modifyVertex_of_lt h w f
  · have hnone : T.vertex v = default := by
      unfold vertex
      rw [Array.getElem?_eq_none (Nat.le_of_not_lt h)]
      rfl
    rw [modifyVertex_of_le (Nat.le_of_not_lt h)]
    split
    · rename_i he
      rw [he, hnone, hf]
    · rfl

section Detach

variable (t : TransitionId)

/-- The topology with a transition marked and taken out of the list of its source. -/
def retire (T : Topology) (t : TransitionId) : Topology :=
  (T.modifyTransition t fun node => { node with detached := true }).modifyVertex
    (T.transition t).source fun node => { node with outgoing := node.outgoing.filter (· ≠ t) }

theorem detachTransition_eq_retire (h : (T.transition t).target = none) :
    T.detachTransition t = T.retire t := by
  simp only [detachTransition, h, retire]

theorem detachTransition_eq_modifyVertex {x : VertexId} (h : (T.transition t).target = some x) :
    T.detachTransition t = (T.retire t).modifyVertex x fun node =>
      { node with incoming := node.incoming.filter (· ≠ t) } := by
  simp only [detachTransition, h, retire]

theorem transition_detachTransition : (T.detachTransition t).transition =
    (T.modifyTransition t fun node => { node with detached := true }).transition := by
  unfold detachTransition
  dsimp only
  split <;> rfl

theorem outgoing_detachTransition (v : VertexId) :
    ((T.detachTransition t).vertex v).outgoing = if v = (T.transition t).source then
      (T.vertex v).outgoing.filter (· ≠ t) else (T.vertex v).outgoing := by
  have hretire : ((T.retire t).vertex v).outgoing = if v = (T.transition t).source then
      (T.vertex v).outgoing.filter (· ≠ t) else (T.vertex v).outgoing :=
    (congrArg VertexNode.outgoing (vertex_modifyVertex_of_default _ v rfl)).trans (apply_ite ..)
  cases hx : (T.transition t).target with
  | none => rw [detachTransition_eq_retire t hx, hretire]
  | some x =>
    rw [detachTransition_eq_modifyVertex t hx,
      read_modifyVertex VertexNode.outgoing x v (by simp), hretire]

theorem incoming_detachTransition (v : VertexId) :
    ((T.detachTransition t).vertex v).incoming = if (T.transition t).target = some v then
      (T.vertex v).incoming.filter (· ≠ t) else (T.vertex v).incoming := by
  have hretire : ((T.retire t).vertex v).incoming = (T.vertex v).incoming :=
    read_modifyVertex (T := T.modifyTransition t _) _ _ v fun _ => rfl
  cases hx : (T.transition t).target with
  | none =>
    rw [detachTransition_eq_retire t hx, hretire]
    rfl
  | some x =>
    rw [detachTransition_eq_modifyVertex t hx, vertex_modifyVertex_of_default x v (by rfl),
      apply_ite VertexNode.incoming, hretire]
    simp only [Option.some.injEq, eq_comm]

theorem live_detachTransition (u : TransitionId) :
    (T.detachTransition t).Live u ↔ T.Live u ∧ u ≠ t := by
  unfold Live isAttachedTransition
  rw [(trims_detachTransition T t).transitions_size, transition_detachTransition]
  by_cases h : t.index < T.transitionNodes.size
  · rw [transition_modifyTransition_of_lt h]
    split <;> simp_all
  · rcases transition_modifyTransition (T := T) t u fun node => { node with detached := true }
      with hu | ⟨rfl, -⟩
    · rw [hu]
      refine ⟨fun hlive => ⟨hlive, ?_⟩, And.left⟩
      rintro rfl
      exact h hlive.1
    · simp [h]

end Detach

namespace Linked

theorem detachTransition (hT : T.Linked) (t : TransitionId) : (T.detachTransition t).Linked := by
  have htrims := trims_detachTransition T t
  have htarget : ∀ u, ((T.detachTransition t).transition u).target = (T.transition u).target :=
    fun u => by
      rw [transition_detachTransition, read_modifyTransition TransitionNode.target t u (by simp)]
  refine ⟨fun u hu => ?_, fun u x hx => ?_, fun v u => ?_, fun v u => ?_, fun v => ?_, fun v => ?_,
    fun u hu => ?_⟩
  · rw [htrims.source, htrims.vertices_size]
    exact hT.source_lt u (htrims.transitions_size ▸ hu)
  · rw [htrims.vertices_size]
    exact hT.target_lt u x (htarget u ▸ hx)
  · rw [outgoing_detachTransition, live_detachTransition, htrims.source]
    split
    · simp [hT.mem_outgoing_iff, and_right_comm]
    · rename_i hv
      have hne : (T.transition u).source = v → u ≠ t := fun hs he => hv (he ▸ hs.symm)
      rw [hT.mem_outgoing_iff]
      tauto
  · rw [incoming_detachTransition, live_detachTransition, htarget]
    split
    · simp [hT.mem_incoming_iff, and_right_comm]
    · rename_i hv
      have hne : (T.transition u).target = some v → u ≠ t := fun hs he => hv (he ▸ hs)
      rw [hT.mem_incoming_iff]
      tauto
  · rw [outgoing_detachTransition]
    split
    · exact (hT.nodup_outgoing v).filter _
    · exact hT.nodup_outgoing v
  · rw [incoming_detachTransition]
    split
    · exact (hT.nodup_incoming v).filter _
    · exact hT.nodup_incoming v
  · rw [transition_detachTransition, read_modifyTransition TransitionNode.kind t u (by simp)]
    exact hT.internal u ((htarget u).symm.trans hu)

theorem detachBareVertex (hT : T.Linked) (v : VertexId) : (T.detachBareVertex v).Linked := by
  have hfold : (((T.vertex v).outgoing ++ (T.vertex v).incoming).foldl
      Topology.detachTransition T).Linked :=
    List.foldlRecOn _ _ hT fun T hT t _ => hT.detachTransition t
  unfold Topology.detachBareVertex
  dsimp only
  refine SameLinks.linked (.modifyVertex _ v (fun _ => rfl) fun _ => rfl) ?_
  split
  · exact SameLinks.linked (.modifyRegion _ _ _) hfold
  · exact hfold

theorem detachBareRegion (hT : T.Linked) (r : RegionId) : (T.detachBareRegion r).Linked := by
  have hvertex : T.SameLinks (T.modifyVertex (T.region r).parent fun node =>
      { node with regions := node.regions.filter (· ≠ r) }) :=
    .modifyVertex T _ (fun _ => rfl) fun _ => rfl
  exact (hvertex.trans (.modifyRegion _ r _)).linked hT

theorem detachRegionBy {detach : Topology → VertexId → Topology}
    (h : ∀ {T : Topology} (v : VertexId), T.Linked → (detach T v).Linked) (hT : T.Linked)
    (r : RegionId) : (T.detachRegionBy detach r).Linked := by
  have hfold : ((T.region r).vertices.foldl detach T).Linked :=
    List.foldlRecOn _ _ hT fun T hT v _ => h v hT
  exact hfold.detachBareRegion r

/-- Removal goes down the tree, and keeps the lists right with every element that it takes. -/
theorem detachVertexWithin : ∀ (n : Nat) {T : Topology} (v : VertexId), T.Linked →
    (Topology.detachVertexWithin n T v).Linked
  | 0, _, v, hT => hT.detachBareVertex v
  | n + 1, T, v, hT => by
    have hfold : ((T.vertex v).regions.foldl
        (Topology.detachRegionBy · (Topology.detachVertexWithin n)) T).Linked :=
      List.foldlRecOn _ _ hT fun T hT r _ => detachRegionBy (detachVertexWithin n) hT r
    exact hfold.detachBareVertex v

theorem detachVertex (hT : T.Linked) (v : VertexId) : (T.detachVertex v).Linked :=
  detachVertexWithin _ v hT

theorem detachRegion (hT : T.Linked) (r : RegionId) : (T.detachRegion r).Linked :=
  detachRegionBy (detachVertexWithin _) hT r

end Linked

end Topology

end Hsm
