import Hsm.Proofs.Machine.Extension
import Hsm.Proofs.Machine.Lives
import Hsm.Proofs.Machine.Presence

/-!
# Removal undoes addition

A vertex is added to a region, then whatever edits add beneath it, with transitions from there to
anywhere and from anywhere to there. Removing the vertex leaves the model as it was, but for
numbers that were given out meanwhile and lead to nothing (`Machine.Reachable.removal_undoes`).

While the edits go on, the model without what is new is the model before them: the lists of what is
old grow by entries that are new and by nothing else (`Topology.Grafted`). All that is new hangs on
the vertex, so the subtree that goes with it is all that is new
(`Topology.Grafted.mem_subtree_iff`).
-/

namespace Hsm

variable {σ : Type}

/-- The record without the vertices that `T` has not given out. -/
def RegionNode.upTo (T : Topology) (node : RegionNode) : RegionNode :=
  { node with vertices := node.vertices.filter fun v => v.index < T.vertexNodes.size }

/-- The record without the transitions that `T` has not given out. -/
def VertexNode.upTo (T : Topology) (node : VertexNode) : VertexNode :=
  { node with
    outgoing := node.outgoing.filter fun t => t.index < T.transitionNodes.size
    incoming := node.incoming.filter fun t => t.index < T.transitionNodes.size }

namespace Topology

variable {T U : Topology} {x : VertexId}

/-- `U` without what `T` has not given out is `T`. What is new has a new owner, but for `x`, and
transitions that are new start or end in what is new. -/
structure Grafted (T U : Topology) (x : VertexId) : Prop where
  separator : U.separator = T.separator
  regions_size : T.regionNodes.size ≤ U.regionNodes.size
  vertices_size : T.vertexNodes.size ≤ U.vertexNodes.size
  transitions_size : T.transitionNodes.size ≤ U.transitionNodes.size
  region : ∀ s, T.Has (.region s) → (U.region s).upTo T = T.region s
  vertex : ∀ v, T.Has (.vertex v) → (U.vertex v).upTo T = T.vertex v
  transition : ∀ t, t.index < T.transitionNodes.size → U.transition t = T.transition t
  attached : ∀ e, U.Has e → ¬T.Has e → U.isAttached e
  owner : ∀ e, U.Has e → ¬T.Has e → ∃ a, U.link e = some a ∧ (T.Has a → e = .vertex x)
  default_new : ∀ v, ¬T.Has (.vertex v) → ∀ s ∈ (U.vertex v).defaultRegion, ¬T.Has (.region s)
  ends : ∀ t, t.index < U.transitionNodes.size → T.transitionNodes.size ≤ t.index →
    ¬T.Has (.vertex (U.transition t).source) ∨
      ∃ y ∈ (U.transition t).target, ¬T.Has (.vertex y)

namespace WellFormed

variable (hT : T.WellFormed)
include hT

theorem region_upTo (s : RegionId) : (T.region s).upTo T = T.region s := by
  unfold RegionNode.upTo
  rw [List.filter_eq_self.2 fun v hv => decide_eq_true (hT.mem_vertices s v hv).1]

theorem vertex_upTo (hlinks : T.Linked) (v : VertexId) : (T.vertex v).upTo T = T.vertex v := by
  unfold VertexNode.upTo
  rw [List.filter_eq_self.2 fun t ht => decide_eq_true (hT.mem_outgoing v t ht).1,
    List.filter_eq_self.2 fun t ht => decide_eq_true ((hlinks.mem_incoming_iff v t).1 ht).1.1]

/-- Nothing is new yet. -/
theorem grafted (hlinks : T.Linked) (x : VertexId) : T.Grafted T x where
  separator := rfl
  regions_size := Nat.le_refl _
  vertices_size := Nat.le_refl _
  transitions_size := Nat.le_refl _
  region s _ := hT.region_upTo s
  vertex v _ := hT.vertex_upTo hlinks v
  transition _ _ := rfl
  attached _ he hnew := absurd he hnew
  owner _ he hnew := absurd he hnew
  default_new v hv s hs := by
    unfold Topology.vertex at hs
    rw [Array.getElem?_eq_none (Nat.le_of_not_lt hv)] at hs
    cases hs
  ends _ ht hnew := absurd ht (Nat.not_lt.2 hnew)

end WellFormed

namespace Grafted

variable (h : T.Grafted U x)
include h

/-! ## Additions -/

/-- A vertex may change in its transitions by new ones, and in its regions if it is new. -/
theorem modifyVertex {v : VertexId} {f : VertexNode → VertexNode}
    (hkept : T.Has (.vertex v) → ∀ node, (f node).upTo T = node.upTo T)
    (hp : ∀ node, (f node).parent = node.parent)
    (hd : ∀ node, (f node).detached = node.detached)
    (hdefault : ¬T.Has (.vertex v) → ∀ s ∈ (f (U.vertex v)).defaultRegion, ¬T.Has (.region s)) :
    T.Grafted (U.modifyVertex v f) x := by
  have hparent : ∀ w, ((U.modifyVertex v f).vertex w).parent = (U.vertex w).parent := fun w =>
    read_modifyVertex VertexNode.parent v w hp
  have hdetached : ∀ w, ((U.modifyVertex v f).vertex w).detached = (U.vertex w).detached :=
    fun w => read_modifyVertex VertexNode.detached v w hd
  have hhas : ∀ e, (U.modifyVertex v f).Has e ↔ U.Has e := fun e => by
    cases e with
    | region s => exact .rfl
    | vertex w => simp only [Has, Topology.modifyVertex, Array.size_modify]
  have hlink : (U.modifyVertex v f).link = U.link := by
    funext e
    cases e with
    | region s => rfl
    | vertex w => simp only [link, hparent]
  refine ⟨h.separator, h.regions_size, h.vertices_size.trans_eq (Array.size_modify ..).symm,
    h.transitions_size, h.region, fun w hw => ?_, h.transition, fun e he hnew => ?_,
    fun e he hnew => ?_, fun w hw s hs => ?_, h.ends⟩
  · rcases vertex_modifyVertex (T := U) v w f with hv | ⟨rfl, -, hv⟩ <;> rw [hv]
    · exact h.vertex w hw
    · rw [hkept hw, h.vertex w hw]
  · have hold := h.attached e ((hhas e).1 he) hnew
    cases e with
    | region s => exact hold
    | vertex w => simpa only [isAttached, hdetached] using hold
  · rw [hlink]
    exact h.owner e ((hhas e).1 he) hnew
  · rcases vertex_modifyVertex (T := U) v w f with hv | ⟨rfl, -, hv⟩ <;> rw [hv] at hs
    · exact h.default_new w hw s hs
    · exact hdefault hw s hs

/-- A region may change by listing new vertices. -/
theorem modifyRegion {r : RegionId} {f : RegionNode → RegionNode}
    (hkept : ∀ node, (f node).upTo T = node.upTo T) (hp : ∀ node, (f node).parent = node.parent)
    (hd : ∀ node, (f node).detached = node.detached) : T.Grafted (U.modifyRegion r f) x := by
  have hlink : (U.modifyRegion r f).link = U.link := by
    funext e
    cases e with
    | region s => simp only [link, read_modifyRegion RegionNode.parent r s hp]
    | vertex w => rfl
  have hhas : ∀ e, (U.modifyRegion r f).Has e ↔ U.Has e := fun e => by
    cases e with
    | region s => simp only [Has, Topology.modifyRegion, Array.size_modify]
    | vertex w => exact .rfl
  refine ⟨h.separator, h.regions_size.trans_eq (Array.size_modify ..).symm, h.vertices_size,
    h.transitions_size, fun s hs => ?_, h.vertex, h.transition, fun e he hnew => ?_,
    fun e he hnew => ?_, h.default_new, h.ends⟩
  · rw [read_modifyRegion (RegionNode.upTo T) r s hkept]
    exact h.region s hs
  · have hold := h.attached e ((hhas e).1 he) hnew
    cases e with
    | region s => simpa only [isAttached, read_modifyRegion RegionNode.detached r s hd] using hold
    | vertex w => exact hold
  · rw [hlink]
    exact h.owner e ((hhas e).1 he) hnew

theorem pushRegion (node : RegionNode) (hp : ¬T.Has (.vertex node.parent))
    (hd : node.detached = false) :
    T.Grafted { U with regionNodes := U.regionNodes.push node } x := by
  have hregion := region_push (T := U) node
  have hsize : (U.regionNodes.push node).size = U.regionNodes.size + 1 := Array.size_push ..
  refine ⟨h.separator, h.regions_size.trans (by simp), h.vertices_size, h.transitions_size,
    fun s hs => ?_, h.vertex, h.transition, fun e he hnew => ?_, fun e he hnew => ?_,
    h.default_new, h.ends⟩
  · rw [hregion, if_neg (Nat.ne_of_lt (Nat.lt_of_lt_of_le hs h.regions_size))]
    exact h.region s hs
  · cases e with
    | vertex w => exact h.attached (.vertex w) he hnew
    | region s =>
      have he : s.index < U.regionNodes.size + 1 := hsize ▸ he
      simp only [isAttached, hregion]
      split
      · simp [hd]
      · exact h.attached (.region s) (by simp only [Has]; omega) hnew
  · cases e with
    | vertex w => exact h.owner (.vertex w) he hnew
    | region s =>
      have he : s.index < U.regionNodes.size + 1 := hsize ▸ he
      simp only [link, hregion]
      split
      · exact ⟨_, rfl, fun ha => absurd ha hp⟩
      · exact h.owner (.region s) (by simp only [Has]; omega) hnew

theorem pushVertex {node : VertexNode} {r : RegionId} (hp : node.parent = some r)
    (hr : T.Has (.region r) → U.vertexNodes.size = x.index) (hd : node.detached = false)
    (hdefault : node.defaultRegion = none) :
    T.Grafted { U with vertexNodes := U.vertexNodes.push node } x := by
  have hvertex := vertex_push (T := U) node
  have hsize : (U.vertexNodes.push node).size = U.vertexNodes.size + 1 := Array.size_push ..
  refine ⟨h.separator, h.regions_size, h.vertices_size.trans (by simp), h.transitions_size,
    h.region, fun w hw => ?_, h.transition, fun e he hnew => ?_, fun e he hnew => ?_,
    fun w hw s hs => ?_, h.ends⟩
  · rw [hvertex, if_neg (Nat.ne_of_lt (Nat.lt_of_lt_of_le hw h.vertices_size))]
    exact h.vertex w hw
  · cases e with
    | region s => exact h.attached (.region s) he hnew
    | vertex w =>
      have he : w.index < U.vertexNodes.size + 1 := hsize ▸ he
      simp only [isAttached, hvertex]
      split
      · simp [hd]
      · exact h.attached (.vertex w) (by simp only [Has]; omega) hnew
  · cases e with
    | region s => exact h.owner (.region s) he hnew
    | vertex w =>
      have he : w.index < U.vertexNodes.size + 1 := hsize ▸ he
      simp only [link, hvertex]
      split
      · rename_i hw
        refine ⟨.region r, by rw [hp]; rfl, fun hold => ?_⟩
        have hx : w.index = x.index := hw.trans (hr hold)
        cases w
        cases x
        cases hx
        rfl
      · exact h.owner (.vertex w) (by simp only [Has]; omega) hnew
  · rw [hvertex] at hs
    split at hs
    · rw [hdefault] at hs
      cases hs
    · exact h.default_new w hw s hs

theorem pushTransition (node : TransitionNode) (hends : ¬T.Has (.vertex node.source) ∨
    ∃ y ∈ node.target, ¬T.Has (.vertex y)) :
    T.Grafted { U with transitionNodes := U.transitionNodes.push node } x := by
  have htransition := transition_push (T := U) node
  have hsize : (U.transitionNodes.push node).size = U.transitionNodes.size + 1 :=
    Array.size_push ..
  refine ⟨h.separator, h.regions_size, h.vertices_size, h.transitions_size.trans (by simp),
    h.region, h.vertex, fun t ht => ?_, h.attached, h.owner, h.default_new, fun t ht hnew => ?_⟩
  · rw [htransition, if_neg (Nat.ne_of_lt (Nat.lt_of_lt_of_le ht h.transitions_size))]
    exact h.transition t ht
  · have ht : t.index < U.transitionNodes.size + 1 := hsize ▸ ht
    rw [htransition]
    split
    · exact hends
    · exact h.ends t (by omega) hnew

/-! ## Edits -/

theorem addRegion {state : VertexId} (hs : ¬T.Has (.vertex state)) (name : String) :
    T.Grafted (U.addRegion name state).2 x :=
  (h.pushRegion ⟨name, state, [], false⟩ hs rfl).modifyVertex
    (fun hold => absurd hold hs) (fun _ => rfl) (fun _ => rfl) fun _ => h.default_new state hs

/-- The default region of a new state is new. -/
theorem defaultRegion {state : VertexId} (hs : ¬T.Has (.vertex state)) :
    T.Grafted (U.defaultRegion state).2 x ∧ ¬T.Has (.region (U.defaultRegion state).1) := by
  unfold Topology.defaultRegion
  split
  · rename_i r hr
    exact ⟨h, h.default_new state hs r (Option.filter_eq_some_iff.1 hr).1⟩
  · have hr : ¬T.Has (.region ⟨U.regionNodes.size⟩) := Nat.not_lt.2 h.regions_size
    refine ⟨(h.addRegion hs defaultRegionName).modifyVertex (fun hold => absurd hold hs)
      (fun _ => rfl) (fun _ => rfl) fun _ s he => ?_, hr⟩
    rwa [← Option.some.inj he]

theorem lodge {r : RegionId} {node : VertexNode} (hp : node.parent = some r)
    (hr : T.Has (.region r) → U.vertexNodes.size = x.index) (hd : node.detached = false)
    (hdefault : node.defaultRegion = none) : T.Grafted (U.lodge r node) x := by
  refine (h.pushVertex hp hr hd hdefault).modifyRegion (fun n => ?_) (fun _ => rfl) fun _ => rfl
  have hnew : ¬U.vertexNodes.size < T.vertexNodes.size := Nat.not_lt.2 h.vertices_size
  simp [RegionNode.upTo, hnew]

theorem addTransition {source : VertexId} {target : Option VertexId}
    (hends : ¬T.Has (.vertex source) ∨ ∃ y ∈ target, ¬T.Has (.vertex y)) (kind : TransitionKind) :
    T.Grafted (U.addTransition source target kind).2 x := by
  have hnew : ¬U.transitionNodes.size < T.transitionNodes.size := Nat.not_lt.2 h.transitions_size
  have hpushed := h.pushTransition ⟨source, target, effectiveKind target kind, false⟩ hends
  have hsource := hpushed.modifyVertex (v := source)
    (f := fun node =>
      { node with outgoing := node.outgoing ++ [(⟨U.transitionNodes.size⟩ : TransitionId)] })
    (fun _ node => by simp [VertexNode.upTo, hnew]) (fun _ => rfl) (fun _ => rfl)
    (h.default_new source)
  cases target with
  | none => exact hsource
  | some y =>
    exact hsource.modifyVertex (fun _ node => by simp [VertexNode.upTo, hnew]) (fun _ => rfl)
      (fun _ => rfl) (hsource.default_new y)

theorem setTransitionKind {t : TransitionId} (ht : T.transitionNodes.size ≤ t.index)
    (kind : TransitionKind) : T.Grafted (U.setTransitionKind t kind) x := by
  refine ⟨h.separator, h.regions_size, h.vertices_size,
    h.transitions_size.trans_eq (Array.size_modify ..).symm, h.region, h.vertex, fun u hu => ?_,
    h.attached, h.owner, h.default_new, fun u hu hnew => ?_⟩
  · rcases transition_modifyTransition (T := U) t u fun node =>
      { node with kind := effectiveKind node.target kind } with he | ⟨rfl, -⟩
    · exact he.trans (h.transition u hu)
    · exact absurd hu (Nat.not_lt.2 ht)
  · have hsource : ((U.setTransitionKind t kind).transition u).source = (U.transition u).source :=
      read_modifyTransition TransitionNode.source t u fun _ => rfl
    have htarget : ((U.setTransitionKind t kind).transition u).target = (U.transition u).target :=
      read_modifyTransition TransitionNode.target t u fun _ => rfl
    rw [hsource, htarget]
    exact h.ends u (hu.trans_eq (Array.size_modify ..)) hnew

/-! ## All that is new -/

/-- What is old has kept its owner. -/
theorem link_eq {e : Element} (he : T.Has e) : U.link e = T.link e := by
  cases e with
  | region s =>
    have hparent : (U.region s).parent = (T.region s).parent :=
      (congrArg RegionNode.parent (h.region s he) :)
    simp only [link, hparent]
  | vertex v =>
    have hparent : (U.vertex v).parent = (T.vertex v).parent :=
      (congrArg VertexNode.parent (h.vertex v he) :)
    simp only [link, hparent]

theorem has {e : Element} (he : T.Has e) : U.Has e := by
  cases e with
  | region s => exact Nat.lt_of_lt_of_le he h.regions_size
  | vertex v => exact Nat.lt_of_lt_of_le he h.vertices_size

variable (hT : T.WellFormed) (hU : U.Marked)
include hT hU

/-- What lies beneath something new is new. -/
theorem new_of_mem_subtree {a e : Element} (ha : U.Has a ∧ ¬T.Has a) (he : e ∈ U.subtree a) :
    U.Has e ∧ ¬T.Has e := by
  have hreach := hU.mem_subtree.1 he
  induction hreach with
  | refl => exact ha
  | @tail b c _ hc ih =>
    have hlink : U.link c = some b := hU.owner_eq_link ▸ hU.owner_of_mem_children hc
    refine ⟨?_, fun hold => (ih (hU.mem_subtree.2 ‹_›)).2
      (hT.has_of_link hold ((h.link_eq hold).symm.trans hlink))⟩
    cases b with
    | region r =>
      obtain ⟨v, hv, rfl⟩ := List.mem_map.1 hc
      exact (hU.mem_vertices r v hv).1
    | vertex v =>
      obtain ⟨r, hr, rfl⟩ := List.mem_map.1 hc
      exact (hU.mem_regions v r hr).1

omit hT in
/-- All that is new hangs on `x`. -/
theorem mem_subtree_of_new {e : Element} (he : U.Has e) (hnew : ¬T.Has e) :
    e ∈ U.subtree (.vertex x) := by
  induction e using U.ownership.induction with
  | hroot e hp =>
    obtain ⟨a, hlink, -⟩ := h.owner e he hnew
    cases hp.symm.trans ((congrFun hU.owner_eq_link e).trans hlink)
  | hparent e b hp ih =>
    obtain ⟨a, hlink, hold⟩ := h.owner e he hnew
    obtain rfl := Option.some.inj (hp.symm.trans ((congrFun hU.owner_eq_link e).trans hlink))
    by_cases hb : T.Has b
    · exact hold hb ▸ mem_subtree_self _
    · exact hU.mem_subtree_of_mem_children (ih (hU.has_of_link he hlink) hb)
        (hU.mem_children_of_link ⟨he, h.attached e he hnew⟩ hlink)

variable (hx : U.Has (.vertex x) ∧ ¬T.Has (.vertex x))
include hx

theorem mem_subtree_iff {e : Element} : e ∈ U.subtree (.vertex x) ↔ U.Has e ∧ ¬T.Has e :=
  ⟨h.new_of_mem_subtree hT hU hx, fun he => h.mem_subtree_of_new hU he.1 he.2⟩

variable (hlinks : T.Linked) (hlinked : U.Linked)
include hlinks hlinked

/-- The transitions that touch what is new are those that are new. -/
theorem touches_iff {t : TransitionId} (ht : t.index < U.transitionNodes.size) :
    U.touches (U.subtree (.vertex x)) t ↔ T.transitionNodes.size ≤ t.index := by
  simp only [touches, Bool.or_eq_true, decide_eq_true_eq, Option.any_eq_true,
    h.mem_subtree_iff hT hU hx]
  constructor
  · intro htouches
    by_contra hold
    have hold := Nat.lt_of_not_le hold
    rw [h.transition t hold] at htouches
    rcases htouches with hs | ⟨y, hy, ht⟩
    · exact hs.2 (hlinks.source_lt t hold)
    · exact ht.2 (hlinks.target_lt t y hy)
  · intro hnew
    rcases h.ends t ht hnew with hs | ⟨y, hy, hnew⟩
    · exact .inl ⟨hlinked.source_lt t ht, hs⟩
    · exact .inr ⟨y, hy, hlinked.target_lt t y hy, hnew⟩

/-! ## What is left when it is gone -/

theorem extends_detach : (U.detach (.vertex x)).Extends T := by
  have hdrops := drops_detach hU hlinked hx.1 fun hroot => hx.2 (hroot ▸ hT.root_lt)
  have hkept : ∀ e, T.Has e → e ∉ U.subtree (.vertex x) := fun e he hm =>
    ((h.mem_subtree_iff hT hU hx).1 hm).2 he
  have htouches : ∀ t, t.index < U.transitionNodes.size →
      (!U.touches (U.subtree (.vertex x)) t) = decide (t.index < T.transitionNodes.size) :=
    fun t ht => by
      rw [Bool.eq_iff_iff, Bool.not_eq_true', Bool.eq_false_iff,
        Ne, h.touches_iff hT hU hx hlinks hlinked ht, decide_eq_true_iff, Nat.not_le]
  refine ⟨hdrops.separator.trans h.separator, h.vertices_size.trans_eq hdrops.vertices_size.symm,
    fun s hs => ?_, fun v hv => ?_, fun t ht => ?_⟩
  · have hlist : (U.region s).vertices.filter (fun v => .vertex v ∉ U.subtree (.vertex x)) =
        (U.region s).vertices.filter fun v => v.index < T.vertexNodes.size :=
      List.filter_congr fun v hv => by
        have hhas : U.Has (.vertex v) := (hU.mem_vertices s v hv).1
        simp only [h.mem_subtree_iff hT hU hx, hhas, true_and, not_not]
        rfl
    rw [hdrops.region, hlist, ← h.region s hs]
    simp [RegionNode.upTo, hkept _ hs]
  · have hold := h.vertex v hv
    have hregions : (U.vertex v).regions.filter (fun r => .region r ∉ U.subtree (.vertex x)) =
        (U.vertex v).regions := List.filter_eq_self.2 fun r hr => decide_eq_true <|
      hkept _ (hT.mem_regions v r (congrArg VertexNode.regions hold ▸ hr)).1
    have hout : (U.vertex v).outgoing.filter (!U.touches (U.subtree (.vertex x)) ·) =
        (U.vertex v).outgoing.filter fun t => t.index < T.transitionNodes.size :=
      List.filter_congr fun t ht => htouches t (hU.mem_outgoing v t ht).1
    have hin : (U.vertex v).incoming.filter (!U.touches (U.subtree (.vertex x)) ·) =
        (U.vertex v).incoming.filter fun t => t.index < T.transitionNodes.size :=
      List.filter_congr fun t ht => htouches t ((hlinked.mem_incoming_iff v t).1 ht).1.1
    rw [hdrops.vertex, hregions, hout, hin, ← hold]
    simp [VertexNode.upTo, hkept _ hv]
  · have hgone := htouches t (ht.trans_le h.transitions_size)
    rw [hdrops.transition, h.transition t ht]
    simp_all

/-- What is new is marked as removed, so what is not removed is what was not removed before. -/
theorem present_detach (e : Element) : (U.detach (.vertex x)).Present e ↔ T.Present e := by
  have hdrops := drops_detach hU hlinked hx.1 fun hroot => hx.2 (hroot ▸ hT.root_lt)
  have hextends := h.extends_detach hT hU hx hlinks hlinked
  unfold Present
  rw [hdrops.has_iff]
  by_cases he : T.Has e
  · have hattached : (U.detach (.vertex x)).isAttached e = T.isAttached e := by
      cases e with
      | region s => simp only [isAttached, hextends.region s he]
      | vertex v => simp only [isAttached, hextends.vertex v he]
    simp only [hattached, he, h.has he]
  · have hgone : U.Has e → ¬(U.detach (.vertex x)).isAttached e := fun hhas => by
      have hm := h.mem_subtree_of_new hU hhas he
      cases e with
      | region s => simp [isAttached, hdrops.region, hm]
      | vertex v => simp [isAttached, hdrops.vertex, hm]
    simp only [he, false_and, iff_false, not_and]
    exact hgone

theorem live_detach (t : TransitionId) : (U.detach (.vertex x)).Live t ↔ T.Live t := by
  have hdrops := drops_detach hU hlinked hx.1 fun hroot => hx.2 (hroot ▸ hT.root_lt)
  have hextends := h.extends_detach hT hU hx hlinks hlinked
  unfold Live isAttachedTransition
  rw [hdrops.transitions_size]
  by_cases ht : t.index < T.transitionNodes.size
  · simp only [hextends.transition t ht, ht, ht.trans_le h.transitions_size]
  · simp only [ht, false_and, iff_false, not_and]
    intro hlt
    have hgone := (h.touches_iff hT hU hx hlinks hlinked hlt).2 (Nat.le_of_not_lt ht)
    simp [hdrops.transition, hgone]

end Grafted

end Topology

open Hsm.Topology

/-- The edit adds to `x` or beneath it, or changes a state there, or adds or changes a transition
that starts or ends there. -/
def Edit.Beneath (T : Topology) (x : VertexId) : Edit σ → Prop
  | addRegion _ state | defaultRegion state | addVertex _ (.state state) _ | modifyState state _ =>
    .vertex state ∈ T.subtree (.vertex x)
  | addVertex _ (.region r) _ => .region r ∈ T.subtree (.vertex x)
  | addTransition source target =>
    .vertex source ∈ T.subtree (.vertex x) ∨ ∃ y ∈ target, .vertex y ∈ T.subtree (.vertex x)
  | setTransitionKind t _ | modifyTransition t _ => T.touches (T.subtree (.vertex x)) t
  | _ => False

instance (T : Topology) (x : VertexId) : ∀ e : Edit σ, Decidable (e.Beneath T x)
  | .addRegion _ state | .defaultRegion state | .addVertex _ (.state state) _
  | .modifyState state _ => inferInstanceAs (Decidable (.vertex state ∈ T.subtree (.vertex x)))
  | .addVertex _ (.region r) _ => inferInstanceAs (Decidable (.region r ∈ T.subtree (.vertex x)))
  | .addTransition source target =>
    inferInstanceAs (Decidable (.vertex source ∈ T.subtree (.vertex x) ∨
      ∃ y ∈ target, .vertex y ∈ T.subtree (.vertex x)))
  | .setTransitionKind t _ | .modifyTransition t _ =>
    inferInstanceAs (Decidable (T.touches (T.subtree (.vertex x)) t = true))
  | .setSettings _ | .setSeparator _ | .removeTransition _ | .removeVertex _ | .removeRegion _ =>
    inferInstanceAs (Decidable False)

/-- Each edit is beneath `x` where it is made, after those before it. -/
def Edit.AllBeneath (x : VertexId) (M : Machine σ) : List (Edit σ) → Prop
  | [] => True
  | e :: es => e.Beneath M.topology x ∧ AllBeneath x (e.apply M) es

instance Edit.AllBeneath.decidable (x : VertexId) : ∀ (M : Machine σ) (es : List (Edit σ)),
    Decidable (AllBeneath x M es)
  | _, [] => inferInstanceAs (Decidable True)
  | M, e :: es => have := decidable x (e.apply M) es; inferInstanceAs (Decidable (_ ∧ _))

theorem Topology.size_regionAt (T : Topology) (place : Place) :
    (T.regionAt place).2.vertexNodes.size = T.vertexNodes.size ∧
      (T.regionAt place).2.transitionNodes.size = T.transitionNodes.size := by
  refine ⟨?_, congrArg Array.size (SameLinks.regionAt T place).transitionNodes⟩
  cases place with
  | region r => rfl
  | state state =>
    show (T.defaultRegion state).2.vertexNodes.size = _
    unfold Topology.defaultRegion
    split
    · rfl
    · exact (Array.size_modify ..).trans (size_addRegion (T := T) _ state).2.1

theorem Edit.behaviors_of_removes {M : Machine σ} {e : Edit σ} (h : e.removes) :
    (e.apply M).stateBehaviors = M.stateBehaviors ∧
      (e.apply M).transitionBehaviors = M.transitionBehaviors := by
  cases e with
  | removeTransition t =>
    simp only [apply, Machine.removeTransition]
    split <;> exact ⟨rfl, rfl⟩
  | removeVertex v =>
    simp only [apply, Machine.removeVertex]
    split
    · exact ⟨rfl, rfl⟩
    · split <;> exact ⟨rfl, rfl⟩
  | removeRegion r =>
    simp only [apply, Machine.removeRegion]
    split <;> exact ⟨rfl, rfl⟩
  | _ => cases h

/-- Vertices and transitions are added along with their behavior, and neither is ever dropped. -/
theorem Edit.behaviors_size {M : Machine σ} {e : Edit σ}
    (hM : M.stateBehaviors.size = M.topology.vertexNodes.size ∧
      M.transitionBehaviors.size = M.topology.transitionNodes.size) :
    (e.apply M).stateBehaviors.size = (e.apply M).topology.vertexNodes.size ∧
      (e.apply M).transitionBehaviors.size = (e.apply M).topology.transitionNodes.size := by
  by_cases hr : e.removes
  · have htrims := Edit.trims_of_removes (M := M) hr
    obtain ⟨hs, ht⟩ := Edit.behaviors_of_removes (M := M) hr
    rw [hs, ht, htrims.vertices_size, htrims.transitions_size]
    exact hM
  cases e with
  | setSettings _ | setSeparator _ => exact hM
  | addRegion name state =>
    obtain ⟨-, hvs, hts⟩ := Topology.size_addRegion (T := M.topology) name state
    exact ⟨hM.1.trans hvs.symm, hM.2.trans (congrArg Array.size hts).symm⟩
  | defaultRegion state =>
    obtain ⟨hvs, hts⟩ := M.topology.size_regionAt (.state state)
    exact ⟨hM.1.trans hvs.symm, hM.2.trans hts.symm⟩
  | addVertex name place kind =>
    obtain ⟨hvs, hts⟩ := M.topology.size_regionAt place
    refine ⟨?_, hM.2.trans hts.symm⟩
    simp [apply, Machine.addVertex, Machine.withTopology, Topology.addVertex,
      Topology.modifyRegion, hvs, hM.1]
  | addTransition source target =>
    obtain ⟨hvs, hts⟩ := Topology.size_addTransition (T := M.topology) source target .external
    refine ⟨hM.1.trans hvs.symm, ?_⟩
    simp [apply, Machine.addTransition, Machine.withTopology, hts, hM.2]
  | setTransitionKind t kind => exact ⟨hM.1, hM.2.trans (Array.size_modify ..).symm⟩
  | modifyTransition t f => exact ⟨hM.1, (Array.size_modify ..).trans hM.2⟩
  | modifyState v f => exact ⟨(Array.size_modify ..).trans hM.1, hM.2⟩
  | removeTransition _ | removeVertex _ | removeRegion _ => exact absurd rfl hr

namespace Machine

variable {M N L : Machine σ} {x : VertexId}

/-- Every vertex has its behavior and every transition has its. -/
theorem Reachable.behaviors_size {allowed : Edit σ → Prop} (hM : M.Reachable allowed) :
    M.stateBehaviors.size = M.topology.vertexNodes.size ∧
      M.transitionBehaviors.size = M.topology.transitionNodes.size := by
  induction hM with
  | ofName name settings => exact ⟨rfl, rfl⟩
  | @edit M e _ hv _ ih => exact Edit.behaviors_size ih
  | initialise _ ih => exact ih
  | draw source _ ih => exact ih

/-- `N` has what `M` has, and what was grafted onto it at `x`. -/
structure Grafted (M N : Machine σ) (x : VertexId) : Prop where
  topology : M.topology.Grafted N.topology x
  settings : N.settings = M.settings
  states_size : M.topology.vertexNodes.size ≤ N.stateBehaviors.size
  behaviors_size : M.topology.transitionNodes.size ≤ N.transitionBehaviors.size
  state : ∀ v, M.topology.Has (.vertex v) → N.stateBehavior v = M.stateBehavior v
  behavior : ∀ t, t.index < M.topology.transitionNodes.size →
    N.transitionBehavior t = M.transitionBehavior t

theorem Reachable.grafted {allowed : Edit σ → Prop} (hM : M.Reachable allowed) (x : VertexId) :
    M.Grafted M x where
  topology := hM.wellFormed.grafted hM.linked x
  settings := rfl
  states_size := hM.behaviors_size.1.ge
  behaviors_size := hM.behaviors_size.2.ge
  state _ _ := rfl
  behavior _ _ := rfl

namespace Grafted

variable (h : M.Grafted N x)
include h

/-- The structure may change where no behavior does. -/
theorem withTopology {T : Topology} (hT : M.topology.Grafted T x) :
    M.Grafted (N.withTopology T) x :=
  ⟨hT, h.settings, h.states_size, h.behaviors_size, h.state, h.behavior⟩

theorem addVertex {name : String} {place : Place} {kind : VertexKind}
    (hT : M.topology.Grafted (N.topology.addVertex name place kind).2 x) :
    M.Grafted (N.addVertex name place kind).2 x := by
  refine ⟨hT, h.settings, h.states_size.trans (by simp [Machine.addVertex]), h.behaviors_size,
    fun v hv => ?_, h.behavior⟩
  have hne : v.index ≠ N.stateBehaviors.size := Nat.ne_of_lt (Nat.lt_of_lt_of_le hv h.states_size)
  refine Eq.trans ?_ (h.state v hv)
  exact (getD_push ..).trans (if_neg hne)

theorem addTransition {source : VertexId} {target : Option VertexId}
    (hT : M.topology.Grafted (N.topology.addTransition source target .external).2 x) :
    M.Grafted (N.addTransition source target).2 x := by
  refine ⟨hT, h.settings, h.states_size, h.behaviors_size.trans (by simp [Machine.addTransition]),
    h.state, fun t ht => ?_⟩
  have hne : t.index ≠ N.transitionBehaviors.size :=
    Nat.ne_of_lt (Nat.lt_of_lt_of_le ht h.behaviors_size)
  refine Eq.trans ?_ (h.behavior t ht)
  exact (getD_push ..).trans (if_neg hne)

theorem modifyState {v : VertexId} (hv : ¬M.topology.Has (.vertex v))
    (f : StateBehavior σ → StateBehavior σ) : M.Grafted (N.modifyState v f) x := by
  refine ⟨h.topology, h.settings, h.states_size.trans_eq (Array.size_modify ..).symm,
    h.behaviors_size, fun w hw => ?_, h.behavior⟩
  have hne : v.index ≠ w.index := fun he => hv (show v.index < _ from he ▸ hw)
  refine Eq.trans ?_ (h.state w hw)
  simp only [stateBehavior, Machine.modifyState, Array.getElem?_modify, if_neg hne]

theorem modifyTransition {t : TransitionId} (ht : M.topology.transitionNodes.size ≤ t.index)
    (f : TransitionBehavior σ → TransitionBehavior σ) : M.Grafted (N.modifyTransition t f) x := by
  refine ⟨h.topology, h.settings, h.states_size,
    h.behaviors_size.trans_eq (Array.size_modify ..).symm, h.state, fun u hu => ?_⟩
  have hne : t.index ≠ u.index := fun he => absurd (he ▸ hu) (Nat.not_lt.2 ht)
  refine Eq.trans ?_ (h.behavior u hu)
  simp only [transitionBehavior, Machine.modifyTransition, Array.getElem?_modify, if_neg hne]

variable (hM : M.topology.WellFormed) (hlinks : M.topology.Linked) (hN : N.topology.Marked)
  (hlinked : N.topology.Linked)
  (hx : N.topology.Has (.vertex x) ∧ ¬M.topology.Has (.vertex x))
include hM hlinks hN hlinked hx

theorem apply {e : Edit σ} (he : e.Beneath N.topology x) : M.Grafted (e.apply N) x := by
  have hnew : ∀ {e : Element}, e ∈ N.topology.subtree (.vertex x) → ¬M.topology.Has e :=
    fun he => ((h.topology.mem_subtree_iff hM hN hx).1 he).2
  have htouches : ∀ {t : TransitionId}, N.topology.touches (N.topology.subtree (.vertex x)) t →
      M.topology.transitionNodes.size ≤ t.index := by
    intro t ht
    by_cases hlt : t.index < N.topology.transitionNodes.size
    · exact (h.topology.touches_iff hM hN hx hlinks hlinked hlt).1 ht
    · exact h.topology.transitions_size.trans (Nat.le_of_not_lt hlt)
  cases e with
  | addRegion name state => exact h.withTopology (h.topology.addRegion (hnew he) name)
  | defaultRegion state => exact h.withTopology (h.topology.defaultRegion (hnew he)).1
  | addVertex name place kind =>
    refine h.addVertex ?_
    cases place with
    | region r => exact h.topology.lodge rfl (fun hr => absurd hr (hnew he)) rfl rfl
    | state state =>
      obtain ⟨hT, hr⟩ := h.topology.defaultRegion (hnew he)
      exact hT.lodge rfl (fun hold => absurd hold hr) rfl rfl
  | addTransition source target =>
    refine h.addTransition (h.topology.addTransition ?_ .external)
    exact he.imp hnew fun ⟨y, hy, hmem⟩ => ⟨y, hy, hnew hmem⟩
  | setTransitionKind t kind =>
    exact h.withTopology (h.topology.setTransitionKind (htouches he) kind)
  | modifyTransition t f => exact h.modifyTransition (htouches he) f
  | modifyState v f => exact h.modifyState (hnew he) f
  | setSettings _ | setSeparator _ | removeTransition _ | removeVertex _ | removeRegion _ =>
    exact he.elim

end Grafted

/-- Edits beneath `x` keep grafting there. -/
theorem Reachable.grafted_edits (hM : M.Reachable fun _ => True) {r : RegionId}
    (hx : ¬M.topology.Has (.vertex x)) : ∀ (es : List (Edit σ)) {N : Machine σ},
      N.Reachable (fun _ => True) → M.Grafted N x → (N.topology.vertex x).parent = some r →
      Edit.AllValid N es → Edit.AllBeneath x N es →
        M.Grafted (es.foldl (fun N e => e.apply N) N) x ∧
          ((es.foldl (fun N e => e.apply N) N).topology.vertex x).parent = some r
  | [], _, _, h, hp, _, _ => ⟨h, hp⟩
  | e :: es, _, hN, h, hp, hvalid, hbeneath =>
    have hgrafted := h.apply hM.wellFormed hM.linked hN.marked hN.linked
      ⟨Topology.lt_size_of_parent hp, hx⟩ hbeneath.1
    grafted_edits hM hx es (.edit hN hvalid.1 trivial) hgrafted (Edit.retains_apply e x r hp)
      hvalid.2 hbeneath.2

/-- The elements and transitions of `L` that are not removed are those of `M`, with the same
records, and both models list the same, compile to the same and break the same rules. -/
structure Reinstates (L M : Machine σ) : Prop where
  present : ∀ e, L.topology.Present e ↔ M.topology.Present e
  live : ∀ t, L.topology.Live t ↔ M.topology.Live t
  vertices : L.topology.vertices = M.topology.vertices
  regions : L.topology.regions = M.topology.regions
  transitions : L.topology.transitions = M.topology.transitions
  region : ∀ r, M.topology.Has (.region r) → L.topology.region r = M.topology.region r
  vertex : ∀ v, M.topology.Has (.vertex v) → L.topology.vertex v = M.topology.vertex v
  transition : ∀ t, t.index < M.topology.transitionNodes.size →
    L.topology.transition t = M.topology.transition t
  program : L.compile = M.compile
  faults : L.draft.faults = M.draft.faults
  violations : L.violations = M.violations
  messages : L.validationMessages = M.validationMessages

theorem Grafted.reinstates (h : M.Grafted N x) (hM : M.Reachable fun _ => True)
    (hN : N.Reachable fun _ => True)
    (hx : N.topology.Has (.vertex x) ∧ ¬M.topology.Has (.vertex x)) :
    (N.withTopology (N.topology.detach (.vertex x))).Reinstates M := by
  have hT := hM.wellFormed
  have hextends := h.topology.extends_detach hT hN.marked hx hM.linked hN.linked
  have hall : (N.withTopology (N.topology.detach (.vertex x))).Extends M :=
    ⟨hextends, h.settings, h.state, h.behavior⟩
  have hdraft := hall.draft_eq hT hM.linked
  have hviolations := hall.violations_eq hT hM.linked
  exact {
    present := h.topology.present_detach hT hN.marked hx hM.linked hN.linked
    live := h.topology.live_detach hT hN.marked hx hM.linked hN.linked
    vertices := hextends.vertices_eq hT
    regions := hextends.regions_eq hT
    transitions := hextends.transitions_eq hT
    region := hextends.region
    vertex := hextends.vertex
    transition := hextends.transition
    program := congrArg Draft.program hdraft
    faults := congrArg Draft.faults hdraft
    violations := hviolations
    messages := congrArg (List.map _) hviolations }

/-- A vertex is added to a region, and then regions, vertices, behavior and transitions beneath it,
the transitions with one end there and the other anywhere. When the vertex is removed, the model is
what it was. -/
theorem Reachable.removal_undoes (hM : M.Reachable fun _ => True) {r : RegionId} {name : String}
    {kind : VertexKind} {es : List (Edit σ)}
    (hvalid : Edit.AllValid M (.addVertex name (.region r) kind :: es))
    (hbeneath : Edit.AllBeneath (M.addVertex name (.region r) kind).1
      (M.addVertex name (.region r) kind).2 es) :
    ∃ L, (es.foldl (fun N e => e.apply N) (M.addVertex name (.region r) kind).2).removeVertex
        (M.addVertex name (.region r) kind).1 = .ok L ∧ L.Reinstates M := by
  have hr : M.topology.Has (.region r) := hvalid.1.1
  have hnew : ¬M.topology.Has (.vertex ⟨M.topology.vertexNodes.size⟩) := Nat.lt_irrefl _
  have hadded : (M.addVertex name (.region r) kind).2.Reachable fun _ => True :=
    .edit (e := .addVertex name (.region r) kind) hM hvalid.1 trivial
  have hfirst : M.Grafted (M.addVertex name (.region r) kind).2 ⟨M.topology.vertexNodes.size⟩ :=
    (hM.grafted _).addVertex ((hM.wellFormed.grafted hM.linked _).lodge rfl (fun _ => rfl) rfl rfl)
  have hparent : ((M.addVertex name (.region r) kind).2.topology.vertex
      ⟨M.topology.vertexNodes.size⟩).parent = some r := by
    refine (congrArg VertexNode.parent (vertex_lodge (T := M.topology) r _ _)).trans ?_
    rw [if_pos rfl]
  obtain ⟨hgrafted, hparent⟩ := hM.grafted_edits hnew es hadded hfirst hparent hvalid.2 hbeneath
  have hN := hadded.edits es hvalid.2 fun _ _ => trivial
  have hx : (es.foldl (fun N e => e.apply N) (M.addVertex name (.region r) kind).2).topology.Has
      (.vertex ⟨M.topology.vertexNodes.size⟩) := Topology.lt_size_of_parent hparent
  have hattached := hgrafted.topology.attached _ hx hnew
  have hne : Element.vertex ⟨M.topology.vertexNodes.size⟩ ≠ .vertex root := fun he =>
    hnew (Element.vertex.inj he ▸ hM.wellFormed.root_lt)
  exact ⟨_, remove_of_attached (x := .vertex _) hne hattached,
    hgrafted.reinstates hM hN ⟨hx, hnew⟩⟩

/-- Two states of which the second ends the run, after a third was removed. -/
def stub : Machine Unit := .build "m" {} [
  .addVertex "a" (.state ⟨0⟩) .state, .addVertex "b" (.state ⟨0⟩) .state,
  .addVertex "c" (.state ⟨0⟩) .state, .addTransition ⟨1⟩ (some ⟨2⟩), .removeVertex ⟨3⟩]

/-- An initial pseudostate, a state with a state and a region of its own in it, behavior, a local
transition, and transitions from and to the states that were there before, the removed one too. -/
def sprout : List (Edit Unit) := [
  .addVertex "n" (.state ⟨4⟩) .state, .addRegion "q" ⟨5⟩, .addVertex "i" (.region ⟨2⟩) (.pseudo .initial),
  .modifyState ⟨4⟩ (fun b => { b with entry := [fun _ _ => ⟨(), [], none⟩] }),
  .addTransition ⟨4⟩ (some ⟨5⟩), .setTransitionKind ⟨1⟩ .within, .addTransition ⟨2⟩ (some ⟨5⟩),
  .addTransition ⟨5⟩ (some ⟨3⟩), .modifyTransition ⟨3⟩ fun b => { b with guard := .otherwise }]

/-- With the addition the second state has a way out. -/
theorem sprout_undone : stub.Reachable (fun _ => True) ∧
    Edit.AllValid stub (.addVertex "x" (.region ⟨0⟩) .state :: sprout) ∧
    Edit.AllBeneath ⟨4⟩ (stub.addVertex "x" (.region ⟨0⟩) .state).2 sprout ∧
    (sprout.foldl (fun N e => e.apply N)
      (stub.addVertex "x" (.region ⟨0⟩) .state).2).topology.isFinal ⟨2⟩ = false ∧
    ∃ L, (sprout.foldl (fun N e => e.apply N)
        (stub.addVertex "x" (.region ⟨0⟩) .state).2).removeVertex ⟨4⟩ = .ok L ∧
      L.Reinstates stub ∧ L.topology.isFinal ⟨2⟩ = true := by
  have hM : stub.Reachable fun _ => True := .build (by decide +kernel) fun _ _ => trivial
  have hvalid : Edit.AllValid stub (.addVertex "x" (.region ⟨0⟩) .state :: sprout) := by
    decide +kernel
  have hbeneath : Edit.AllBeneath ⟨4⟩ (stub.addVertex "x" (.region ⟨0⟩) .state).2 sprout := by
    decide +kernel
  obtain ⟨L, hL, hreinstates⟩ := hM.removal_undoes hvalid hbeneath
  refine ⟨hM, hvalid, hbeneath, by decide +kernel, L, hL, hreinstates, ?_⟩
  rw [isFinal, hreinstates.vertex ⟨2⟩ (by decide +kernel)]
  decide +kernel

end Machine

end Hsm
