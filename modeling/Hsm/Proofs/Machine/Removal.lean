import Hsm.Proofs.Machine.Arena
import Mathlib.Logic.Relation

/-!
# What a removal takes away

Removing an element takes away what is reached from it through the lists of owners, its subtree,
and every transition that starts or ends in there; of everything else it makes the lists shorter
and nothing more (`Topology.Drops`). So what is in the model afterwards is what was in it before
and is not in the subtree, in the same order (`Machine.Reachable.removes_subtree`).

Removal goes down while the lists that it follows get shorter. What one child leaves of the subtree
of the next is the same but for what is gone already, which is all that the order of the children
could change (`Drops.mem_subtree_iff`).
-/

namespace Hsm

variable {σ : Type}

namespace Topology

variable {T U V : Topology} {xs ys : List Element}

/-! ## Subtrees -/

/-- The element is `a`, or it is listed by one that is reached from `a`. -/
def Reaches (T : Topology) (a e : Element) : Prop :=
  Relation.ReflTransGen (fun a c => c ∈ T.children a) a e

/-- A vertex with the regions and vertices beneath it. -/
def vertexSubtree (T : Topology) (v : VertexId) : List Element :=
  (T.verticesFrom T.vertexNodes.size v).flatMap fun w => .vertex w :: T.children (.vertex w)

def subtree (T : Topology) : Element → List Element
  | .vertex v => T.vertexSubtree v
  | .region r => .region r :: (T.region r).vertices.flatMap T.vertexSubtree

theorem vertex_mem_vertexSubtree {v w : VertexId} :
    .vertex w ∈ T.vertexSubtree v ↔ w ∈ T.verticesFrom T.vertexNodes.size v := by
  simp [vertexSubtree, children]

theorem region_mem_vertexSubtree {v : VertexId} {r : RegionId} :
    .region r ∈ T.vertexSubtree v ↔
      ∃ w ∈ T.verticesFrom T.vertexNodes.size v, r ∈ (T.vertex w).regions := by
  simp [vertexSubtree, children]

theorem mem_subtree_self (e : Element) : e ∈ T.subtree e := by
  cases e with
  | vertex v => exact vertex_mem_vertexSubtree.2 (mem_verticesFrom_self _ v)
  | region r => exact List.mem_cons_self

theorem reaches_of_mem_vertexSubtree {v : VertexId} {e : Element} (h : e ∈ T.vertexSubtree v) :
    T.Reaches (.vertex v) e := by
  have hvertex : ∀ w ∈ T.verticesFrom T.vertexNodes.size v, T.Reaches (.vertex v) (.vertex w) :=
    verticesFrom_induction (p := fun w => T.Reaches (.vertex v) (.vertex w))
      (fun u r w hr hw h => (h.tail (List.mem_map_of_mem hr)).tail (List.mem_map_of_mem hw)) _ .refl
  obtain ⟨w, hw, he⟩ := List.mem_flatMap.1 h
  rcases List.mem_cons.1 he with rfl | he
  · exact hvertex w hw
  · exact (hvertex w hw).tail he

namespace WellFormed

variable (hT : T.WellFormed)
include hT

/-- What an element of a subtree lists is in the subtree. -/
theorem mem_subtree_of_mem_children {x a c : Element} (ha : a ∈ T.subtree x)
    (hc : c ∈ T.children a) : c ∈ T.subtree x := by
  have hvertex : ∀ v : VertexId, a ∈ T.vertexSubtree v → c ∈ T.vertexSubtree v := by
    intro v ha
    cases a with
    | vertex w =>
      exact List.mem_flatMap.2 ⟨w, vertex_mem_vertexSubtree.1 ha, List.mem_cons_of_mem _ hc⟩
    | region r =>
      obtain ⟨u, hu, hr⟩ := region_mem_vertexSubtree.1 ha
      obtain ⟨w, hw, rfl⟩ := List.mem_map.1 hc
      exact vertex_mem_vertexSubtree.2
        (hT.mem_verticesFrom_of_owner hr hw _ (Nat.le_add_left _ _) hu)
  cases x with
  | vertex v => exact hvertex v ha
  | region r =>
    rcases List.mem_cons.1 ha with rfl | ha
    · obtain ⟨w, hw, rfl⟩ := List.mem_map.1 hc
      exact List.mem_cons_of_mem _ (List.mem_flatMap.2 ⟨w, hw, mem_subtree_self (.vertex w)⟩)
    · obtain ⟨v, hv, ha⟩ := List.mem_flatMap.1 ha
      exact List.mem_cons_of_mem _ (List.mem_flatMap.2 ⟨v, hv, hvertex v ha⟩)

theorem mem_subtree {x e : Element} : e ∈ T.subtree x ↔ T.Reaches x e := by
  constructor
  · intro h
    cases x with
    | vertex v => exact reaches_of_mem_vertexSubtree h
    | region r =>
      rcases List.mem_cons.1 h with rfl | h
      · exact .refl
      · obtain ⟨v, hv, h⟩ := List.mem_flatMap.1 h
        exact .head (List.mem_map_of_mem hv) (reaches_of_mem_vertexSubtree h)
  · intro h
    induction h with
    | refl => exact mem_subtree_self x
    | tail _ hc ih => exact hT.mem_subtree_of_mem_children ih hc

theorem mem_subtree_iff_children {x e : Element} :
    e ∈ T.subtree x ↔ e = x ∨ ∃ c ∈ T.children x, e ∈ T.subtree c := by
  simp only [hT.mem_subtree]
  constructor
  · intro h
    rcases Relation.ReflTransGen.cases_head h with rfl | ⟨c, hc, h⟩
    · exact .inl rfl
    · exact .inr ⟨c, hc, h⟩
  · rintro (rfl | ⟨c, hc, h⟩)
    · exact .refl
    · exact .head hc h

end WellFormed

/-! ## Elements taken away -/

/-- The transition starts or ends in one of the elements. -/
def touches (T : Topology) (xs : List Element) (t : TransitionId) : Bool :=
  .vertex (T.transition t).source ∈ xs || (T.transition t).target.any fun x => .vertex x ∈ xs

/-- `U` is `T` with the elements `xs`, and every transition that touches them, marked as removed
and taken out of all lists. -/
structure Drops (T U : Topology) (xs : List Element) : Prop where
  separator : U.separator = T.separator
  regions_size : U.regionNodes.size = T.regionNodes.size
  vertices_size : U.vertexNodes.size = T.vertexNodes.size
  transitions_size : U.transitionNodes.size = T.transitionNodes.size
  region : ∀ r, U.region r = { T.region r with
    vertices := (T.region r).vertices.filter fun v => .vertex v ∉ xs
    detached := (T.region r).detached || .region r ∈ xs }
  vertex : ∀ v, U.vertex v = { T.vertex v with
    regions := (T.vertex v).regions.filter fun r => .region r ∉ xs
    outgoing := (T.vertex v).outgoing.filter fun t => !T.touches xs t
    incoming := (T.vertex v).incoming.filter fun t => !T.touches xs t
    detached := (T.vertex v).detached || .vertex v ∈ xs }
  transition : ∀ t, U.transition t = { T.transition t with
    detached := (T.transition t).detached || T.touches xs t }

namespace Drops

theorem refl (T : Topology) : T.Drops T [] := by
  refine ⟨rfl, rfl, rfl, rfl, fun r => ?_, fun v => ?_, fun t => ?_⟩ <;> simp [touches]

theorem touches_eq (h : T.Drops U xs) : U.touches = T.touches := by
  funext ys t
  unfold touches
  rw [h.transition]

theorem touches_append (t : TransitionId) :
    T.touches (xs ++ ys) t = (T.touches xs t || T.touches ys t) := by
  unfold touches
  cases (T.transition t).target <;> simp [Bool.or_assoc, Bool.or_left_comm]

theorem trans (h : T.Drops U xs) (h' : U.Drops V ys) : T.Drops V (xs ++ ys) where
  separator := h'.separator.trans h.separator
  regions_size := h'.regions_size.trans h.regions_size
  vertices_size := h'.vertices_size.trans h.vertices_size
  transitions_size := h'.transitions_size.trans h.transitions_size
  region r := by
    rw [h'.region, h.region]
    simp [List.filter_filter, Bool.or_assoc, Bool.and_comm]
  vertex v := by
    rw [h'.vertex, h.vertex, h.touches_eq]
    simp [List.filter_filter, Bool.or_assoc, touches_append, Bool.and_comm]
  transition t := by
    rw [h'.transition, h.transition, h.touches_eq]
    simp [touches_append, Bool.or_assoc]

/-- Which elements are taken away matters, not their order. -/
theorem congr (h : T.Drops U xs) (he : ∀ e, e ∈ xs ↔ e ∈ ys) : T.Drops U ys := by
  have ht : T.touches xs = T.touches ys := by
    funext t
    unfold touches
    simp only [he]
  refine ⟨h.separator, h.regions_size, h.vertices_size, h.transitions_size, fun r => ?_,
    fun v => ?_, fun t => ?_⟩
  · rw [h.region]
    simp only [he]
  · rw [h.vertex]
    simp only [he, ht]
  · rw [h.transition, ht]

theorem mem_children_iff (h : T.Drops U xs) {a c : Element} :
    c ∈ U.children a ↔ c ∈ T.children a ∧ c ∉ xs := by
  cases a with
  | region r =>
    simp only [children, h.region, List.mem_map, List.mem_filter, decide_eq_true_eq]
    constructor
    · rintro ⟨v, ⟨hv, hx⟩, rfl⟩
      exact ⟨⟨v, hv, rfl⟩, hx⟩
    · rintro ⟨⟨v, hv, rfl⟩, hx⟩
      exact ⟨v, ⟨hv, hx⟩, rfl⟩
  | vertex v =>
    simp only [children, h.vertex, List.mem_map, List.mem_filter, decide_eq_true_eq]
    constructor
    · rintro ⟨r, ⟨hr, hx⟩, rfl⟩
      exact ⟨⟨r, hr, rfl⟩, hx⟩
    · rintro ⟨⟨r, hr, rfl⟩, hx⟩
      exact ⟨r, ⟨hr, hx⟩, rfl⟩

/-- What is reached in what is left is what was reached before, if with each element that is gone
all that it lists is gone. -/
theorem mem_subtree_iff (h : T.Drops U xs) (hT : T.WellFormed) (hU : U.WellFormed)
    (hclosed : ∀ a ∈ xs, ∀ c ∈ T.children a, c ∈ xs) {x e : Element} (he : e ∉ xs) :
    e ∈ U.subtree x ↔ e ∈ T.subtree x := by
  rw [hT.mem_subtree, hU.mem_subtree]
  constructor
  · exact Relation.ReflTransGen.mono (fun _ _ hc => (h.mem_children_iff.1 hc).1) x e
  · intro hreach
    have hor : e ∈ xs ∨ U.Reaches x e := by
      clear he
      induction hreach with
      | refl => exact .inr .refl
      | @tail a c _ hc ih =>
        by_cases hcx : c ∈ xs
        · exact .inl hcx
        · exact .inr ((ih.resolve_left fun ha => hcx (hclosed a ha c hc)).tail
            (h.mem_children_iff.2 ⟨hc, hcx⟩))
    exact hor.resolve_left he

end Drops

/-! ## One element -/

section Transitions

variable {ts : List TransitionId}

theorem vertex_detachTransition (hT : T.Linked) (t : TransitionId) (v : VertexId) :
    (T.detachTransition t).vertex v = { T.vertex v with
      outgoing := (T.vertex v).outgoing.filter (· ≠ t)
      incoming := (T.vertex v).incoming.filter (· ≠ t) } := by
  have hout : (T.transition t).source ≠ v → (T.vertex v).outgoing.filter (· ≠ t) =
      (T.vertex v).outgoing := fun hne => List.filter_eq_self.2 fun u hu =>
    decide_eq_true fun he => hne (he ▸ ((hT.mem_outgoing_iff v u).1 hu).2)
  have hin : (T.transition t).target ≠ some v → (T.vertex v).incoming.filter (· ≠ t) =
      (T.vertex v).incoming := fun hne => List.filter_eq_self.2 fun u hu =>
    decide_eq_true fun he => hne (he ▸ ((hT.mem_incoming_iff v u).1 hu).2)
  have hretire : (T.retire t).vertex v = { T.vertex v with
      outgoing := (T.vertex v).outgoing.filter (· ≠ t) } := by
    refine (vertex_modifyVertex_of_default (T := T.modifyTransition t _) _ v rfl).trans ?_
    split
    · rfl
    · rename_i hne
      rw [hout (Ne.symm hne)]
      rfl
  cases hx : (T.transition t).target with
  | none =>
    rw [detachTransition_eq_retire t hx, hretire, hin (by simp [hx])]
  | some x =>
    rw [detachTransition_eq_modifyVertex t hx, vertex_modifyVertex_of_default x v (by rfl), hretire]
    split
    · rfl
    · rename_i hne
      rw [hin (by simpa [hx] using Ne.symm hne)]

theorem regionNodes_detachTransition (t : TransitionId) :
    (T.detachTransition t).regionNodes = T.regionNodes ∧
      (T.detachTransition t).separator = T.separator := by
  unfold detachTransition
  dsimp only
  split <;> exact ⟨rfl, rfl⟩

/-- `U` is `T` with the transitions marked as removed and taken out of all lists. -/
structure Retires (T U : Topology) (ts : List TransitionId) : Prop where
  separator : U.separator = T.separator
  regionNodes : U.regionNodes = T.regionNodes
  vertices_size : U.vertexNodes.size = T.vertexNodes.size
  transitions_size : U.transitionNodes.size = T.transitionNodes.size
  vertex : ∀ v, U.vertex v = { T.vertex v with
    outgoing := (T.vertex v).outgoing.filter (· ∉ ts)
    incoming := (T.vertex v).incoming.filter (· ∉ ts) }
  transition : ∀ t, U.transition t = { T.transition t with
    detached := (T.transition t).detached || t ∈ ts }

theorem retires_detachTransition (hT : T.Linked) {t : TransitionId}
    (ht : t.index < T.transitionNodes.size) : T.Retires (T.detachTransition t) [t] where
  separator := (regionNodes_detachTransition t).2
  regionNodes := (regionNodes_detachTransition t).1
  vertices_size := (trims_detachTransition T t).vertices_size
  transitions_size := (trims_detachTransition T t).transitions_size
  vertex v := by
    rw [vertex_detachTransition hT]
    simp only [List.mem_singleton, decide_not]
  transition u := by
    rw [transition_detachTransition, transition_modifyTransition_of_lt ht]
    split <;> simp [*]

theorem Retires.trans {us : List TransitionId} (h : T.Retires U ts) (h' : U.Retires V us) :
    T.Retires V (ts ++ us) where
  separator := h'.separator.trans h.separator
  regionNodes := h'.regionNodes.trans h.regionNodes
  vertices_size := h'.vertices_size.trans h.vertices_size
  transitions_size := h'.transitions_size.trans h.transitions_size
  vertex v := by
    rw [h'.vertex, h.vertex]
    simp [List.filter_filter, Bool.and_comm]
  transition t := by
    rw [h'.transition, h.transition]
    simp [Bool.or_assoc]

theorem retires_foldl : ∀ (ts : List TransitionId) {T : Topology}, T.Linked →
    (∀ t ∈ ts, t.index < T.transitionNodes.size) → T.Retires (ts.foldl detachTransition T) ts
  | [], T, _, _ => ⟨rfl, rfl, rfl, rfl, fun v => by simp, fun t => by simp⟩
  | t :: ts, T, hT, hlt => by
    have hhead := retires_detachTransition hT (hlt t List.mem_cons_self)
    refine hhead.trans (retires_foldl ts (hT.detachTransition t) fun u hu => ?_)
    rw [hhead.transitions_size]
    exact hlt u (List.mem_cons_of_mem _ hu)

end Transitions

theorem Linked.mem_links_iff (hT : T.Linked) {v : VertexId} {t : TransitionId} (ht : T.Live t) :
    t ∈ (T.vertex v).outgoing ++ (T.vertex v).incoming ↔ T.touches [.vertex v] t := by
  rw [List.mem_append, hT.mem_outgoing_iff, hT.mem_incoming_iff]
  unfold touches
  cases (T.transition t).target <;> simp [ht]

/-- What touches a vertex other than the root was given out. -/
theorem detached_of_touches_of_not_live {v : VertexId} {t : TransitionId} (hv : v ≠ root)
    (ht : ¬T.Live t) : ((T.transition t).detached || T.touches [.vertex v] t) =
      (T.transition t).detached := by
  by_cases hlt : t.index < T.transitionNodes.size
  · have hdetached : (T.transition t).detached = true := by
      by_contra h
      exact ht ⟨hlt, by simpa [isAttachedTransition] using h⟩
    simp [hdetached]
  · have hnone : T.transition t = default := by
      unfold transition
      rw [Array.getElem?_eq_none (Nat.le_of_not_lt hlt)]
      rfl
    have hroot : root ≠ v := hv.symm
    simpa [touches, hnone, default, root] using hroot

theorem detachBareVertex_eq_withdraw {v : VertexId} {r : RegionId}
    (h : (T.vertex v).parent = some r) : T.detachBareVertex v =
      (((T.vertex v).outgoing ++ (T.vertex v).incoming).foldl detachTransition T).withdraw r v := by
  simp only [detachBareVertex, h, withdraw]

theorem drops_detachBareVertex (hT : T.Marked) (hlinks : T.Linked) {v : VertexId}
    (hv : T.Has (.vertex v)) (hne : v ≠ root) : T.Drops (T.detachBareVertex v) [.vertex v] := by
  obtain ⟨r, hp⟩ := Option.ne_none_iff_exists'.1 fun h => hne (hT.eq_root v hv h)
  have hlive : ∀ t, t ∈ (T.vertex v).outgoing ++ (T.vertex v).incoming → T.Live t := fun t ht =>
    (List.mem_append.1 ht).elim (fun h => ((hlinks.mem_outgoing_iff v t).1 h).1)
      fun h => ((hlinks.mem_incoming_iff v t).1 h).1
  have hfold := retires_foldl _ hlinks fun t ht => (hlive t ht).1
  rw [detachBareVertex_eq_withdraw hp]
  generalize ((T.vertex v).outgoing ++ (T.vertex v).incoming).foldl detachTransition T = U at *
  have hregions : U.regionNodes.size = T.regionNodes.size := congrArg Array.size hfold.regionNodes
  have hregion : ∀ s, U.region s = T.region s := fun s => by
    unfold Topology.region
    rw [hfold.regionNodes]
  obtain ⟨hvsize, hrsize⟩ := size_withdraw (T := U) r v
  refine ⟨hfold.separator, hrsize.trans hregions, hvsize.trans hfold.vertices_size,
    hfold.transitions_size, fun s => ?_, fun w => ?_, fun t => ?_⟩
  · rw [region_withdraw (hregions ▸ (hT.parent_lt v r hp).1), hregion]
    split
    · simp
    · rename_i hs
      have hnot : ∀ w ∈ (T.region s).vertices, w ≠ v := fun w hw he =>
        hs (Option.some.inj ((hT.mem_vertices s w hw).2.symm.trans (he ▸ hp)))
      simp +contextual [List.filter_eq_self.2, hnot]
  · have hout : (T.vertex w).outgoing.filter (· ∉ (T.vertex v).outgoing ++ (T.vertex v).incoming) =
        (T.vertex w).outgoing.filter fun t => !T.touches [.vertex v] t :=
      List.filter_congr fun t ht => by
        simp [hlinks.mem_links_iff ((hlinks.mem_outgoing_iff w t).1 ht).1]
    have hin : (T.vertex w).incoming.filter (· ∉ (T.vertex v).outgoing ++ (T.vertex v).incoming) =
        (T.vertex w).incoming.filter fun t => !T.touches [.vertex v] t :=
      List.filter_congr fun t ht => by
        simp [hlinks.mem_links_iff ((hlinks.mem_incoming_iff w t).1 ht).1]
    rw [vertex_withdraw (hfold.vertices_size ▸ hv), hfold.vertex, hout, hin]
    split <;> simp [*]
  · refine (hfold.transition t).trans ?_
    by_cases ht : T.Live t
    · simp [hlinks.mem_links_iff ht]
    · simp [detached_of_touches_of_not_live hne ht, mt (hlive t) ht]

theorem touches_region (r : RegionId) (t : TransitionId) : T.touches [.region r] t = false := by
  unfold touches
  cases (T.transition t).target <;> simp

theorem drops_detachBareRegion (hT : T.Marked) {r : RegionId} (hr : T.Has (.region r)) :
    T.Drops (T.detachBareRegion r) [.region r] := by
  have hparent := hT.region_parent_lt r hr
  refine ⟨rfl, Array.size_modify .., Array.size_modify .., rfl, fun s => ?_, fun v => ?_,
    fun t => ?_⟩
  · refine (region_modifyRegion_of_lt (T := T.modifyVertex _ _) hr s _).trans ?_
    show (if s = r then { T.region s with detached := true } else T.region s) = _
    split <;> simp [*]
  · refine (vertex_modifyVertex_of_lt hparent v _).trans ?_
    split
    · simp [touches_region]
    · rename_i hv
      have hnot : ∀ s ∈ (T.vertex v).regions, s ≠ r := fun s hs he =>
        hv (he ▸ (hT.mem_regions v s hs).2).symm
      simp +contextual [List.filter_eq_self.2, hnot, touches_region]
  · simp [touches_region]
    rfl

/-! ## Whole subtrees -/

/-- Detaches an element and everything it owns, vertices down to `n` levels. -/
def detachWithin (n : Nat) (T : Topology) : Element → Topology
  | .vertex v => detachVertexWithin n T v
  | .region r => T.detachRegionBy (detachVertexWithin n) r

def detachBare (T : Topology) : Element → Topology
  | .vertex v => T.detachBareVertex v
  | .region r => T.detachBareRegion r

theorem detachWithin_region (n : Nat) (T : Topology) (r : RegionId) : T.detachWithin n (.region r) =
    ((T.children (.region r)).foldl (detachWithin n) T).detachBare (.region r) := by
  simp only [children, List.foldl_map]
  rfl

theorem detachWithin_vertex (n : Nat) (T : Topology) (v : VertexId) :
    T.detachWithin (n + 1) (.vertex v) =
      ((T.children (.vertex v)).foldl (detachWithin n) T).detachBare (.vertex v) := by
  simp only [children, List.foldl_map]
  rfl

/-- The number after that of the closest vertex above a region, or the number of a vertex. -/
def level (T : Topology) : Element → Nat
  | .vertex v => v.index
  | .region r => (T.region r).parent.index + 1

/-- The element was given out and is not the root, and no more than `n` levels of vertices can be
beneath it. -/
structure Removable (T : Topology) (n : Nat) (e : Element) : Prop where
  has : T.Has e
  ne_root : e ≠ .vertex root
  bound : T.vertexNodes.size ≤ T.level e + n

theorem Drops.has_iff (h : T.Drops U xs) (e : Element) : U.Has e ↔ T.Has e := by
  cases e with
  | vertex v => simp only [Has, h.vertices_size]
  | region r => simp only [Has, h.regions_size]

theorem Drops.level_eq (h : T.Drops U xs) (e : Element) : U.level e = T.level e := by
  cases e with
  | vertex v => rfl
  | region r => simp only [level, h.region]

theorem Drops.removable (h : T.Drops U xs) {n : Nat} {e : Element} (he : T.Removable n e) :
    U.Removable n e := by
  refine ⟨(h.has_iff e).2 he.has, he.ne_root, ?_⟩
  rw [h.vertices_size, h.level_eq]
  exact he.bound

theorem WellFormed.removable_region (hT : T.WellFormed) {n : Nat} {v : VertexId} {r : RegionId}
    (hv : T.Removable (n + 1) (.vertex v)) (hr : r ∈ (T.vertex v).regions) :
    T.Removable n (.region r) := by
  obtain ⟨hlt, rfl⟩ := hT.mem_regions v r hr
  refine ⟨hlt, nofun, ?_⟩
  have hbound := hv.bound
  simp only [level] at hbound ⊢
  omega

theorem WellFormed.removable_vertex (hT : T.WellFormed) {n : Nat} {v : VertexId} {r : RegionId}
    (hr : T.Removable n (.region r)) (hv : v ∈ (T.region r).vertices) :
    T.Removable n (.vertex v) := by
  obtain ⟨hlt, hp⟩ := hT.mem_vertices r v hv
  have hparent := (hT.parent_lt v r hp).2
  refine ⟨hlt, fun he => ?_, ?_⟩
  · rw [Element.vertex.inj he, hT.root_parent] at hp
    cases hp
  · have hbound := hr.bound
    simp only [level] at hbound ⊢
    omega

theorem Marked.detachWithin (hT : T.Marked) {n : Nat} {e : Element} (he : e ≠ .vertex root) :
    (T.detachWithin n e).Marked := by
  cases e with
  | vertex v => exact hT.detachVertexWithin n fun hv => he (congrArg _ hv)
  | region r => exact hT.detachRegionBy (fun hT hv => hT.detachVertexWithin n hv) r

theorem Linked.detachWithin (hT : T.Linked) (n : Nat) (e : Element) :
    (T.detachWithin n e).Linked := by
  cases e with
  | vertex v => exact hT.detachVertexWithin n v
  | region r => exact hT.detachRegionBy (fun v hT => hT.detachVertexWithin n v) r

theorem drops_detachBare (hT : T.Marked) (hlinks : T.Linked) {e : Element} (he : T.Has e)
    (hne : e ≠ .vertex root) : T.Drops (T.detachBare e) [e] := by
  cases e with
  | vertex v => exact drops_detachBareVertex hT hlinks he fun hv => hne (congrArg _ hv)
  | region r => exact drops_detachBareRegion hT he

/-- Removal at `n` levels takes the subtree of `e` away, whatever was taken before. -/
def Clears (n : Nat) (e : Element) : Prop :=
  ∀ {T : Topology}, T.Marked → T.Linked → T.Removable n e →
    T.Drops (T.detachWithin n e) (T.subtree e)

/-- Elements that are removed one after the other are taken away with their subtrees. -/
theorem drops_foldl_detachWithin {n : Nat} : ∀ (es : List Element) {T : Topology}, T.Marked →
    T.Linked → (∀ e ∈ es, Clears n e ∧ T.Removable n e) →
      T.Drops (es.foldl (detachWithin n) T) (es.flatMap T.subtree) ∧
        (es.foldl (detachWithin n) T).Marked ∧ (es.foldl (detachWithin n) T).Linked
  | [], T, hT, hlinks, _ => ⟨.refl T, hT, hlinks⟩
  | e :: es, T, hT, hlinks, hes => by
    obtain ⟨hclears, he⟩ := hes e List.mem_cons_self
    have hhead := hclears hT hlinks he
    have hU : (T.detachWithin n e).Marked := hT.detachWithin he.ne_root
    obtain ⟨htail, hmarked, hlinked⟩ := drops_foldl_detachWithin es hU (hlinks.detachWithin n e)
      fun d hd => (hes d (List.mem_cons_of_mem _ hd)).imp_right hhead.removable
    refine ⟨(hhead.trans htail).congr fun a => ?_, hmarked, hlinked⟩
    -- what is missing from a later subtree is in the subtree that went first
    have hiff : a ∉ T.subtree e → ∀ d, a ∈ (T.detachWithin n e).subtree d ↔ a ∈ T.subtree d :=
      fun ha d => hhead.mem_subtree_iff hT.toWellFormed hU.toWellFormed
        (fun b hb c hc => hT.mem_subtree_of_mem_children hb hc) ha
    simp only [List.flatMap_cons, List.mem_append, List.mem_flatMap]
    by_cases ha : a ∈ T.subtree e
    · simp [ha]
    · simp only [ha, hiff ha]

/-- An element goes after all that it lists. -/
theorem drops_detachBare_foldl {n : Nat} {e : Element} (hT : T.Marked) (hlinks : T.Linked)
    (hchildren : ∀ c ∈ T.children e, Clears n c ∧ T.Removable n c) (he : T.Has e)
    (hne : e ≠ .vertex root) :
    T.Drops (((T.children e).foldl (detachWithin n) T).detachBare e) (T.subtree e) := by
  obtain ⟨hfold, hmarked, hlinked⟩ := drops_foldl_detachWithin (T.children e) hT hlinks hchildren
  have hbare := drops_detachBare hmarked hlinked ((hfold.has_iff e).2 he) hne
  refine (hfold.trans hbare).congr fun a => ?_
  rw [List.mem_append, List.mem_flatMap, List.mem_singleton, hT.mem_subtree_iff_children, or_comm]

theorem clears_region {n : Nat} (hvertex : ∀ v, Clears n (.vertex v)) (r : RegionId) :
    Clears n (.region r) := by
  intro T hT hlinks hr
  rw [detachWithin_region]
  refine drops_detachBare_foldl hT hlinks (fun c hc => ?_) hr.has hr.ne_root
  obtain ⟨v, hv, rfl⟩ := List.mem_map.1 hc
  exact ⟨hvertex v, hT.removable_vertex hr hv⟩

theorem clears_vertex : ∀ (n : Nat) (v : VertexId), Clears n (.vertex v)
  | 0, v => fun _ _ hv => absurd hv.has (Nat.not_lt.2 hv.bound)
  | n + 1, v => fun hT hlinks hv => by
    rw [detachWithin_vertex]
    refine drops_detachBare_foldl hT hlinks (fun c hc => ?_) hv.has hv.ne_root
    obtain ⟨r, hr, rfl⟩ := List.mem_map.1 hc
    exact ⟨clears_region (clears_vertex n) r, hT.removable_region hv hr⟩

/-- Detaches an element and everything it owns. -/
def detach (T : Topology) (e : Element) : Topology :=
  T.detachWithin T.vertexNodes.size e

theorem drops_detach (hT : T.Marked) (hlinks : T.Linked) {e : Element} (he : T.Has e)
    (hne : e ≠ .vertex root) : T.Drops (T.detach e) (T.subtree e) := by
  have hremovable : T.Removable T.vertexNodes.size e := ⟨he, hne, Nat.le_add_left _ _⟩
  cases e with
  | vertex v => exact clears_vertex _ v hT hlinks hremovable
  | region r => exact clears_region (clears_vertex _) r hT hlinks hremovable

/-! ## What is left in the model -/

/-- A list put together from parts, without some of its entries, if with an element that is left
out its part is left out. -/
theorem filter_flatMap_of_filter {α β : Type} {f g : α → List β} {p : α → Bool} {q : β → Bool}
    {l : List α} (hkept : ∀ a ∈ l, p a → g a = (f a).filter q)
    (hgone : ∀ a ∈ l, ¬p a → (f a).filter q = []) :
    (l.filter p).flatMap g = (l.flatMap f).filter q := by
  induction l with
  | nil => rfl
  | cons a l ih =>
    have ih := ih (fun b hb => hkept b (List.mem_cons_of_mem _ hb))
      fun b hb => hgone b (List.mem_cons_of_mem _ hb)
    rw [List.flatMap_cons, List.filter_append, ← ih]
    by_cases ha : p a
    · rw [List.filter_cons_of_pos ha, List.flatMap_cons, hkept a List.mem_cons_self ha]
    · rw [List.filter_cons_of_neg ha, hgone a List.mem_cons_self ha, List.nil_append]

section Walk

variable (hclosed : ∀ a ∈ xs, ∀ c ∈ T.children a, c ∈ xs)
include hclosed

theorem filter_verticesFrom_of_mem {n : Nat} {v : VertexId} (hv : .vertex v ∈ xs) :
    (T.verticesFrom n v).filter (.vertex · ∉ xs) = [] := by
  refine List.filter_eq_nil_iff.2 fun w hw => ?_
  have hmem : .vertex w ∈ xs := verticesFrom_induction (p := fun w => .vertex w ∈ xs)
    (fun u r x hr hx hu => hclosed _ (hclosed _ hu _ (List.mem_map_of_mem hr)) _
      (List.mem_map_of_mem hx)) n hv w hw
  simpa using hmem

namespace Drops

variable (h : T.Drops U xs)
include h

theorem verticesFrom_eq : ∀ (n : Nat) {v : VertexId}, .vertex v ∉ xs →
    U.verticesFrom n v = (T.verticesFrom n v).filter (.vertex · ∉ xs)
  | 0, v, hv => by simp [verticesFrom, hv]
  | n + 1, v, hv => by
    have hregion : ∀ r, (U.region r).vertices.flatMap (U.verticesFrom n) =
        ((T.region r).vertices.flatMap (T.verticesFrom n)).filter (.vertex · ∉ xs) := by
      intro r
      rw [h.region]
      refine filter_flatMap_of_filter (fun w _ hw => verticesFrom_eq n (by simpa using hw))
        fun w _ hw => filter_verticesFrom_of_mem hclosed (by simpa using hw)
    simp only [verticesFrom, h.vertex, List.filter_cons]
    rw [if_pos (by simpa using hv)]
    refine congrArg (v :: ·) (filter_flatMap_of_filter (fun r _ _ => hregion r) fun r _ hr => ?_)
    rw [← hregion r, h.region, List.flatMap_eq_nil_iff]
    intro w hw
    have hrx : .region r ∈ xs := by simpa using hr
    have hwx := hclosed _ hrx _ (List.mem_map_of_mem (List.mem_of_mem_filter hw))
    exact absurd hwx (by simpa using (List.mem_filter.1 hw).2)

theorem vertices_eq (hroot : .vertex root ∉ xs) :
    U.vertices = T.vertices.filter (.vertex · ∉ xs) := by
  unfold vertices
  rw [h.vertices_size]
  exact h.verticesFrom_eq hclosed _ hroot

theorem regions_eq (hroot : .vertex root ∉ xs) :
    U.regions = T.regions.filter (.region · ∉ xs) := by
  unfold regions
  rw [h.vertices_eq hclosed hroot]
  refine filter_flatMap_of_filter (fun v _ _ => by rw [h.vertex]) fun v _ hv => ?_
  refine List.filter_eq_nil_iff.2 fun r hr => ?_
  simpa using hclosed _ (by simpa using hv) _ (List.mem_map_of_mem hr)

theorem transitions_eq (hT : T.WellFormed) (hroot : .vertex root ∉ xs) :
    U.transitions = T.transitions.filter (!T.touches xs ·) := by
  unfold transitions
  rw [h.vertices_eq hclosed hroot]
  refine filter_flatMap_of_filter (fun v _ _ => by rw [h.vertex]) fun v _ hv => ?_
  refine List.filter_eq_nil_iff.2 fun t ht => ?_
  have hsource := (hT.mem_outgoing v t ht).2
  simp [touches, hsource, show .vertex v ∈ xs by simpa using hv]

end Drops

end Walk

theorem WellFormed.root_not_mem_subtree (hT : T.WellFormed) {x : Element} (hx : x ≠ .vertex root) :
    .vertex root ∉ T.subtree x := by
  intro h
  rcases Relation.ReflTransGen.cases_tail (hT.mem_subtree.1 h) with he | ⟨a, -, ha⟩
  · exact hx he.symm
  · have howner := hT.owner_of_mem_children ha
    rw [show T.ownership.parent (.vertex root) = (T.ownerRegion root).map _ from rfl,
      hT.ownerRegion_eq, hT.root_parent] at howner
    cases howner

end Topology

open Hsm.Topology

def Edit.remove : Element → Edit σ
  | .vertex v => .removeVertex v
  | .region r => .removeRegion r

namespace Machine

variable {M : Machine σ} {allowed : Edit σ → Prop}

/-- Removes an element and what it owns. -/
def remove (M : Machine σ) : Element → Except EditError (Machine σ)
  | .vertex v => M.removeVertex v
  | .region r => M.removeRegion r

theorem remove_of_attached {x : Element} (hne : x ≠ .vertex root) (h : M.topology.isAttached x) :
    M.remove x = .ok (M.withTopology (M.topology.detach x)) := by
  cases x with
  | vertex v =>
    have hv : v ≠ root := fun hv => hne (congrArg _ hv)
    simp only [remove, removeVertex, if_neg hv, if_pos h]
    rfl
  | region r =>
    simp only [remove, removeRegion, if_pos h]
    rfl

theorem remove_of_detached {x : Element} (hne : x ≠ .vertex root) (h : ¬M.topology.isAttached x) :
    M.remove x = .error (.alreadyRemoved (M.topology.qualifiedName x)) := by
  cases x with
  | vertex v =>
    have hv : v ≠ root := fun hv => hne (congrArg _ hv)
    simp only [remove, removeVertex, if_neg hv, if_neg h]
  | region r => simp only [remove, removeRegion, if_neg h]

/-- A removal that is refused changes nothing. -/
theorem apply_remove_of_error {x : Element} {error : EditError} (h : M.remove x = .error error) :
    (Edit.remove x).apply M = M := by
  cases x with
  | vertex v =>
    have h : M.removeVertex v = .error error := h
    simp only [Edit.remove, Edit.apply, h]
    rfl
  | region r =>
    have h : M.removeRegion r = .error error := h
    simp only [Edit.remove, Edit.apply, h]
    rfl

/-- What is attached goes with its subtree and the transitions that touch it, the rest stays as it
is and in its order; what is no longer attached, and the root, cannot be removed. -/
theorem Reachable.removes_subtree (hM : M.Reachable allowed) :
    (∀ x e, e ∈ M.topology.subtree x ↔ M.topology.Reaches x e) ∧
    (∀ x, M.topology.Has x → x ≠ .vertex root → M.topology.isAttached x →
      ∃ U, M.remove x = .ok (M.withTopology U) ∧ M.topology.Drops U (M.topology.subtree x) ∧
        U.vertices = M.topology.vertices.filter (.vertex · ∉ M.topology.subtree x) ∧
        U.regions = M.topology.regions.filter (.region · ∉ M.topology.subtree x) ∧
        U.transitions =
          M.topology.transitions.filter (!M.topology.touches (M.topology.subtree x) ·)) ∧
    (M.remove (.vertex root) = .error .cannotRemoveRoot ∧
      (Edit.remove (.vertex root)).apply M = M) ∧
    ∀ x, ¬M.topology.isAttached x →
      M.remove x = .error (.alreadyRemoved (M.topology.qualifiedName x)) ∧
        (Edit.remove x).apply M = M := by
  have hT := hM.wellFormed
  have hroot : M.remove (.vertex root) = .error .cannotRemoveRoot := by
    simp only [remove, removeVertex, if_pos]
  refine ⟨fun x e => hT.mem_subtree, fun x hx hne hattached => ?_,
    ⟨hroot, apply_remove_of_error hroot⟩, fun x hdetached => ?_⟩
  · have hdrops := drops_detach hM.marked hM.linked hx hne
    have hclosed : ∀ a ∈ M.topology.subtree x, ∀ c ∈ M.topology.children a,
        c ∈ M.topology.subtree x := fun a ha c hc => hT.mem_subtree_of_mem_children ha hc
    have hroot := hT.root_not_mem_subtree hne
    exact ⟨_, remove_of_attached hne hattached, hdrops, hdrops.vertices_eq hclosed hroot,
      hdrops.regions_eq hclosed hroot, hdrops.transitions_eq hclosed hT hroot⟩
  · have hne : x ≠ .vertex root := by
      rintro rfl
      exact hdetached (by simp [isAttached, hM.marked.root_attached])
    have herror := remove_of_detached hne hdetached
    exact ⟨herror, apply_remove_of_error herror⟩

/-- A state with two regions and a state beside it, with transitions within the first state, from
the one to the other, between the two regions, and from each of the states to itself. -/
def linkedRegions : Machine Unit := .build "m" {} [
  .addVertex "a" (.state ⟨0⟩) .state, .addVertex "b" (.state ⟨1⟩) .state,
  .addVertex "c" (.state ⟨1⟩) .state, .addRegion "q" ⟨1⟩, .addVertex "d" (.region ⟨2⟩) .state,
  .addVertex "e" (.state ⟨0⟩) .state, .addTransition ⟨2⟩ (some ⟨3⟩), .addTransition ⟨5⟩ (some ⟨4⟩),
  .addTransition ⟨3⟩ (some ⟨5⟩), .addTransition ⟨2⟩ (some ⟨4⟩), .addTransition ⟨1⟩ (some ⟨1⟩),
  .addTransition ⟨5⟩ (some ⟨5⟩)]

/-- With the state go both regions, with the first region the two states in it. -/
theorem linkedRegions_removes : linkedRegions.Reachable (fun _ => True) ∧
    (∃ U, linkedRegions.remove (.vertex ⟨1⟩) = .ok (linkedRegions.withTopology U) ∧
      linkedRegions.topology.Drops U (linkedRegions.topology.subtree (.vertex ⟨1⟩)) ∧
      U.vertices = [⟨0⟩, ⟨5⟩] ∧ U.regions = [⟨0⟩] ∧ U.transitions = [⟨5⟩]) ∧
    ∃ U, linkedRegions.remove (.region ⟨1⟩) = .ok (linkedRegions.withTopology U) ∧
      linkedRegions.topology.Drops U (linkedRegions.topology.subtree (.region ⟨1⟩)) ∧
      U.vertices = [⟨0⟩, ⟨1⟩, ⟨4⟩, ⟨5⟩] ∧ U.regions = [⟨0⟩, ⟨2⟩] ∧
      U.transitions = [⟨4⟩, ⟨1⟩, ⟨5⟩] := by
  have hM : linkedRegions.Reachable fun _ => True := .build (by decide +kernel) fun _ _ => trivial
  obtain ⟨U, hU, hdrops, hv, hr, ht⟩ :=
    hM.removes_subtree.2.1 (.vertex ⟨1⟩) (show 1 < _ by decide +kernel) (by decide)
      (by decide +kernel)
  obtain ⟨V, hV, hdrops', hv', hr', ht'⟩ :=
    hM.removes_subtree.2.1 (.region ⟨1⟩) (show 1 < _ by decide +kernel) (by decide)
      (by decide +kernel)
  refine ⟨hM, ⟨U, hU, hdrops, hv.trans ?_, hr.trans ?_, ht.trans ?_⟩,
    V, hV, hdrops', hv'.trans ?_, hr'.trans ?_, ht'.trans ?_⟩ <;> decide +kernel

end Machine

end Hsm
