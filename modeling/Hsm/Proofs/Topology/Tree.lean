import Hsm.Proofs.Forest
import Hsm.Proofs.Topology.WellFormed

/-!
# What is in the model

The vertices of a well-formed model are the root and what its regions list, level by level. They
can be walked from the root down (`WellFormed.vertices_induction`) and from what is owned up
(`WellFormed.owned_induction`), and every ancestry of one of them begins at the root.
-/

namespace Hsm

namespace Topology

variable {T : Topology}

theorem mem_regions {r : RegionId} :
    r ∈ T.regions ↔ ∃ v ∈ T.vertices, r ∈ (T.vertex v).regions :=
  List.mem_flatMap

theorem mem_transitions {t : TransitionId} :
    t ∈ T.transitions ↔ ∃ v ∈ T.vertices, t ∈ (T.vertex v).outgoing :=
  List.mem_flatMap

theorem mem_verticesFrom_self : ∀ (n : Nat) (v : VertexId), v ∈ T.verticesFrom n v
  | 0, _ => List.mem_singleton.2 rfl
  | _ + 1, _ => List.mem_cons_self

theorem mem_verticesFrom_succ {n : Nat} {v w : VertexId} :
    w ∈ T.verticesFrom (n + 1) v ↔ w = v ∨ ∃ r ∈ (T.vertex v).regions,
      ∃ x ∈ (T.region r).vertices, w ∈ T.verticesFrom n x := by
  simp only [verticesFrom, List.mem_cons, List.mem_flatMap]

theorem root_mem_vertices : root ∈ T.vertices :=
  mem_verticesFrom_self _ _

theorem verticesFrom_induction {p : VertexId → Prop}
    (hstep : ∀ v r w, r ∈ (T.vertex v).regions → w ∈ (T.region r).vertices → p v → p w) :
    ∀ (n : Nat) {v : VertexId}, p v → ∀ w ∈ T.verticesFrom n v, p w
  | 0, v, hv, w, hw => by rw [List.mem_singleton.1 hw]; exact hv
  | n + 1, v, hv, w, hw => by
    rcases mem_verticesFrom_succ.1 hw with rfl | ⟨r, hr, x, hx, hw⟩
    · exact hv
    · exact verticesFrom_induction hstep n (hstep v r x hr hx hv) w hw

theorem mem_vertexAncestry_self (v : VertexId) : v ∈ T.vertexAncestry v :=
  Forest.mem_ancestors_self (F := T.stateTree) v

theorem vertexAncestry_ne_nil (v : VertexId) : T.vertexAncestry v ≠ [] :=
  List.ne_nil_of_mem (mem_vertexAncestry_self v)

namespace WellFormed

variable (hT : T.WellFormed)
include hT

/-! ## Owners -/

theorem ownerRegion_eq (v : VertexId) : T.ownerRegion v = (T.vertex v).parent := by
  unfold ownerRegion
  cases hp : (T.vertex v).parent with
  | none => rfl
  | some r => rw [Option.filter_some, if_pos (decide_eq_true (hT.parent_lt v r hp).2)]

theorem parentState_eq {v : VertexId} {r : RegionId} (h : (T.vertex v).parent = some r) :
    T.stateTree.parent v = some (T.region r).parent := by
  show (T.ownerRegion v).map _ = _
  rw [hT.ownerRegion_eq, h]
  rfl

theorem parent_of_parentState {v u : VertexId} (h : T.stateTree.parent v = some u) :
    ∃ r, (T.vertex v).parent = some r ∧ (T.region r).parent = u := by
  obtain ⟨r, hr, hu⟩ := Option.map_eq_some_iff.1 h
  rw [hT.ownerRegion_eq] at hr
  exact ⟨r, hr, hu⟩

theorem vertexAncestry_of_parent {v : VertexId} {r : RegionId}
    (h : (T.vertex v).parent = some r) :
    T.vertexAncestry v = T.vertexAncestry (T.region r).parent ++ [v] :=
  Forest.ancestors_of_parent (hT.parentState_eq h)

theorem vertexAncestry_of_not_parent {v : VertexId} (h : (T.vertex v).parent = none) :
    T.vertexAncestry v = [v] := by
  refine Forest.ancestors_root ?_
  show (T.ownerRegion v).map _ = none
  rw [hT.ownerRegion_eq, h]
  rfl

theorem vertexAncestry_root : T.vertexAncestry root = [root] :=
  hT.vertexAncestry_of_not_parent hT.root_parent

theorem mem_vertexAncestry_of_parent {a v : VertexId} {r : RegionId}
    (h : (T.vertex v).parent = some r) :
    a ∈ T.vertexAncestry v ↔ a = v ∨ a ∈ T.vertexAncestry (T.region r).parent :=
  Forest.mem_ancestors_of_parent (hT.parentState_eq h)

theorem ancestry_vertex {v : VertexId} {r : RegionId} (h : (T.vertex v).parent = some r) :
    T.ancestry (.vertex v) = T.ancestry (.region r) ++ [.vertex v] := by
  refine Forest.ancestors_of_parent ?_
  show (T.ownerRegion v).map _ = _
  rw [hT.ownerRegion_eq, h]
  rfl

theorem ancestry_vertex_of_not_parent {v : VertexId} (h : (T.vertex v).parent = none) :
    T.ancestry (.vertex v) = [.vertex v] := by
  refine Forest.ancestors_root ?_
  show (T.ownerRegion v).map _ = none
  rw [hT.ownerRegion_eq, h]
  rfl

omit hT in
theorem ancestry_region (r : RegionId) :
    T.ancestry (.region r) = T.ancestry (.vertex (T.region r).parent) ++ [.region r] :=
  Forest.ancestors_of_parent rfl

/-! ## From the root down -/

theorem lt_size_of_mem_vertices {v : VertexId} (h : v ∈ T.vertices) :
    v.index < T.vertexNodes.size :=
  verticesFrom_induction (p := fun v => v.index < T.vertexNodes.size)
    (fun _ r w _ hw _ => (hT.mem_vertices r w hw).1) _ hT.root_lt v h

theorem mem_verticesFrom_of_owner {v : VertexId} {r : RegionId} {w : VertexId}
    (hr : r ∈ (T.vertex v).regions) (hw : w ∈ (T.region r).vertices) :
    ∀ (n : Nat) {u : VertexId}, T.vertexNodes.size ≤ u.index + n → v ∈ T.verticesFrom n u →
      w ∈ T.verticesFrom n u
  | 0, u, hn, hv => by
    obtain rfl := List.mem_singleton.1 hv
    obtain ⟨hlt, hp⟩ := hT.mem_vertices r w hw
    have h := (hT.parent_lt w r hp).2
    rw [(hT.mem_regions v r hr).2] at h
    omega
  | n + 1, u, hn, hv => by
    rcases mem_verticesFrom_succ.1 hv with rfl | ⟨s, hs, x, hx, hv⟩
    · exact mem_verticesFrom_succ.2 (.inr ⟨r, hr, w, hw, mem_verticesFrom_self _ _⟩)
    · have hp := (hT.parent_lt x s (hT.mem_vertices s x hx).2).2
      rw [(hT.mem_regions u s hs).2] at hp
      exact mem_verticesFrom_succ.2
        (.inr ⟨s, hs, x, hx, mem_verticesFrom_of_owner hr hw n (by omega) hv⟩)

theorem mem_vertices_of_owner {v : VertexId} {r : RegionId} {w : VertexId} (hv : v ∈ T.vertices)
    (hr : r ∈ (T.vertex v).regions) (hw : w ∈ (T.region r).vertices) : w ∈ T.vertices :=
  hT.mem_verticesFrom_of_owner hr hw _ (Nat.le_add_left _ _) hv

/-- What holds of the root, and of every vertex that a vertex in the model owns along with it,
holds of every vertex in the model. -/
theorem vertices_induction {p : VertexId → Prop} (hroot : p root)
    (hstep : ∀ v r w, v ∈ T.vertices → r ∈ (T.vertex v).regions → w ∈ (T.region r).vertices →
      p v → p w) : ∀ v ∈ T.vertices, p v := by
  intro v hv
  refine (verticesFrom_induction (p := fun v => v ∈ T.vertices ∧ p v) ?_ _
    ⟨root_mem_vertices, hroot⟩ v hv).2
  exact fun v r w hr hw ⟨hv, h⟩ => ⟨hT.mem_vertices_of_owner hv hr hw, hstep v r w hv hr hw h⟩

theorem eq_root_or_listed {v : VertexId} (hv : v ∈ T.vertices) :
    v = root ∨ ∃ r ∈ T.regions, (T.vertex v).parent = some r ∧ v ∈ (T.region r).vertices :=
  hT.vertices_induction (p := fun v => v = root ∨ ∃ r ∈ T.regions,
      (T.vertex v).parent = some r ∧ v ∈ (T.region r).vertices) (.inl rfl)
    (fun u r w hu hr hw _ => .inr ⟨r, Topology.mem_regions.2 ⟨u, hu, hr⟩,
      (hT.mem_vertices r w hw).2, hw⟩) v hv

theorem listed_of_parent {v : VertexId} {r : RegionId} (hv : v ∈ T.vertices)
    (hp : (T.vertex v).parent = some r) : r ∈ T.regions ∧ v ∈ (T.region r).vertices := by
  rcases hT.eq_root_or_listed hv with rfl | ⟨s, hs, hps, hm⟩
  · rw [hT.root_parent] at hp; cases hp
  · obtain rfl : s = r := Option.some.inj (hps.symm.trans hp)
    exact ⟨hs, hm⟩

theorem owner_of_mem_regions {r : RegionId} (h : r ∈ T.regions) :
    (T.region r).parent ∈ T.vertices ∧ r ∈ (T.vertex (T.region r).parent).regions := by
  obtain ⟨v, hv, hr⟩ := Topology.mem_regions.1 h
  rw [(hT.mem_regions v r hr).2]
  exact ⟨hv, hr⟩

theorem mem_vertices_of_region {r : RegionId} {v : VertexId} (hr : r ∈ T.regions)
    (hv : v ∈ (T.region r).vertices) : v ∈ T.vertices :=
  have h := hT.owner_of_mem_regions hr
  hT.mem_vertices_of_owner h.1 h.2 hv

theorem source_of_mem_transitions {t : TransitionId} (h : t ∈ T.transitions) :
    (T.transition t).source ∈ T.vertices ∧
      t ∈ (T.vertex (T.transition t).source).outgoing := by
  obtain ⟨v, hv, ht⟩ := Topology.mem_transitions.1 h
  rw [(hT.mem_outgoing v t ht).2]
  exact ⟨hv, ht⟩

theorem isState_owner {r : RegionId} (h : r ∈ T.regions) : T.isState (T.region r).parent :=
  hT.isState_of_regions _ (List.ne_nil_of_mem (hT.owner_of_mem_regions h).2)

theorem root_mem_vertexAncestry {v : VertexId} (hv : v ∈ T.vertices) :
    root ∈ T.vertexAncestry v :=
  hT.vertices_induction (p := fun v => root ∈ T.vertexAncestry v)
    (Forest.mem_ancestors_self (F := T.stateTree) _) (fun u r w _ hr hw ih => by
      rw [hT.mem_vertexAncestry_of_parent (hT.mem_vertices r w hw).2, (hT.mem_regions u r hr).2]
      exact .inr ih) v hv

theorem root_mem_ancestry {v : VertexId} (hv : v ∈ T.vertices) :
    .vertex root ∈ T.ancestry (.vertex v) :=
  hT.vertices_induction (p := fun v => .vertex root ∈ T.ancestry (.vertex v))
    (Forest.mem_ancestors_self (F := T.ownership) _) (fun u r w _ hr hw ih => by
      rw [hT.ancestry_vertex (hT.mem_vertices r w hw).2, ancestry_region, (hT.mem_regions u r hr).2]
      exact List.mem_append_left _ (List.mem_append_left _ ih)) v hv

theorem mem_vertices_of_mem_vertexAncestry {a v : VertexId} (hv : v ∈ T.vertices)
    (ha : a ∈ T.vertexAncestry v) : a ∈ T.vertices := by
  refine Forest.mem_ancestors_induction (F := T.stateTree) (p := (· ∈ T.vertices)) hv ?_ a ha
  intro v u hp hv
  obtain ⟨r, hr, rfl⟩ := hT.parent_of_parentState hp
  exact (hT.owner_of_mem_regions (hT.listed_of_parent hv hr).1).1

theorem isState_of_mem_vertexAncestry {a v : VertexId} (hv : v ∈ T.vertices)
    (ha : a ∈ T.vertexAncestry v) (hne : a ≠ v) : T.isState a := by
  cases hp : (T.vertex v).parent with
  | none =>
    rw [hT.vertexAncestry_of_not_parent hp] at ha
    exact absurd (List.mem_singleton.1 ha) hne
  | some r =>
    have hr := (hT.listed_of_parent hv hp).1
    rcases (hT.mem_vertexAncestry_of_parent hp).1 ha with h | h
    · exact absurd h hne
    · by_cases hu : a = (T.region r).parent
      · rw [hu]; exact hT.isState_owner hr
      · have hlt : (T.region r).parent.index < v.index := (hT.parent_lt v r hp).2
        exact isState_of_mem_vertexAncestry (hT.owner_of_mem_regions hr).1 h hu
termination_by v.index

/-! ## From what is owned up -/

/-- What holds of a vertex in the model as soon as it holds of all that it owns holds of every
vertex in the model. -/
theorem owned_induction {p : VertexId → Prop}
    (hstep : ∀ v ∈ T.vertices,
      (∀ r ∈ (T.vertex v).regions, ∀ w ∈ (T.region r).vertices, p w) → p v) :
    ∀ v ∈ T.vertices, p v := by
  suffices h : ∀ (n : Nat) (v : VertexId), T.vertexNodes.size ≤ v.index + n → v ∈ T.vertices → p v
    from fun v => h T.vertexNodes.size v (Nat.le_add_left _ _)
  intro n
  induction n with
  | zero => exact fun v hn hv => absurd (hT.lt_size_of_mem_vertices hv) (Nat.not_lt.2 hn)
  | succ n ih =>
    refine fun v hn hv => hstep v hv fun r hr w hw => ?_
    have hp := (hT.parent_lt w r (hT.mem_vertices r w hw).2).2
    rw [(hT.mem_regions v r hr).2] at hp
    exact ih w (by omega) (hT.mem_vertices_of_owner hv hr hw)

end WellFormed

/-! ## Elements -/

/-- What an element lists as its own. -/
def children (T : Topology) : Element → List Element
  | .region r => (T.region r).vertices.map .vertex
  | .vertex v => (T.vertex v).regions.map .region

/-- The element is in the model. -/
def Listed (T : Topology) : Element → Prop
  | .region r => r ∈ T.regions
  | .vertex v => v ∈ T.vertices

/-- The element is in the model, and it is `a` or `a` is above it. -/
def Beneath (T : Topology) (a e : Element) : Prop :=
  T.Listed e ∧ a ∈ T.ancestry e

theorem beneath_self {e : Element} (h : T.Listed e) : T.Beneath e e :=
  ⟨h, Forest.mem_ancestors_self (F := T.ownership) e⟩

namespace WellFormed

variable (hT : T.WellFormed)
include hT

theorem owner_of_mem_children {a c : Element} (h : c ∈ T.children a) :
    T.ownership.parent c = some a := by
  cases a with
  | region r =>
    obtain ⟨v, hv, rfl⟩ := List.mem_map.1 h
    show (T.ownerRegion v).map _ = _
    rw [hT.ownerRegion_eq, (hT.mem_vertices r v hv).2]
    rfl
  | vertex v =>
    obtain ⟨r, hr, rfl⟩ := List.mem_map.1 h
    show some (Element.vertex (T.region r).parent) = _
    rw [(hT.mem_regions v r hr).2]

theorem ancestry_of_child {a c : Element} (h : c ∈ T.children a) :
    T.ancestry c = T.ancestry a ++ [c] :=
  Forest.ancestors_of_parent (F := T.ownership) (hT.owner_of_mem_children h)

theorem nodup_children (a : Element) : (T.children a).Nodup := by
  cases a with
  | region r =>
    exact List.Pairwise.map _ (fun _ _ h he => h (Element.vertex.inj he)) (hT.nodup_vertices r)
  | vertex v =>
    exact List.Pairwise.map _ (fun _ _ h he => h (Element.region.inj he)) (hT.nodup_regions v)

theorem listed_of_mem_children {a c : Element} (ha : T.Listed a) (h : c ∈ T.children a) :
    T.Listed c := by
  cases a with
  | region r =>
    obtain ⟨v, hv, rfl⟩ := List.mem_map.1 h
    exact hT.mem_vertices_of_region ha hv
  | vertex v =>
    obtain ⟨r, hr, rfl⟩ := List.mem_map.1 h
    exact Topology.mem_regions.2 ⟨v, ha, hr⟩

theorem eq_root_or_child {e : Element} (h : T.Listed e) :
    e = .vertex root ∨ ∃ a, T.Listed a ∧ e ∈ T.children a := by
  cases e with
  | region r =>
    obtain ⟨hv, hr⟩ := hT.owner_of_mem_regions h
    exact .inr ⟨.vertex (T.region r).parent, hv, List.mem_map.2 ⟨r, hr, rfl⟩⟩
  | vertex v =>
    rcases hT.eq_root_or_listed h with rfl | ⟨r, hr, -, hv⟩
    · exact .inl rfl
    · exact .inr ⟨.region r, hr, List.mem_map.2 ⟨v, hv, rfl⟩⟩

theorem beneath_of_child {a c e : Element} (hc : c ∈ T.children a) (h : T.Beneath c e) :
    T.Beneath a e := by
  refine ⟨h.1, Forest.mem_ancestors_trans ?_ h.2⟩
  rw [Forest.mem_ancestors_of_parent (F := T.ownership) (hT.owner_of_mem_children hc)]
  exact .inr (Forest.mem_ancestors_self _)

theorem not_beneath_child {a c : Element} (hc : c ∈ T.children a) : ¬T.Beneath c a := fun h =>
  absurd rfl (Forest.not_mem_ancestors_of_parent (F := T.ownership)
    (hT.owner_of_mem_children hc) h.2)

/-- What two children of one element have in common is all the same child's. -/
theorem child_unique {a c d e : Element} (hc : c ∈ T.children a) (hd : d ∈ T.children a)
    (hce : T.Beneath c e) (hde : T.Beneath d e) : c = d :=
  Forest.eq_of_parent_of_mem (F := T.ownership) (hT.owner_of_mem_children hc)
    (hT.owner_of_mem_children hd) hce.2 hde.2

/-- What holds of the root, and of every child of an element in the model along with it, holds of
every element in the model. -/
theorem listed_induction {p : Element → Prop} (hroot : p (.vertex root))
    (hchild : ∀ a c, T.Listed a → c ∈ T.children a → p a → p c) : ∀ e, T.Listed e → p e := by
  intro e
  induction e using T.ownership.induction with
  | hroot e hp =>
    intro he
    rcases hT.eq_root_or_child he with rfl | ⟨a, -, hc⟩
    · exact hroot
    · cases hp.symm.trans (hT.owner_of_mem_children hc)
  | hparent e a hp ih =>
    intro he
    rcases hT.eq_root_or_child he with rfl | ⟨b, hb, hc⟩
    · exact hroot
    · obtain rfl := Option.some.inj (hp.symm.trans (hT.owner_of_mem_children hc))
      exact hchild a e hb hc (ih hb)

theorem beneath_cases {a e : Element} (h : T.Beneath a e) :
    e = a ∨ ∃ c ∈ T.children a, T.Beneath c e := by
  refine hT.listed_induction (p := fun e => a ∈ T.ancestry e → e = a ∨
    ∃ c ∈ T.children a, T.Beneath c e) (fun ha => ?_) (fun b e hb he ih ha => ?_) e h.1 h.2
  · rw [hT.ancestry_vertex_of_not_parent hT.root_parent] at ha
    exact .inl (List.mem_singleton.1 ha).symm
  · have hp := hT.owner_of_mem_children he
    rcases (Forest.mem_ancestors_of_parent hp).1 ha with ha | ha
    · exact .inl ha.symm
    · have hlisted := hT.listed_of_mem_children hb he
      rcases ih ha with rfl | ⟨c, hc, hcb⟩
      · exact .inr ⟨e, he, beneath_self hlisted⟩
      · exact .inr ⟨c, hc, hlisted, Forest.mem_ancestors_trans hcb.2
          ((Forest.mem_ancestors_of_parent hp).2 (.inr (Forest.mem_ancestors_self _)))⟩

/-- What holds of an element in the model as soon as it holds of its children holds of every
element in the model. -/
theorem children_induction {p : Element → Prop}
    (hstep : ∀ e, T.Listed e → (∀ c ∈ T.children e, p c) → p e) : ∀ e, T.Listed e → p e := by
  have hv : ∀ v ∈ T.vertices, p (.vertex v) := hT.owned_induction fun v hv ih =>
    hstep _ hv fun c hc => by
      have hlisted := hT.listed_of_mem_children (a := .vertex v) hv hc
      obtain ⟨r, hr, rfl⟩ := List.mem_map.1 hc
      refine hstep _ hlisted fun d hd => ?_
      obtain ⟨w, hw, rfl⟩ := List.mem_map.1 hd
      exact ih r hr w hw
  intro e he
  cases e with
  | vertex v => exact hv v he
  | region r =>
    refine hstep _ he fun c hc => ?_
    obtain ⟨w, hw, rfl⟩ := List.mem_map.1 hc
    exact hv w (hT.mem_vertices_of_region he hw)

theorem beneath_root {e : Element} (h : T.Listed e) : T.Beneath (.vertex root) e := by
  refine ⟨h, ?_⟩
  cases e with
  | region r =>
    rw [ancestry_region]
    exact List.mem_append_left _ (hT.root_mem_ancestry (hT.owner_of_mem_regions h).1)
  | vertex v => exact hT.root_mem_ancestry h

/-- The vertices above a vertex, with no regard to the regions between them. -/
theorem vertex_mem_ancestry (a v : VertexId) :
    .vertex a ∈ T.ancestry (.vertex v) ↔ a ∈ T.vertexAncestry v := by
  cases hp : (T.vertex v).parent with
  | none =>
    rw [hT.ancestry_vertex_of_not_parent hp, hT.vertexAncestry_of_not_parent hp]
    simp
  | some r =>
    have hlt := (hT.parent_lt v r hp).2
    have ih := vertex_mem_ancestry a (T.region r).parent
    rw [hT.ancestry_vertex hp, ancestry_region, hT.vertexAncestry_of_parent hp]
    simp [ih]
termination_by v.index

/-- The regions above a vertex are those that the vertices on its ancestry lie in. -/
theorem region_mem_ancestry (s : RegionId) (v : VertexId) :
    .region s ∈ T.ancestry (.vertex v) ↔ ∃ w ∈ T.vertexAncestry v, (T.vertex w).parent = some s := by
  cases hp : (T.vertex v).parent with
  | none =>
    rw [hT.ancestry_vertex_of_not_parent hp, hT.vertexAncestry_of_not_parent hp]
    simp [hp]
  | some r =>
    have hlt := (hT.parent_lt v r hp).2
    have ih := region_mem_ancestry s (T.region r).parent
    rw [hT.ancestry_vertex hp, ancestry_region, hT.vertexAncestry_of_parent hp]
    simp only [List.mem_append, List.mem_singleton, ih, Element.region.injEq, reduceCtorEq,
      or_false]
    constructor
    · rintro (⟨w, hw, hs⟩ | rfl)
      · exact ⟨w, .inl hw, hs⟩
      · exact ⟨v, .inr rfl, hp⟩
    · rintro ⟨w, hw | rfl, hs⟩
      · exact .inl ⟨w, hw, hs⟩
      · exact .inr (Option.some.inj (hs.symm.trans hp))
termination_by v.index

end WellFormed

/-! ## Ends of ancestries -/

theorem eq_of_suffix_singleton {a x : VertexId} (h : [a] <:+ T.vertexAncestry x) : a = x := by
  obtain ⟨above, h⟩ := h
  have hlast := Forest.getLast?_ancestors (F := T.stateTree) x
  rw [← show _ = T.stateTree.ancestors x from h, List.getLast?_concat] at hlast
  exact Option.some.inj hlast

/-- The vertices of an ancestry follow each other by way of one region each. -/
theorem WellFormed.region_of_suffix (hT : T.WellFormed) {a w x : VertexId} {rest : List VertexId}
    (hx : x ∈ T.vertices) (h : a :: w :: rest <:+ T.vertexAncestry x) :
    ∃ r ∈ (T.vertex a).regions, (T.vertex w).parent = some r ∧ (T.region r).parent = a := by
  have hchain := (Forest.isChain_ancestors (F := T.stateTree) x).suffix h
  obtain ⟨r, hr, ha⟩ := hT.parent_of_parentState (List.isChain_cons_cons.1 hchain).1
  have hw := hT.mem_vertices_of_mem_vertexAncestry hx (h.subset (List.mem_cons_of_mem _
    List.mem_cons_self))
  exact ⟨r, ha ▸ (hT.owner_of_mem_regions (hT.listed_of_parent hw hr).1).2, hr, ha⟩

/-! ## Looking inside regions -/

theorem regionInitial_mem {r : RegionId} {v : VertexId} (h : T.regionInitial r = some v) :
    v ∈ (T.region r).vertices := by
  unfold regionInitial at h
  dsimp only at h
  split at h
  · rename_i w hw
    obtain rfl : w = v := Option.some.inj h
    exact List.mem_reverse.1 (List.mem_of_find?_eq_some hw)
  · split at h
    · rename_i only ho
      obtain rfl : only = v := Option.some.inj h
      rw [ho]
      exact List.mem_singleton.2 rfl
    · cases h

/-- The entry point of a region is an initial or history pseudostate, or all that is in it. -/
theorem regionInitial_cases {r : RegionId} {v : VertexId} (h : T.regionInitial r = some v) :
    (∃ k, T.pseudoKind? v = some k ∧ k.isInitial) ∨ (T.region r).vertices = [v] := by
  unfold regionInitial at h
  dsimp only at h
  split at h
  · rename_i w hw
    obtain rfl : w = v := Option.some.inj h
    have hk := List.find?_some hw
    cases hp : T.pseudoKind? w with
    | none => rw [hp] at hk; cases hk
    | some k => rw [hp] at hk; exact .inl ⟨k, rfl, hk⟩
  · split at h
    · rename_i only ho
      obtain rfl : only = v := Option.some.inj h
      exact .inr ho
    · cases h

theorem findState_eq_some {r : RegionId} {name : String} {v : VertexId}
    (h : T.findState r name = some v) :
    v ∈ (T.region r).vertices ∧ T.isState v ∧ (T.vertex v).name = name := by
  unfold findState at h
  have hp := List.find?_some h
  rw [Bool.and_eq_true, decide_eq_true_iff] at hp
  exact ⟨List.mem_of_find?_eq_some h, hp⟩

theorem isState_iff_pseudoKind? {v : VertexId} : T.isState v ↔ T.pseudoKind? v = none := by
  unfold isState pseudoKind?
  cases T.kind v <;> simp only [VertexKind.isState, VertexKind.pseudoKind?, reduceCtorEq,
    Bool.false_eq_true]

theorem not_isState_of_pseudoKind? {v : VertexId} {k : PseudoKind} (h : T.pseudoKind? v = some k) :
    ¬T.isState v := fun hs =>
  Option.some_ne_none k (h.symm.trans (isState_iff_pseudoKind?.1 hs))

/-! ## Activity -/

/-- What is above an active vertex is active. -/
theorem isActiveIn_of_mem {lastKnown : RegionId → Option VertexId} {a v : VertexId} (ha : a ∈ T.vertexAncestry v)
    (h : T.isActiveIn lastKnown v) : T.isActiveIn lastKnown a := by
  unfold isActiveIn at h ⊢
  rw [List.all_eq_true] at h ⊢
  exact fun w hw => h w (Forest.mem_ancestors_trans (F := T.stateTree) hw ha)

namespace WellFormed

variable (hT : T.WellFormed) {lastKnown : RegionId → Option VertexId}
include hT

theorem isState_root : T.isState root := by
  unfold isState
  rw [hT.root_kind]
  rfl

theorem isActiveIn_root : T.isActiveIn lastKnown root := by
  unfold isActiveIn
  rw [hT.vertexAncestry_root, List.all_cons, List.all_nil, Bool.and_true, hT.root_parent]

/-- A vertex in a region is active if it is the last known state of an active owner's region. -/
theorem isActiveIn_of_parent {v : VertexId} {r : RegionId} (h : (T.vertex v).parent = some r) :
    T.isActiveIn lastKnown v ↔ T.isActiveIn lastKnown (T.region r).parent ∧ lastKnown r = some v := by
  unfold isActiveIn
  rw [hT.vertexAncestry_of_parent h, List.all_append, Bool.and_eq_true, List.all_cons,
    List.all_nil, Bool.and_true, h]
  exact and_congr_right fun _ => decide_eq_true_iff

end WellFormed

theorem exists_pseudo {v : VertexId} (h : ¬T.isState v) : ∃ k, T.kind v = .pseudo k := by
  unfold isState at h
  cases hk : T.kind v with
  | pseudo k => exact ⟨k, rfl⟩
  | _ => rw [hk] at h; exact absurd rfl h

/-- Entries end at choices, junctions and terminate pseudostates. -/
theorem branches_of_not_isInitial {k : PseudoKind} (hi : ¬k.isInitial) (hk : k ≠ .terminate) :
    k = .choice ∨ k = .junction := by
  cases k with
  | choice => exact .inl rfl
  | junction => exact .inr rfl
  | terminate => exact absurd rfl hk
  | _ => exact absurd rfl hi

theorem pseudoKind?_eq {v : VertexId} {k : PseudoKind} (h : T.kind v = .pseudo k) :
    T.pseudoKind? v = some k := by
  unfold pseudoKind?
  rw [h]
  rfl

theorem kind_of_pseudoKind? {v : VertexId} {k : PseudoKind} (h : T.pseudoKind? v = some k) :
    T.kind v = .pseudo k := by
  obtain ⟨k', hk'⟩ := exists_pseudo (not_isState_of_pseudoKind? h)
  rw [pseudoKind?_eq hk'] at h
  exact Option.some.inj h ▸ hk'

end Topology

end Hsm
