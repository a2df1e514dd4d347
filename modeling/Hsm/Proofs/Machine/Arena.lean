import Hsm.Proofs.Machine.Reachable
import Hsm.Proofs.Topology.Links
import Mathlib.Data.List.Nodup

/-!
# The arena of a model

Elements and transitions are kept by number, with links both ways. Whatever is added to a model and
removed from it, also by handles of what is removed already, the numbers stay in range, what is
listed is what is not removed, and the links to owners lead up to the root (`Topology.Arena`,
`Machine.Reachable.arena`). The walk over the model follows lists that lead to greater numbers, so
it ends, and meets nothing twice.
-/

namespace Hsm

variable {σ : Type}

def Element.isRegion : Element → Bool
  | .region _ => true
  | .vertex _ => false

namespace Topology

variable {T : Topology}

/-- The owner of an element as it is stored. -/
def link (T : Topology) : Element → Option Element
  | .region r => some (.vertex (T.region r).parent)
  | .vertex v => (T.vertex v).parent.map .region

/-! ## Links to owners -/

namespace WellFormed

variable (hT : T.WellFormed)
include hT

/-- No stored link is passed over. -/
theorem owner_eq_link : T.owner = T.link := by
  funext e
  cases e with
  | region r => rfl
  | vertex v => rw [owner, link, hT.ownerRegion_eq]

theorem wellFounded_link : WellFounded fun a b => T.link b = some a :=
  Subrelation.wf (r := InvImage (· < ·) T.ownership.height)
    (fun {_ b} h => T.ownership.height_lt ((congrFun hT.owner_eq_link b).trans h))
    (InvImage.wf _ Nat.lt_wfRel.wf)

theorem ancestry_eq (e : Element) :
    T.ancestry e = match T.link e with
      | some a => T.ancestry a ++ [e]
      | none => [e] := by
  rw [← hT.owner_eq_link]
  cases h : T.owner e with
  | some a => exact Forest.ancestors_of_parent (F := T.ownership) h
  | none => exact Forest.ancestors_root (F := T.ownership) h

theorem isChain_ancestry (e : Element) : (T.ancestry e).IsChain fun a b => T.link b = some a := by
  rw [← hT.owner_eq_link]
  exact Forest.isChain_ancestors (F := T.ownership) e

omit hT in
theorem isRegion_of_link {a b : Element} (h : T.link b = some a) : a.isRegion = !b.isRegion := by
  cases b with
  | region r =>
    obtain rfl := Option.some.inj h
    rfl
  | vertex v =>
    obtain ⟨r, -, rfl⟩ := Option.map_eq_some_iff.1 h
    rfl

theorem head?_ancestry_vertex {v : VertexId} (hv : v.index < T.vertexNodes.size) :
    (T.ancestry (.vertex v)).head? = some (.vertex root) := by
  cases hp : (T.vertex v).parent with
  | none =>
    rw [hT.ancestry_vertex_of_not_parent hp, hT.eq_root v hv hp]
    rfl
  | some r =>
    have hlt := (hT.parent_lt v r hp).2
    have ih := head?_ancestry_vertex (v := (T.region r).parent) (by omega)
    rw [hT.ancestry_vertex hp, ancestry_region]
    simp [ih]
termination_by v.index

theorem head?_ancestry {e : Element} (he : T.Has e) :
    (T.ancestry e).head? = some (.vertex root) := by
  cases e with
  | vertex v => exact hT.head?_ancestry_vertex he
  | region r =>
    rw [ancestry_region, List.head?_append, hT.head?_ancestry_vertex (hT.region_parent_lt r he)]
    rfl

/-! ## The walk -/

theorem lt_of_listed {v w : VertexId} {r : RegionId} (hr : r ∈ (T.vertex v).regions)
    (hw : w ∈ (T.region r).vertices) : v.index < w.index := by
  have h := (hT.parent_lt w r (hT.mem_vertices r w hw).2).2
  rwa [(hT.mem_regions v r hr).2] at h

/-- Numbers grow on the way down, so as many levels as there are vertices leave nothing out. -/
theorem verticesFrom_succ : ∀ (n : Nat) (v : VertexId), T.vertexNodes.size ≤ v.index + n →
    T.verticesFrom (n + 1) v = T.verticesFrom n v
  | 0, v, h => by
    have hnone : (T.vertex v).regions = [] := by
      unfold vertex
      rw [Array.getElem?_eq_none (by omega)]
      rfl
    simp [verticesFrom, hnone]
  | n + 1, v, h => by
    refine congrArg (v :: ·) (List.flatMap_congr fun r hr => List.flatMap_congr fun w hw => ?_)
    have hlt := hT.lt_of_listed hr hw
    exact verticesFrom_succ n w (by omega)

theorem verticesFrom_eq (v : VertexId) :
    T.verticesFrom T.vertexNodes.size v = v :: (T.vertex v).regions.flatMap fun r =>
      (T.region r).vertices.flatMap (T.verticesFrom T.vertexNodes.size) :=
  (hT.verticesFrom_succ _ v (Nat.le_add_left _ _)).symm

theorem mem_vertexAncestry_of_mem_verticesFrom {n : Nat} {v w : VertexId}
    (h : w ∈ T.verticesFrom n v) : v ∈ T.vertexAncestry w :=
  verticesFrom_induction (p := fun w => v ∈ T.vertexAncestry w)
    (fun u r w hr hw ih => by
      rw [hT.mem_vertexAncestry_of_parent (hT.mem_vertices r w hw).2, (hT.mem_regions u r hr).2]
      exact .inr ih)
    n (mem_vertexAncestry_self v) w h

/-- What is met beneath two vertices that one vertex owns is met beneath the same of them. -/
theorem eq_of_mem_verticesFrom {n : Nat} {v x w w' : VertexId} {r r' : RegionId}
    (hr : r ∈ (T.vertex v).regions) (hw : w ∈ (T.region r).vertices)
    (hr' : r' ∈ (T.vertex v).regions) (hw' : w' ∈ (T.region r').vertices)
    (h : x ∈ T.verticesFrom n w) (h' : x ∈ T.verticesFrom n w') : w = w' ∧ r = r' := by
  have hp := (hT.mem_vertices r w hw).2
  have hp' := (hT.mem_vertices r' w' hw').2
  have hparent := hT.parentState_eq hp
  have hparent' := hT.parentState_eq hp'
  rw [(hT.mem_regions v r hr).2] at hparent
  rw [(hT.mem_regions v r' hr').2] at hparent'
  have heq := Forest.eq_of_parent_of_mem hparent hparent'
    (hT.mem_vertexAncestry_of_mem_verticesFrom h) (hT.mem_vertexAncestry_of_mem_verticesFrom h')
  subst heq
  exact ⟨rfl, Option.some.inj (hp.symm.trans hp')⟩

theorem nodup_verticesFrom : ∀ (n : Nat) (v : VertexId), (T.verticesFrom n v).Nodup
  | 0, v => List.nodup_singleton v
  | n + 1, v => by
    refine List.nodup_cons.2 ⟨fun h => ?_, List.nodup_flatMap.2 ⟨fun r hr => ?_, ?_⟩⟩
    · obtain ⟨r, hr, h⟩ := List.mem_flatMap.1 h
      obtain ⟨w, hw, h⟩ := List.mem_flatMap.1 h
      have hle : w.index ≤ v.index := Forest.height_le_of_mem (F := T.stateTree)
        (hT.mem_vertexAncestry_of_mem_verticesFrom h)
      have hlt := hT.lt_of_listed hr hw
      omega
    · refine List.nodup_flatMap.2 ⟨fun w _ => nodup_verticesFrom n w, ?_⟩
      refine (hT.nodup_vertices r).pairwise_of_forall_ne fun w hw w' hw' hne x hx hx' => ?_
      exact hne (hT.eq_of_mem_verticesFrom hr hw hr hw' hx hx').1
    · refine (hT.nodup_regions v).pairwise_of_forall_ne fun r hr r' hr' hne x hx hx' => ?_
      obtain ⟨w, hw, hx⟩ := List.mem_flatMap.1 hx
      obtain ⟨w', hw', hx'⟩ := List.mem_flatMap.1 hx'
      exact hne (hT.eq_of_mem_verticesFrom hr hw hr' hw' hx hx').2

theorem nodup_all_vertices : T.vertices.Nodup :=
  hT.nodup_verticesFrom _ _

theorem nodup_all_regions : T.regions.Nodup := by
  refine List.nodup_flatMap.2 ⟨fun v _ => hT.nodup_regions v, ?_⟩
  refine hT.nodup_all_vertices.pairwise_of_forall_ne fun v _ w _ hne r hr hr' => ?_
  exact hne ((hT.mem_regions v r hr).2.symm.trans (hT.mem_regions w r hr').2)

theorem nodup_all_transitions (hlinks : T.Linked) : T.transitions.Nodup := by
  refine List.nodup_flatMap.2 ⟨fun v _ => hlinks.nodup_outgoing v, ?_⟩
  refine hT.nodup_all_vertices.pairwise_of_forall_ne fun v _ w _ hne t ht ht' => ?_
  exact hne ((hT.mem_outgoing v t ht).2.symm.trans (hT.mem_outgoing w t ht').2)

end WellFormed

/-! ## The arena -/

/-- What numbers, lists and links of a model add up to. -/
structure Arena (T : Topology) : Prop where
  /- Every handle that is stored was given out. -/
  region_parent_lt : ∀ r, T.Has (.region r) → T.Has (.vertex (T.region r).parent)
  vertices_lt : ∀ r, ∀ v ∈ (T.region r).vertices, T.Has (.vertex v)
  vertex_parent_lt : ∀ v, ∀ r ∈ (T.vertex v).parent, T.Has (.region r)
  regions_lt : ∀ v, ∀ r ∈ (T.vertex v).regions, T.Has (.region r)
  default_lt : ∀ v, ∀ r ∈ (T.vertex v).defaultRegion, T.Has (.region r)
  outgoing_lt : ∀ v, ∀ t ∈ (T.vertex v).outgoing, t.index < T.transitionNodes.size
  incoming_lt : ∀ v, ∀ t ∈ (T.vertex v).incoming, t.index < T.transitionNodes.size
  source_lt : ∀ t, t.index < T.transitionNodes.size → T.Has (.vertex (T.transition t).source)
  target_lt : ∀ t, ∀ x ∈ (T.transition t).target, T.Has (.vertex x)
  /- What is listed, and listed once, is what has not been removed. -/
  attached_region : ∀ r, T.Has (.region r) →
    (T.isAttached (.region r) ↔ (T.vertex (T.region r).parent).regions.count r = 1)
  attached_vertex : ∀ v, T.Has (.vertex v) → v ≠ root → ∃ r, (T.vertex v).parent = some r ∧
    (T.isAttached (.vertex v) ↔ (T.region r).vertices.count v = 1)
  attached_transition : ∀ t, t.index < T.transitionNodes.size → (T.isAttachedTransition t ↔
    (T.vertex (T.transition t).source).outgoing.count t = 1 ∧
      ∀ x ∈ (T.transition t).target, (T.vertex x).incoming.count t = 1)
  /- A removed transition is in neither list of its ends. -/
  removed_transition : ∀ t, ¬T.isAttachedTransition t →
    ∀ v, t ∉ (T.vertex v).outgoing ∧ t ∉ (T.vertex v).incoming
  internal : ∀ t, (T.transition t).target = none → (T.transition t).kind = .internal
  regions_pseudo : ∀ v k, T.pseudoKind? v = some k → (T.vertex v).regions = []
  /- Links to owners lead up to the root, from vertices to regions and back. -/
  wellFounded : WellFounded fun a b => T.link b = some a
  ancestry_eq : ∀ e, T.ancestry e = match T.link e with
    | some a => T.ancestry a ++ [e]
    | none => [e]
  ancestry_head : ∀ e, T.Has e → (T.ancestry e).head? = some (.vertex root)
  ancestry_last : ∀ e, (T.ancestry e).getLast? = some e
  ancestry_alternates : ∀ e, (T.ancestry e).IsChain fun a b => a.isRegion = !b.isRegion
  /- The walk goes down every list to its end, and meets nothing twice. -/
  walk_eq : ∀ v, T.verticesFrom T.vertexNodes.size v = v :: (T.vertex v).regions.flatMap fun r =>
    (T.region r).vertices.flatMap (T.verticesFrom T.vertexNodes.size)
  nodup_vertices : T.vertices.Nodup
  nodup_regions : T.regions.Nodup
  nodup_transitions : T.transitions.Nodup

theorem count_eq_one_iff {α : Type} [DecidableEq α] {l : List α} (h : l.Nodup) (a : α) :
    l.count a = 1 ↔ a ∈ l := by
  rw [h.count]
  split <;> simp_all

theorem Marked.arena_of_linked (hT : T.Marked) (hlinks : T.Linked) : T.Arena where
  region_parent_lt := hT.region_parent_lt
  vertices_lt r v hv := (hT.mem_vertices r v hv).1
  vertex_parent_lt v r hr := (hT.parent_lt v r hr).1
  regions_lt v r hr := (hT.mem_regions v r hr).1
  default_lt := hT.default_lt
  outgoing_lt v t ht := (hT.mem_outgoing v t ht).1
  incoming_lt v t ht := ((hlinks.mem_incoming_iff v t).1 ht).1.1
  source_lt := hlinks.source_lt
  target_lt := hlinks.target_lt
  attached_region r hr := by
    rw [count_eq_one_iff (hT.nodup_regions _), hT.mem_regions_iff hr]
  attached_vertex v hv hne := by
    cases hp : (T.vertex v).parent with
    | none => exact absurd (hT.eq_root v hv hp) hne
    | some r =>
      refine ⟨r, rfl, ?_⟩
      rw [count_eq_one_iff (hT.nodup_vertices r), hT.mem_vertices_iff hv hp]
  attached_transition t ht := by
    rw [count_eq_one_iff (hlinks.nodup_outgoing _), hlinks.mem_outgoing_iff]
    refine ⟨fun h => ⟨⟨⟨ht, h⟩, rfl⟩, fun x hx => ?_⟩, fun h => h.1.1.2⟩
    rw [count_eq_one_iff (hlinks.nodup_incoming _), hlinks.mem_incoming_iff]
    exact ⟨⟨ht, h⟩, hx⟩
  removed_transition t h v :=
    ⟨fun hm => h ((hlinks.mem_outgoing_iff v t).1 hm).1.2,
      fun hm => h ((hlinks.mem_incoming_iff v t).1 hm).1.2⟩
  internal := hlinks.internal
  regions_pseudo v k hk := by
    by_contra hne
    exact not_isState_of_pseudoKind? hk (hT.isState_of_regions v hne)
  wellFounded := hT.wellFounded_link
  ancestry_eq := hT.ancestry_eq
  ancestry_head _ he := hT.head?_ancestry he
  ancestry_last := Forest.getLast?_ancestors (F := T.ownership)
  ancestry_alternates e := (hT.isChain_ancestry e).imp fun _ _ => WellFormed.isRegion_of_link
  walk_eq := hT.verticesFrom_eq
  nodup_vertices := hT.nodup_all_vertices
  nodup_regions := hT.nodup_all_regions
  nodup_transitions := hT.nodup_all_transitions hlinks

end Topology

theorem Edit.linked_apply {M : Machine σ} {e : Edit σ} (hM : M.topology.Linked)
    (h : e.Valid M.topology) : (e.apply M).topology.Linked := by
  cases e with
  | setSettings settings | modifyTransition t f | modifyState v f => exact hM
  | setSeparator separator =>
    have hsame : M.topology.SameLinks { M.topology with separator := separator } :=
      ⟨rfl, Nat.le_refl _, fun _ => rfl, fun _ => rfl⟩
    exact hsame.linked hM
  | addRegion name state => exact (Topology.SameLinks.addRegion _ name state).linked hM
  | defaultRegion state => exact (Topology.SameLinks.regionAt _ (.state state)).linked hM
  | addVertex name place kind => exact (Topology.SameLinks.addVertex _ name place kind).linked hM
  | addTransition source target => exact hM.addTransition h.1 h.2 .external
  | setTransitionKind t kind => exact hM.setTransitionKind t kind
  | removeTransition t =>
    simp only [apply, Machine.removeTransition]
    split
    · exact hM.detachTransition t
    · exact hM
  | removeVertex v =>
    simp only [apply, Machine.removeVertex]
    split
    · exact hM
    · split
      · exact hM.detachVertex v
      · exact hM
  | removeRegion r =>
    simp only [apply, Machine.removeRegion]
    split
    · exact hM.detachRegion r
    · exact hM

namespace Machine

variable {M : Machine σ} {allowed : Edit σ → Prop}

theorem Reachable.linked (hM : M.Reachable allowed) : M.topology.Linked := by
  induction hM with
  | ofName name settings => exact Topology.linked_ofName name
  | edit _ hv _ ih => exact Edit.linked_apply ih hv
  | initialise _ ih => exact ih
  | draw source _ ih => exact ih

/-- Whatever was added and removed, the model is an arena. -/
theorem Reachable.arena (hM : M.Reachable fun _ => True) : M.topology.Arena :=
  hM.marked.arena_of_linked hM.linked

/-- A state with a region of its own is removed, and so is one of the transitions of what was in
it; then its region gets another vertex, with a transition to a vertex that is gone. -/
def reused : Machine Unit := .build "m" {} [
  .addVertex "a" (.state ⟨0⟩) .state, .addRegion "q" ⟨1⟩, .addVertex "b" (.region ⟨1⟩) .state,
  .addVertex "c" (.region ⟨1⟩) (.pseudo .choice), .addTransition ⟨2⟩ (some ⟨2⟩),
  .addTransition ⟨3⟩ none, .removeTransition ⟨1⟩, .removeVertex ⟨1⟩, .removeTransition ⟨0⟩,
  .addVertex "d" (.region ⟨1⟩) .state, .addTransition ⟨4⟩ (some ⟨2⟩), .removeVertex ⟨1⟩]

/-- What was added below the removed state is listed by its region, and a second removal of the
state is refused and takes nothing away. -/
theorem reused_arena : reused.Reachable (fun _ => True) ∧ reused.topology.Arena ∧
    reused.topology.vertices = [Topology.root] ∧
    ¬reused.topology.isAttached (.region ⟨1⟩) ∧ ¬reused.topology.isAttached (.vertex ⟨2⟩) ∧
    (reused.topology.region ⟨1⟩).vertices = [⟨4⟩] ∧ reused.topology.isAttached (.vertex ⟨4⟩) ∧
    (reused.topology.vertex ⟨2⟩).incoming = [⟨2⟩] ∧ reused.topology.isAttachedTransition ⟨2⟩ ∧
    ¬reused.topology.isAttachedTransition ⟨0⟩ := by
  have hM : reused.Reachable fun _ => True := .build (by decide +kernel) fun _ _ => trivial
  exact ⟨hM, hM.arena, by decide +kernel⟩

end Machine

end Hsm
