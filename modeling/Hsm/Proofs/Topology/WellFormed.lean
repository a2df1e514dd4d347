import Hsm.Topology.Edit
import Mathlib.Data.List.Nodup

/-!
# Well-formed topologies

In a well-formed topology the lists of owners and the links to owners agree, nothing is listed
twice, and links to owners lead to smaller numbers (`Topology.WellFormed`). Every edit keeps this;
a removal because all it does to the lists is to make them shorter (`Topology.Trims`).
-/

namespace Hsm

namespace Topology

variable {T : Topology}

/-! ## Looking up after a change -/

theorem region_modifyRegion (r s : RegionId) (f : RegionNode → RegionNode) :
    (T.modifyRegion r f).region s = T.region s
      ∨ s = r ∧ r.index < T.regionNodes.size ∧ (T.modifyRegion r f).region s = f (T.region s) := by
  unfold modifyRegion region
  simp only [Array.getElem?_modify]
  split
  · rename_i h
    obtain rfl : r = s := by cases r; cases s; simp_all
    rcases hr : T.regionNodes[r.index]? with _ | node
    · exact .inl rfl
    · exact .inr ⟨rfl, (Array.getElem?_eq_some_iff.1 hr).1, rfl⟩
  · exact .inl rfl

theorem region_modifyRegion_of_lt {r : RegionId} (h : r.index < T.regionNodes.size) (s : RegionId)
    (f : RegionNode → RegionNode) :
    (T.modifyRegion r f).region s = if s = r then f (T.region s) else T.region s := by
  unfold modifyRegion region
  simp only [Array.getElem?_modify]
  by_cases hs : s = r
  · subst hs
    simp [Array.getElem?_eq_getElem h]
  · have hi : r.index ≠ s.index := fun hi => hs (by cases r; cases s; simp_all)
    simp [hi, hs]

theorem vertex_modifyVertex (v w : VertexId) (f : VertexNode → VertexNode) :
    (T.modifyVertex v f).vertex w = T.vertex w
      ∨ w = v ∧ v.index < T.vertexNodes.size ∧ (T.modifyVertex v f).vertex w = f (T.vertex w) := by
  unfold modifyVertex vertex
  simp only [Array.getElem?_modify]
  split
  · rename_i h
    obtain rfl : v = w := by cases v; cases w; simp_all
    rcases hv : T.vertexNodes[v.index]? with _ | node
    · exact .inl rfl
    · exact .inr ⟨rfl, (Array.getElem?_eq_some_iff.1 hv).1, rfl⟩
  · exact .inl rfl

theorem vertex_modifyVertex_of_lt {v : VertexId} (h : v.index < T.vertexNodes.size) (w : VertexId)
    (f : VertexNode → VertexNode) :
    (T.modifyVertex v f).vertex w = if w = v then f (T.vertex w) else T.vertex w := by
  unfold modifyVertex vertex
  simp only [Array.getElem?_modify]
  by_cases hw : w = v
  · subst hw
    simp [Array.getElem?_eq_getElem h]
  · have hi : v.index ≠ w.index := fun hi => hw (by cases v; cases w; simp_all)
    simp [hi, hw]

/-- What a change of one region leaves as it is, it leaves so in all regions. -/
theorem read_modifyRegion {α : Type} (p : RegionNode → α) (r s : RegionId)
    {f : RegionNode → RegionNode} (hf : ∀ node, p (f node) = p node) :
    p ((T.modifyRegion r f).region s) = p (T.region s) := by
  rcases region_modifyRegion (T := T) r s f with h | ⟨-, -, h⟩ <;> simp [h, hf]

/-- What a change of one vertex leaves as it is, it leaves so in all vertices. -/
theorem read_modifyVertex {α : Type} (p : VertexNode → α) (v w : VertexId)
    {f : VertexNode → VertexNode} (hf : ∀ node, p (f node) = p node) :
    p ((T.modifyVertex v f).vertex w) = p (T.vertex w) := by
  rcases vertex_modifyVertex (T := T) v w f with h | ⟨-, -, h⟩ <;> simp [h, hf]

theorem transition_modifyTransition (t u : TransitionId) (f : TransitionNode → TransitionNode) :
    (T.modifyTransition t f).transition u = T.transition u
      ∨ u = t ∧ (T.modifyTransition t f).transition u = f (T.transition u) := by
  unfold modifyTransition transition
  simp only [Array.getElem?_modify]
  split
  · rename_i h
    obtain rfl : t = u := by cases t; cases u; simp_all
    rcases ht : T.transitionNodes[t.index]? with _ | node
    · exact .inl rfl
    · exact .inr ⟨rfl, rfl⟩
  · exact .inl rfl

/-- What a change of one transition leaves as it is, it leaves so in all transitions. -/
theorem read_modifyTransition {α : Type} (p : TransitionNode → α) (t u : TransitionId)
    {f : TransitionNode → TransitionNode} (hf : ∀ node, p (f node) = p node) :
    p ((T.modifyTransition t f).transition u) = p (T.transition u) := by
  rcases transition_modifyTransition (T := T) t u f with h | ⟨-, h⟩ <;> simp [h, hf]

theorem getD_push {α : Type} (xs : Array α) (x d : α) (i : Nat) :
    (xs.push x)[i]?.getD d = if i = xs.size then x else xs[i]?.getD d := by
  rw [Array.getElem?_push]
  split <;> rfl

/-- Only what was given out has a place. -/
theorem lt_size_of_parent {v : VertexId} {r : RegionId} (h : (T.vertex v).parent = some r) :
    v.index < T.vertexNodes.size := by
  refine Nat.lt_of_not_le fun hle => ?_
  rw [vertex, Array.getElem?_eq_none hle] at h
  cases h

/-! ## The invariant -/

structure WellFormed (T : Topology) : Prop where
  root_lt : root.index < T.vertexNodes.size
  root_parent : (T.vertex root).parent = none
  root_kind : T.kind root = .machine
  eq_root : ∀ v, v.index < T.vertexNodes.size → (T.vertex v).parent = none → v = root
  parent_lt : ∀ v r, (T.vertex v).parent = some r →
    r.index < T.regionNodes.size ∧ (T.region r).parent.index < v.index
  region_parent_lt : ∀ r, r.index < T.regionNodes.size →
    (T.region r).parent.index < T.vertexNodes.size
  mem_vertices : ∀ r v, v ∈ (T.region r).vertices →
    v.index < T.vertexNodes.size ∧ (T.vertex v).parent = some r
  mem_regions : ∀ v r, r ∈ (T.vertex v).regions →
    r.index < T.regionNodes.size ∧ (T.region r).parent = v
  nodup_vertices : ∀ r, (T.region r).vertices.Nodup
  nodup_regions : ∀ v, (T.vertex v).regions.Nodup
  default_lt : ∀ v r, (T.vertex v).defaultRegion = some r → r.index < T.regionNodes.size
  isState_of_regions : ∀ v, (T.vertex v).regions ≠ [] → T.isState v
  mem_outgoing : ∀ v t, t ∈ (T.vertex v).outgoing →
    t.index < T.transitionNodes.size ∧ (T.transition t).source = v

theorem wellFormed_ofName (name : String) : (Topology.ofName name).WellFormed := by
  have hr : ∀ r, ((Topology.ofName name).region r).vertices = [] := fun r => rfl
  have hv : ∀ v, (Topology.ofName name).vertex v = default
      ∨ v = root ∧ (Topology.ofName name).vertex v = ⟨name, none, .machine, [], none, [], [], false⟩ := by
    intro v
    rcases v with ⟨_ | n⟩
    · exact .inr ⟨rfl, rfl⟩
    · exact .inl rfl
  constructor
  case root_lt => exact Nat.zero_lt_one
  case root_parent => rfl
  case root_kind => rfl
  case eq_root =>
    rintro ⟨n⟩ hn -
    obtain rfl : n = 0 := Nat.lt_one_iff.1 hn
    rfl
  case region_parent_lt => exact fun r h => absurd h (Nat.not_lt_zero _)
  case mem_vertices => exact fun r v h => by simp [hr] at h
  case nodup_vertices => exact fun r => by simp [hr]
  all_goals
    intro v
    rcases hv v with h | ⟨-, h⟩ <;> simp [h, default]

/-! ## Shorter lists -/

/-- `U` is `T` with some entries taken out of the lists of its elements. Names, default regions,
incoming transitions, kinds of transitions and the marks of removal may differ. -/
structure Trims (T U : Topology) : Prop where
  regions_size : U.regionNodes.size = T.regionNodes.size
  vertices_size : U.vertexNodes.size = T.vertexNodes.size
  transitions_size : U.transitionNodes.size = T.transitionNodes.size
  parent : ∀ v, (U.vertex v).parent = (T.vertex v).parent
  kind : ∀ v, U.kind v = T.kind v
  default_lt : ∀ v r, (U.vertex v).defaultRegion = some r →
    (T.vertex v).defaultRegion = some r ∨ r.index < T.regionNodes.size
  regions : ∀ v, (U.vertex v).regions.Sublist (T.vertex v).regions
  outgoing : ∀ v, (U.vertex v).outgoing.Sublist (T.vertex v).outgoing
  region_parent : ∀ r, (U.region r).parent = (T.region r).parent
  vertices : ∀ r, (U.region r).vertices.Sublist (T.region r).vertices
  source : ∀ t, (U.transition t).source = (T.transition t).source

namespace Trims

variable {U V : Topology}

theorem refl (T : Topology) : T.Trims T :=
  ⟨rfl, rfl, rfl, fun _ => rfl, fun _ => rfl, fun _ _ h => .inl h, fun _ => .refl _,
    fun _ => .refl _, fun _ => rfl, fun _ => .refl _, fun _ => rfl⟩

theorem trans (h : T.Trims U) (h' : U.Trims V) : T.Trims V where
  regions_size := h'.regions_size.trans h.regions_size
  vertices_size := h'.vertices_size.trans h.vertices_size
  transitions_size := h'.transitions_size.trans h.transitions_size
  parent v := (h'.parent v).trans (h.parent v)
  kind v := (h'.kind v).trans (h.kind v)
  default_lt v r hr := by
    rcases h'.default_lt v r hr with hr | hr
    · exact h.default_lt v r hr
    · exact .inr (h.regions_size ▸ hr)
  regions v := (h'.regions v).trans (h.regions v)
  outgoing v := (h'.outgoing v).trans (h.outgoing v)
  region_parent r := (h'.region_parent r).trans (h.region_parent r)
  vertices r := (h'.vertices r).trans (h.vertices r)
  source t := (h'.source t).trans (h.source t)

theorem foldl {α : Type} {f : Topology → α → Topology} (hf : ∀ T a, Trims T (f T a)) :
    ∀ (l : List α) (T : Topology), T.Trims (l.foldl f T)
  | [], T => refl T
  | a :: l, T => (hf T a).trans (foldl hf l (f T a))

theorem modifyVertex (T : Topology) (v : VertexId) {f : VertexNode → VertexNode}
    (hp : (f (T.vertex v)).parent = (T.vertex v).parent)
    (hk : (f (T.vertex v)).kind = (T.vertex v).kind)
    (hd : ∀ r, (f (T.vertex v)).defaultRegion = some r →
      (T.vertex v).defaultRegion = some r ∨ r.index < T.regionNodes.size)
    (hr : (f (T.vertex v)).regions.Sublist (T.vertex v).regions)
    (ho : (f (T.vertex v)).outgoing.Sublist (T.vertex v).outgoing) :
    T.Trims (T.modifyVertex v f) := by
  have key : ∀ {p : VertexNode → VertexNode → Prop}, (∀ node, p node node) →
      p (f (T.vertex v)) (T.vertex v) → ∀ w, p ((T.modifyVertex v f).vertex w) (T.vertex w) := by
    intro p hrefl hf w
    rcases vertex_modifyVertex (T := T) v w f with h | ⟨rfl, -, h⟩
    · rw [h]; exact hrefl _
    · rw [h]; exact hf
  exact ⟨rfl, Array.size_modify .., rfl,
    key (p := fun node old => node.parent = old.parent) (fun _ => rfl) hp,
    key (p := fun node old => node.kind = old.kind) (fun _ => rfl) hk,
    key (p := fun node old => ∀ r, node.defaultRegion = some r →
      old.defaultRegion = some r ∨ r.index < T.regionNodes.size) (fun _ _ h => .inl h) hd,
    key (p := fun node old => node.regions.Sublist old.regions) (fun _ => .refl _) hr,
    key (p := fun node old => node.outgoing.Sublist old.outgoing) (fun _ => .refl _) ho,
    fun _ => rfl, fun _ => .refl _, fun _ => rfl⟩

theorem modifyRegion (T : Topology) (r : RegionId) {f : RegionNode → RegionNode}
    (hp : (f (T.region r)).parent = (T.region r).parent)
    (hv : (f (T.region r)).vertices.Sublist (T.region r).vertices) :
    T.Trims (T.modifyRegion r f) := by
  refine ⟨Array.size_modify .., rfl, rfl, fun _ => rfl, fun _ => rfl, fun _ _ h => .inl h,
    fun _ => .refl _, fun _ => .refl _, fun s => ?_, fun s => ?_, fun _ => rfl⟩
  · rcases region_modifyRegion (T := T) r s f with h | ⟨rfl, -, h⟩
    · rw [h]
    · rw [h]; exact hp
  · rcases region_modifyRegion (T := T) r s f with h | ⟨rfl, -, h⟩
    · exact h ▸ .refl _
    · exact h ▸ hv

theorem modifyTransition (T : Topology) (t : TransitionId) {f : TransitionNode → TransitionNode}
    (hs : (f (T.transition t)).source = (T.transition t).source) :
    T.Trims (T.modifyTransition t f) := by
  refine ⟨rfl, rfl, Array.size_modify .., fun _ => rfl, fun _ => rfl, fun _ _ h => .inl h,
    fun _ => .refl _, fun _ => .refl _, fun _ => rfl, fun _ => .refl _, fun u => ?_⟩
  rcases transition_modifyTransition (T := T) t u f with h | ⟨rfl, h⟩
  · rw [h]
  · rw [h]; exact hs

theorem wellFormed (h : T.Trims U) (hT : T.WellFormed) : U.WellFormed where
  root_lt := h.vertices_size ▸ hT.root_lt
  root_parent := (h.parent _).trans hT.root_parent
  root_kind := (h.kind _).trans hT.root_kind
  eq_root v hv hp := hT.eq_root v (h.vertices_size ▸ hv) ((h.parent v).symm.trans hp)
  parent_lt v r hp := by
    rw [h.regions_size, h.region_parent]
    exact hT.parent_lt v r ((h.parent v).symm.trans hp)
  region_parent_lt r hr := by
    rw [h.region_parent, h.vertices_size]
    exact hT.region_parent_lt r (h.regions_size ▸ hr)
  mem_vertices r v hv := by
    rw [h.vertices_size, h.parent]
    exact hT.mem_vertices r v ((h.vertices r).subset hv)
  mem_regions v r hr := by
    rw [h.regions_size, h.region_parent]
    exact hT.mem_regions v r ((h.regions v).subset hr)
  nodup_vertices r := (hT.nodup_vertices r).sublist (h.vertices r)
  nodup_regions v := (hT.nodup_regions v).sublist (h.regions v)
  default_lt v r hr := by
    rw [h.regions_size]
    rcases h.default_lt v r hr with hr | hr
    · exact hT.default_lt v r hr
    · exact hr
  isState_of_regions v hr := by
    unfold isState
    rw [h.kind]
    refine hT.isState_of_regions v fun he => hr ?_
    exact List.sublist_nil.1 (he ▸ h.regions v)
  mem_outgoing v t ht := by
    rw [h.transitions_size, h.source]
    exact hT.mem_outgoing v t ((h.outgoing v).subset ht)

end Trims

/-! ## Additions -/

theorem region_push (node : RegionNode) (s : RegionId) :
    region { T with regionNodes := T.regionNodes.push node } s =
      if s.index = T.regionNodes.size then node else T.region s :=
  getD_push ..

theorem vertex_push (node : VertexNode) (w : VertexId) :
    vertex { T with vertexNodes := T.vertexNodes.push node } w =
      if w.index = T.vertexNodes.size then node else T.vertex w :=
  getD_push ..

theorem transition_push (node : TransitionNode) (t : TransitionId) :
    transition { T with transitionNodes := T.transitionNodes.push node } t =
      if t.index = T.transitionNodes.size then node else T.transition t :=
  getD_push ..

/-- What the record lists may be listed by the vertex `v`. -/
structure ListsOwn (T : Topology) (v : VertexId) (node : VertexNode) : Prop where
  mem_regions : ∀ r ∈ node.regions, r.index < T.regionNodes.size ∧ (T.region r).parent = v
  nodup_regions : node.regions.Nodup
  default_lt : ∀ r, node.defaultRegion = some r → r.index < T.regionNodes.size
  isState_of_regions : node.regions ≠ [] → T.isState v
  mem_outgoing : ∀ t ∈ node.outgoing,
    t.index < T.transitionNodes.size ∧ (T.transition t).source = v

namespace WellFormed

theorem listsOwn (hT : T.WellFormed) (v : VertexId) : T.ListsOwn v (T.vertex v) where
  mem_regions := hT.mem_regions v
  nodup_regions := hT.nodup_regions v
  default_lt := hT.default_lt v
  isState_of_regions := hT.isState_of_regions v
  mem_outgoing := hT.mem_outgoing v

/-- The record of a vertex may change to one that lists what is its own. -/
theorem modifyVertex (hT : T.WellFormed) {v : VertexId} {f : VertexNode → VertexNode}
    (hp : ∀ node, (f node).parent = node.parent) (hk : ∀ node, (f node).kind = node.kind)
    (hf : T.ListsOwn v (f (T.vertex v))) : (T.modifyVertex v f).WellFormed := by
  have hsize : (T.modifyVertex v f).vertexNodes.size = T.vertexNodes.size := Array.size_modify ..
  have hparent : ∀ w, ((T.modifyVertex v f).vertex w).parent = (T.vertex w).parent := fun w =>
    read_modifyVertex VertexNode.parent v w hp
  have hkind : ∀ w, (T.modifyVertex v f).kind w = T.kind w := fun w =>
    read_modifyVertex VertexNode.kind v w hk
  have hlists : ∀ w, T.ListsOwn w ((T.modifyVertex v f).vertex w) := fun w => by
    rcases vertex_modifyVertex (T := T) v w f with h | ⟨rfl, -, h⟩ <;> rw [h]
    · exact hT.listsOwn w
    · exact hf
  constructor
  case root_lt => rw [hsize]; exact hT.root_lt
  case root_parent => rw [hparent]; exact hT.root_parent
  case root_kind => rw [hkind]; exact hT.root_kind
  case eq_root => intro w; rw [hsize, hparent]; exact hT.eq_root w
  case parent_lt => intro w s; rw [hparent]; exact hT.parent_lt w s
  case region_parent_lt => rw [hsize]; exact hT.region_parent_lt
  case mem_vertices => intro s w; rw [hsize, hparent]; exact hT.mem_vertices s w
  case mem_regions => exact fun w => (hlists w).mem_regions
  case nodup_vertices => exact hT.nodup_vertices
  case nodup_regions => exact fun w => (hlists w).nodup_regions
  case default_lt => exact fun w => (hlists w).default_lt
  case isState_of_regions =>
    intro w
    unfold isState
    rw [hkind]
    exact (hlists w).isState_of_regions
  case mem_outgoing => exact fun w => (hlists w).mem_outgoing

/-! ### Regions -/

theorem pushRegion (hT : T.WellFormed) (node : RegionNode)
    (hp : node.parent.index < T.vertexNodes.size) (hn : node.vertices = []) :
    WellFormed { T with regionNodes := T.regionNodes.push node } := by
  have hr := region_push (T := T) node
  have hsize : (T.regionNodes.push node).size = T.regionNodes.size + 1 := Array.size_push ..
  have hold : ∀ s : RegionId, s.index < T.regionNodes.size →
      region { T with regionNodes := T.regionNodes.push node } s = T.region s :=
    fun s h => by rw [hr, if_neg (Nat.ne_of_lt h)]
  constructor
  case root_lt => exact hT.root_lt
  case root_parent => exact hT.root_parent
  case root_kind => exact hT.root_kind
  case eq_root => exact hT.eq_root
  case parent_lt =>
    intro w s h
    obtain ⟨hs, hlt⟩ := hT.parent_lt w s h
    rw [hold s hs]
    exact ⟨hsize ▸ Nat.lt_succ_of_lt hs, hlt⟩
  case region_parent_lt =>
    intro s h
    rw [hr]
    split
    · exact hp
    · exact hT.region_parent_lt s (by rw [hsize] at h; omega)
  case mem_vertices =>
    intro s v h
    rw [hr] at h
    split at h
    · rw [hn] at h; cases h
    · exact hT.mem_vertices s v h
  case mem_regions =>
    intro v s h
    obtain ⟨hs, hparent⟩ := hT.mem_regions v s h
    rw [hold s hs]
    exact ⟨hsize ▸ Nat.lt_succ_of_lt hs, hparent⟩
  case nodup_vertices =>
    intro s
    rw [hr]
    split
    · rw [hn]; exact List.nodup_nil
    · exact hT.nodup_vertices s
  case nodup_regions => exact hT.nodup_regions
  case default_lt => exact fun v s h => hsize ▸ Nat.lt_succ_of_lt (hT.default_lt v s h)
  case isState_of_regions => exact hT.isState_of_regions
  case mem_outgoing => exact hT.mem_outgoing

/-- A region may be listed by the state that it is linked to. -/
theorem listRegion (hT : T.WellFormed) {v : VertexId} {r : RegionId}
    (hr : r.index < T.regionNodes.size) (hk : T.isState v) (hp : (T.region r).parent = v)
    (hn : r ∉ (T.vertex v).regions) :
    (T.modifyVertex v fun node => { node with regions := node.regions ++ [r] }).WellFormed := by
  have hown := hT.listsOwn v
  refine hT.modifyVertex (fun _ => rfl) (fun _ => rfl) { hown with
    mem_regions := fun s hs => ?_
    nodup_regions := by simpa using List.Nodup.concat hn hown.nodup_regions
    isState_of_regions := fun _ => hk }
  rcases List.mem_append.1 hs with hs | hs
  · exact hown.mem_regions s hs
  · exact List.mem_singleton.1 hs ▸ ⟨hr, hp⟩

end WellFormed

theorem region_addRegion (name : String) (state : VertexId) (s : RegionId) :
    (T.addRegion name state).2.region s =
      if s.index = T.regionNodes.size then ⟨name, state, [], false⟩ else T.region s :=
  region_push ..

theorem vertex_addRegion {state : VertexId} (h : state.index < T.vertexNodes.size) (name : String)
    (w : VertexId) :
    (T.addRegion name state).2.vertex w = if w = state then
      { T.vertex w with regions := (T.vertex w).regions ++ [⟨T.regionNodes.size⟩] }
    else T.vertex w :=
  vertex_modifyVertex_of_lt
    (T := { T with regionNodes := T.regionNodes.push ⟨name, state, [], false⟩ }) h w _

theorem size_addRegion (name : String) (state : VertexId) :
    (T.addRegion name state).2.regionNodes.size = T.regionNodes.size + 1
      ∧ (T.addRegion name state).2.vertexNodes.size = T.vertexNodes.size
      ∧ (T.addRegion name state).2.transitionNodes = T.transitionNodes :=
  ⟨Array.size_push .., Array.size_modify .., rfl⟩

theorem WellFormed.addRegion (hT : T.WellFormed) {state : VertexId}
    (hs : state.index < T.vertexNodes.size) (hk : T.isState state) (name : String) :
    (T.addRegion name state).2.WellFormed := by
  refine (hT.pushRegion ⟨name, state, [], false⟩ hs rfl).listRegion ?_ hk ?_ ?_
  · rw [Array.size_push]; exact Nat.lt_succ_self _
  · rw [region_push, if_pos rfl]
  · exact fun hm => absurd (hT.mem_regions state _ hm).1 (Nat.lt_irrefl _)

theorem WellFormed.defaultRegion (hT : T.WellFormed) {state : VertexId}
    (hs : state.index < T.vertexNodes.size) (hk : T.isState state) :
    (T.defaultRegion state).2.WellFormed
      ∧ (T.defaultRegion state).1.index < (T.defaultRegion state).2.regionNodes.size
      ∧ (T.defaultRegion state).2.vertexNodes.size = T.vertexNodes.size := by
  unfold Topology.defaultRegion
  split
  · rename_i r hr
    exact ⟨hT, hT.default_lt state r (Option.filter_eq_some_iff.1 hr).1, rfl⟩
  · have hU := hT.addRegion hs hk defaultRegionName
    obtain ⟨hrs, hvs, -⟩ := size_addRegion (T := T) defaultRegionName state
    have hlt : (T.addRegion defaultRegionName state).1.index
        < (T.addRegion defaultRegionName state).2.regionNodes.size := by
      rw [hrs]; exact Nat.lt_succ_self _
    have htrims := Trims.modifyVertex (T.addRegion defaultRegionName state).2 state
      (f := fun node => { node with defaultRegion := some (T.addRegion defaultRegionName state).1 })
      rfl rfl (fun r hr => .inr (Option.some.inj hr ▸ hlt)) (.refl _) (.refl _)
    exact ⟨htrims.wellFormed hU, hlt, htrims.vertices_size.trans hvs⟩

/-- The region or the state that the place names exists, and the state can own regions. -/
def Valid (T : Topology) : Place → Prop
  | .region r => r.index < T.regionNodes.size
  | .state v => v.index < T.vertexNodes.size ∧ T.isState v

theorem WellFormed.regionAt (hT : T.WellFormed) {place : Place} (h : T.Valid place) :
    (T.regionAt place).2.WellFormed
      ∧ (T.regionAt place).1.index < (T.regionAt place).2.regionNodes.size
      ∧ (T.regionAt place).2.vertexNodes.size = T.vertexNodes.size := by
  cases place with
  | region r => exact ⟨hT, h, rfl⟩
  | state v => exact hT.defaultRegion h.1 h.2

/-! ### Vertices -/

theorem WellFormed.pushVertex (hT : T.WellFormed) {node : VertexNode} {r : RegionId}
    (hp : node.parent = some r) (hr : r.index < T.regionNodes.size) (hrs : node.regions = [])
    (hd : node.defaultRegion = none) (ho : node.outgoing = []) :
    WellFormed { T with vertexNodes := T.vertexNodes.push node } := by
  have hsize : (T.vertexNodes.push node).size = T.vertexNodes.size + 1 := Array.size_push ..
  -- a number beyond the new one has the default vertex, as it had before
  have hcases : ∀ w, vertex { T with vertexNodes := T.vertexNodes.push node } w = T.vertex w ∧
        w.index ≠ T.vertexNodes.size ∨
      vertex { T with vertexNodes := T.vertexNodes.push node } w = node ∧
        w.index = T.vertexNodes.size := fun w => by
    rw [vertex_push]
    split
    · exact .inr ⟨rfl, ‹_›⟩
    · exact .inl ⟨rfl, ‹_›⟩
  have hold : ∀ w : VertexId, w.index < T.vertexNodes.size →
      vertex { T with vertexNodes := T.vertexNodes.push node } w = T.vertex w :=
    fun w h => by rw [vertex_push, if_neg (Nat.ne_of_lt h)]
  constructor
  case root_lt => exact hsize ▸ Nat.lt_succ_of_lt hT.root_lt
  case root_parent => rw [hold _ hT.root_lt]; exact hT.root_parent
  case root_kind => unfold Topology.kind; rw [hold _ hT.root_lt]; exact hT.root_kind
  case eq_root =>
    intro w hw h
    rcases hcases w with ⟨hwv, hne⟩ | ⟨hwv, -⟩ <;> rw [hwv] at h
    · exact hT.eq_root w (by rw [hsize] at hw; omega) h
    · rw [hp] at h; cases h
  case parent_lt =>
    intro w s h
    rcases hcases w with ⟨hwv, -⟩ | ⟨hwv, hw⟩ <;> rw [hwv] at h
    · exact hT.parent_lt w s h
    · obtain rfl : r = s := Option.some.inj (hp.symm.trans h)
      exact ⟨hr, hw ▸ hT.region_parent_lt r hr⟩
  case region_parent_lt => exact fun s hs => hsize ▸ Nat.lt_succ_of_lt (hT.region_parent_lt s hs)
  case mem_vertices =>
    intro s w h
    obtain ⟨hw, hws⟩ := hT.mem_vertices s w h
    rw [hold w hw]
    exact ⟨hsize ▸ Nat.lt_succ_of_lt hw, hws⟩
  case mem_regions =>
    intro w s h
    rcases hcases w with ⟨hwv, -⟩ | ⟨hwv, -⟩ <;> rw [hwv] at h
    · exact hT.mem_regions w s h
    · rw [hrs] at h; cases h
  case nodup_vertices => exact hT.nodup_vertices
  case nodup_regions =>
    intro w
    rcases hcases w with ⟨hwv, -⟩ | ⟨hwv, -⟩ <;> rw [hwv]
    · exact hT.nodup_regions w
    · rw [hrs]; exact List.nodup_nil
  case default_lt =>
    intro w s h
    rcases hcases w with ⟨hwv, -⟩ | ⟨hwv, -⟩ <;> rw [hwv] at h
    · exact hT.default_lt w s h
    · rw [hd] at h; cases h
  case isState_of_regions =>
    intro w h
    unfold isState Topology.kind
    rcases hcases w with ⟨hwv, -⟩ | ⟨hwv, -⟩ <;> rw [hwv] at h ⊢
    · exact hT.isState_of_regions w h
    · exact absurd hrs h
  case mem_outgoing =>
    intro w t h
    rcases hcases w with ⟨hwv, -⟩ | ⟨hwv, -⟩ <;> rw [hwv] at h
    · exact hT.mem_outgoing w t h
    · rw [ho] at h; cases h

/-- A vertex may be listed by the region that it is linked to. -/
theorem WellFormed.listVertex (hT : T.WellFormed) {v : VertexId} {r : RegionId}
    (hv : v.index < T.vertexNodes.size) (hp : (T.vertex v).parent = some r)
    (hn : v ∉ (T.region r).vertices) :
    (T.modifyRegion r fun node => { node with vertices := node.vertices ++ [v] }).WellFormed := by
  have hsize : (T.modifyRegion r fun node =>
      { node with vertices := node.vertices ++ [v] }).regionNodes.size = T.regionNodes.size :=
    Array.size_modify ..
  have hparent : ∀ s, ((T.modifyRegion r fun node =>
      { node with vertices := node.vertices ++ [v] }).region s).parent = (T.region s).parent :=
    fun s => read_modifyRegion RegionNode.parent r s fun _ => rfl
  constructor
  case root_lt => exact hT.root_lt
  case root_parent => exact hT.root_parent
  case root_kind => exact hT.root_kind
  case eq_root => exact hT.eq_root
  case parent_lt => intro w s; rw [hsize, hparent]; exact hT.parent_lt w s
  case region_parent_lt => intro s; rw [hsize, hparent]; exact hT.region_parent_lt s
  case mem_vertices =>
    intro s w h
    rcases region_modifyRegion (T := T) r s _ with hs | ⟨rfl, -, hs⟩ <;> rw [hs] at h
    · exact hT.mem_vertices s w h
    · rcases List.mem_append.1 h with h | h
      · exact hT.mem_vertices s w h
      · obtain rfl := List.mem_singleton.1 h
        exact ⟨hv, hp⟩
  case mem_regions => intro w s; rw [hsize, hparent]; exact hT.mem_regions w s
  case nodup_vertices =>
    intro s
    rcases region_modifyRegion (T := T) r s _ with hs | ⟨rfl, -, hs⟩ <;> rw [hs]
    · exact hT.nodup_vertices s
    · simpa using List.Nodup.concat hn (hT.nodup_vertices s)
  case nodup_regions => exact hT.nodup_regions
  case default_lt => intro w s; rw [hsize]; exact hT.default_lt w s
  case isState_of_regions => exact hT.isState_of_regions
  case mem_outgoing => exact hT.mem_outgoing

/-- The topology with a vertex put into a region. -/
def lodge (T : Topology) (r : RegionId) (node : VertexNode) : Topology :=
  { T with vertexNodes := T.vertexNodes.push node }.modifyRegion r
    fun n => { n with vertices := n.vertices ++ [(⟨T.vertexNodes.size⟩ : VertexId)] }

theorem vertex_lodge (r : RegionId) (node : VertexNode) (w : VertexId) :
    (T.lodge r node).vertex w = if w.index = T.vertexNodes.size then node else T.vertex w :=
  vertex_push node w

theorem region_lodge {r : RegionId} (h : r.index < T.regionNodes.size) (node : VertexNode)
    (s : RegionId) : (T.lodge r node).region s = if s = r then
      { T.region s with vertices := (T.region s).vertices ++ [⟨T.vertexNodes.size⟩] }
    else T.region s :=
  region_modifyRegion_of_lt (T := { T with vertexNodes := T.vertexNodes.push node }) h s _

theorem size_lodge (r : RegionId) (node : VertexNode) :
    (T.lodge r node).vertexNodes.size = T.vertexNodes.size + 1
      ∧ (T.lodge r node).regionNodes.size = T.regionNodes.size :=
  ⟨Array.size_push .., Array.size_modify ..⟩

theorem WellFormed.lodge (hT : T.WellFormed) {node : VertexNode} {r : RegionId}
    (hp : node.parent = some r) (hr : r.index < T.regionNodes.size) (hrs : node.regions = [])
    (hd : node.defaultRegion = none) (ho : node.outgoing = []) : (T.lodge r node).WellFormed := by
  refine (hT.pushVertex hp hr hrs hd ho).listVertex ?_ ?_ ?_
  · rw [Array.size_push]; exact Nat.lt_succ_self _
  · rw [vertex_push, if_pos rfl]; exact hp
  · exact fun hm => absurd (hT.mem_vertices r _ hm).1 (Nat.lt_irrefl _)

theorem WellFormed.addVertex (hT : T.WellFormed) {place : Place} (h : T.Valid place)
    (name : String) (kind : VertexKind) : (T.addVertex name place kind).2.WellFormed := by
  obtain ⟨hU, hr, -⟩ := hT.regionAt h
  exact hU.lodge rfl hr rfl rfl rfl

/-! ### Transitions -/

theorem WellFormed.pushTransition (hT : T.WellFormed) (node : TransitionNode) :
    WellFormed { T with transitionNodes := T.transitionNodes.push node } where
  root_lt := hT.root_lt
  root_parent := hT.root_parent
  root_kind := hT.root_kind
  eq_root := hT.eq_root
  parent_lt := hT.parent_lt
  region_parent_lt := hT.region_parent_lt
  mem_vertices := hT.mem_vertices
  mem_regions := hT.mem_regions
  nodup_vertices := hT.nodup_vertices
  nodup_regions := hT.nodup_regions
  default_lt := hT.default_lt
  isState_of_regions := hT.isState_of_regions
  mem_outgoing v t h := by
    obtain ⟨hlt, hsource⟩ := hT.mem_outgoing v t h
    rw [Array.size_push, transition_push, if_neg (Nat.ne_of_lt hlt)]
    exact ⟨Nat.lt_succ_of_lt hlt, hsource⟩

/-- A transition may be listed by its source. -/
theorem WellFormed.listTransition (hT : T.WellFormed) {v : VertexId} {t : TransitionId}
    (ht : t.index < T.transitionNodes.size) (hs : (T.transition t).source = v) :
    (T.modifyVertex v fun node => { node with outgoing := node.outgoing ++ [t] }).WellFormed := by
  refine hT.modifyVertex (fun _ => rfl) (fun _ => rfl) { hT.listsOwn v with
    mem_outgoing := fun u hu => ?_ }
  rcases List.mem_append.1 hu with hu | hu
  · exact hT.mem_outgoing v u hu
  · exact List.mem_singleton.1 hu ▸ ⟨ht, hs⟩

/-- The topology with a transition put into the list of its source. -/
def issue (T : Topology) (node : TransitionNode) : Topology :=
  { T with transitionNodes := T.transitionNodes.push node }.modifyVertex node.source fun n =>
    { n with outgoing := n.outgoing ++ [(⟨T.transitionNodes.size⟩ : TransitionId)] }

theorem WellFormed.issue (hT : T.WellFormed) (node : TransitionNode) : (T.issue node).WellFormed := by
  refine (hT.pushTransition node).listTransition ?_ ?_
  · rw [Array.size_push]; exact Nat.lt_succ_self _
  · rw [transition_push, if_pos rfl]

theorem WellFormed.addTransition (hT : T.WellFormed) (source : VertexId)
    (target : Option VertexId) (kind : TransitionKind) :
    (T.addTransition source target kind).2.WellFormed := by
  have hU := hT.issue ⟨source, target, effectiveKind target kind, false⟩
  unfold Topology.addTransition
  cases target with
  | none => exact hU
  | some target =>
    exact (Trims.modifyVertex _ target rfl rfl (fun _ h => .inl h) (.refl _) (.refl _)).wellFormed hU

/-! ## Changes and removals -/

theorem trims_setTransitionKind (t : TransitionId) (kind : TransitionKind) :
    T.Trims (T.setTransitionKind t kind) :=
  Trims.modifyTransition T t rfl

theorem trims_detachTransition (T : Topology) (t : TransitionId) :
    T.Trims (T.detachTransition t) := by
  have h := (Trims.modifyTransition T t (f := fun node => { node with detached := true }) rfl).trans
    (Trims.modifyVertex _ (T.transition t).source
      (f := fun node => { node with outgoing := node.outgoing.filter (· ≠ t) })
      rfl rfl (fun _ h => .inl h) (.refl _) List.filter_sublist)
  unfold detachTransition
  dsimp only
  split
  · exact h.trans (Trims.modifyVertex _ _ rfl rfl (fun _ h => .inl h) (.refl _) (.refl _))
  · exact h

theorem trims_detachBareVertex (T : Topology) (v : VertexId) : T.Trims (T.detachBareVertex v) := by
  have h := Trims.foldl trims_detachTransition ((T.vertex v).outgoing ++ (T.vertex v).incoming) T
  unfold detachBareVertex
  dsimp only
  refine Trims.trans ?_ (Trims.modifyVertex _ v rfl rfl (fun _ h => .inl h) (.refl _) (.refl _))
  split
  · exact h.trans (Trims.modifyRegion _ _ rfl List.filter_sublist)
  · exact h

theorem trims_detachBareRegion (T : Topology) (r : RegionId) : T.Trims (T.detachBareRegion r) :=
  (Trims.modifyVertex T _ rfl rfl (fun _ h => .inl h) List.filter_sublist (.refl _)).trans
    (Trims.modifyRegion _ r rfl (.refl _))

theorem trims_detachRegionBy {detach : Topology → VertexId → Topology}
    (h : ∀ T v, Trims T (detach T v)) (T : Topology) (r : RegionId) :
    T.Trims (T.detachRegionBy detach r) :=
  (Trims.foldl h _ T).trans (trims_detachBareRegion _ r)

theorem trims_detachVertexWithin :
    ∀ (n : Nat) (T : Topology) (v : VertexId), T.Trims (detachVertexWithin n T v)
  | 0, T, v => trims_detachBareVertex T v
  | n + 1, T, v =>
    (Trims.foldl (fun T r => trims_detachRegionBy (trims_detachVertexWithin n) T r) _ T).trans
      (trims_detachBareVertex _ v)

theorem trims_detachVertex (v : VertexId) : T.Trims (T.detachVertex v) :=
  trims_detachVertexWithin _ T v

theorem trims_detachRegion (r : RegionId) : T.Trims (T.detachRegion r) :=
  trims_detachRegionBy (trims_detachVertexWithin _) T r

end Topology

end Hsm
