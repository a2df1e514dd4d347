import Hsm.Proofs.Program.Locality

/-!
# Where an external transition parts

An external transition leaves one vertex of the source's ancestry with all that is beneath it, and
enters one vertex of the target's with what is beneath. The two are in the same region, or the same
vertex, unless the ends of the transition are in different regions of one state
(`external_topmost`): the ancestries of vertices say nothing of regions, so in that case they part
below the state that owns both, and nothing is left in the region that is entered.
-/

namespace Hsm

variable {σ : Type}

namespace Topology

variable (T : Topology)

/-- The vertex has the property, and all that have it are at or beneath the vertex. -/
def Topmost (p : VertexId → Prop) (v : VertexId) : Prop :=
  p v ∧ ∀ w, p w → v ∈ T.vertexAncestry w

variable {T}

namespace WellFormed

variable (hT : T.WellFormed) {source target a b : VertexId} {above as bs : List VertexId}
include hT

/-- A vertex that comes after others in an ancestry is in a region of the last of them. -/
theorem exists_region_of_append (hs : source ∈ T.vertices) {c : VertexId}
    (h : T.vertexAncestry source = above ++ [c] ++ a :: as) :
    ∃ q, (T.vertex a).parent = some q ∧ (T.region q).parent = c := by
  rw [List.append_assoc] at h
  obtain ⟨q, -, hq, hc⟩ := hT.region_of_suffix hs ⟨above, h.symm⟩
  exact ⟨q, hq, hc⟩

/-- Paths that part in one region lead nowhere in different regions of one state: such regions would
lie either above the parting or beneath one vertex that both paths go on from. -/
theorem not_across_of_parts (hs : T.vertexAncestry source = above ++ a :: as)
    (ht : T.vertexAncestry target = above ++ b :: bs) (hend : a = b → as = [] ∨ bs = [])
    {q : RegionId} (ha : (T.vertex a).parent = some q) (hb : (T.vertex b).parent = some q) :
    ¬T.Across source target := by
  intro hacross
  obtain ⟨q', r', ⟨c, hc, hcq⟩, ⟨d, hd, hdr⟩, hne, howner⟩ := across_iff.1 hacross
  have has : a ∈ T.vertexAncestry source := hs ▸ List.mem_append_right _ List.mem_cons_self
  have hbt : b ∈ T.vertexAncestry target := ht ▸ List.mem_append_right _ List.mem_cons_self
  have hsame : ∀ s, T.Along a s ↔ T.Along b s := fun s =>
    (hT.along_iff_of_parent ha).trans (hT.along_iff_of_parent hb).symm
  have habove : c ∉ T.vertexAncestry a := fun h =>
    hne (hT.eq_of_along (((hsame q').1 ⟨c, h, hcq⟩).of_mem hbt) ⟨d, hd, hdr⟩ howner)
  have hbelow : d ∉ T.vertexAncestry b := fun h =>
    hne (hT.eq_of_along ⟨c, hc, hcq⟩ (((hsame r').2 ⟨d, h, hdr⟩).of_mem has) howner)
  have hac := (Forest.mem_ancestors_total (F := T.stateTree) has hc).resolve_right habove
  have hbd := (Forest.mem_ancestors_total (F := T.stateTree) hbt hd).resolve_right hbelow
  have hao := ((hT.mem_vertexAncestry_of_parent hcq).1 hac).resolve_left fun h =>
    habove (h ▸ mem_vertexAncestry_self _)
  have hbo := ((hT.mem_vertexAncestry_of_parent hdr).1 hbd).resolve_left fun h =>
    hbelow (h ▸ mem_vertexAncestry_self _)
  rcases hend (hT.eq_of_mem_way hao (howner ▸ hbo) ha hb rfl) with rfl | rfl
  · exact habove (eq_of_suffix_singleton ⟨above, hs.symm⟩ ▸ hc)
  · exact hbelow (eq_of_suffix_singleton ⟨above, ht.symm⟩ ▸ hd)

end WellFormed

end Topology

namespace Machine

variable {M : Machine σ} (hT : M.topology.WellFormed)
include hT

/-- Where the ancestries of the ends part, each goes on in a region of the same state. -/
theorem external_parts {source target : VertexId} (hs : source ∈ M.topology.vertices)
    (ht : target ∈ M.topology.vertices) (hs₀ : source ≠ Topology.root)
    (ht₀ : target ≠ Topology.root) :
    ∃ above a as b bs q r, M.topology.vertexAncestry source = above ++ a :: as ∧
      M.topology.vertexAncestry target = above ++ b :: bs ∧
      splitIndex (above ++ a :: as) (above ++ b :: bs) = above.length ∧
      (M.topology.vertex a).parent = some q ∧ (M.topology.vertex b).parent = some r ∧
      (q = r ↔ ¬M.topology.Across source target) := by
  obtain ⟨above, a, as, b, bs, hsource, htarget, hsplit, hend⟩ := splitIndex_parts
    (Topology.vertexAncestry_ne_nil (T := M.topology) source)
    (Topology.vertexAncestry_ne_nil (T := M.topology) target)
  rw [hsource, htarget] at hsplit
  have hnil : above ≠ [] := by
    rintro rfl
    have hroot : ∀ {x c : VertexId} {cs}, x ∈ M.topology.vertices → x ≠ Topology.root →
        M.topology.vertexAncestry x = c :: cs → c = Topology.root ∧ cs ≠ [] := by
      intro x c cs hx hx₀ h
      obtain ⟨rest, hrest⟩ := Forest.prefix_of_mem_ancestors (F := M.topology.stateTree)
        (hT.root_mem_vertexAncestry hx)
      have hcons : [Topology.root] ++ rest = c :: cs :=
        (hT.vertexAncestry_root ▸ hrest : _ = M.topology.vertexAncestry x).trans h
      refine ⟨(List.cons.inj hcons).1.symm, ?_⟩
      rintro rfl
      exact hx₀ ((Topology.eq_of_suffix_singleton ⟨[], h.symm⟩).symm.trans
        (List.cons.inj hcons).1.symm)
    obtain ⟨ha, has⟩ := hroot hs hs₀ hsource
    obtain ⟨hb, hbs⟩ := hroot ht ht₀ htarget
    exact (hend (ha.trans hb.symm)).elim has hbs
  rw [← List.dropLast_append_getLast hnil] at hsource htarget
  obtain ⟨q, hq, hqo⟩ := hT.exists_region_of_append hs hsource
  obtain ⟨r, hr, hro⟩ := hT.exists_region_of_append ht htarget
  rw [List.dropLast_append_getLast hnil] at hsource htarget
  refine ⟨above, a, as, b, bs, q, r, hsource, htarget, hsplit, hq, hr, fun h => ?_, fun h => ?_⟩
  · exact hT.not_across_of_parts hsource htarget hend hq (h ▸ hr)
  · refine Classical.byContradiction fun hne => h (Topology.across_iff.2 ⟨q, r, ⟨a, ?_, hq⟩,
      ⟨b, ?_, hr⟩, hne, hqo.trans hro.symm⟩)
    · rw [hsource]; simp
    · rw [htarget]; simp

end Machine

/-! ## What is left and what is entered -/

namespace Step

/-- Steps of leaving. -/
def Exits : Step σ → Prop
  | .leave _ | .leaveActive _ | .behavior _ => True
  | _ => False

/-- Steps of entering. -/
def Enters : Step σ → Prop
  | .enter _ | .setCurrent _ _ | .behavior _ | .enterRegion _ _ | .resume _ | .terminate => True
  | _ => False

theorem exits_behaviors (as : List (Action σ)) : ∀ step ∈ as.map Step.behavior, step.Exits := by
  intro step hs
  obtain ⟨a, -, rfl⟩ := List.mem_map.1 hs
  trivial

end Step

namespace Machine

variable {M : Machine σ}

theorem LeaveStep.exits {e : Element} {step : Step σ} (h : M.LeaveStep e step) : step.Exits := by
  induction h with
  | leave | active | behavior => trivial
  | owned _ _ ih => exact ih

theorem BeginStep.enters {e : Element} {step : Step σ} (h : M.BeginStep e step) :
    step.Enters := by
  cases h <;> trivial

theorem EndStep.enters {e : Element} {step : Step σ} (h : M.EndStep e step) : step.Enters := by
  induction h with
  | enterRegion | resume => trivial
  | begins _ h => exact h.enters
  | ends _ _ ih => exact ih

variable (hT : M.topology.WellFormed)
include hT

theorem exits_leave {e : Element} : ∀ step ∈ M.compile.leave e, step.Exits :=
  fun _ hs => (leaveStep_of_mem hT hs).exits

theorem enters_beginEnter {e : Element} : ∀ step ∈ M.compile.beginEnter e, step.Enters :=
  fun _ hs => (beginStep_of_mem hT hs).enters

theorem enters_endEnter {e : Element} : ∀ step ∈ M.compile.endEnter e, step.Enters :=
  fun _ hs => (endStep_of_mem hT hs).enters

theorem leave_mem {v : VertexId} (hv : v ∈ M.topology.vertices) :
    .leave (.vertex v) ∈ M.compile.leave (.vertex v) := by
  rw [leave_vertex hT hv]
  exact List.mem_append_right _ List.mem_cons_self

theorem enter_mem {v : VertexId} (hv : v ∈ M.topology.vertices) :
    .enter (.vertex v) ∈ M.compile.beginEnter (.vertex v) := by
  obtain ⟨rest, hrest, -⟩ := exists_beginEnter_vertex hT hv
  exact hrest ▸ List.mem_cons_self

/-- Up to the effects of an external transition, all steps leave what is beneath one vertex. -/
theorem exits_of_mem_leaving {a : VertexId} {effects : List (Action σ)} {step : Step σ}
    (h : step ∈ M.compile.leave (.vertex a) ++ effects.map .behavior) :
    step.Exits ∧ step.On M.topology (.vertex a) := by
  rcases List.mem_append.1 h with h | h
  · exact ⟨exits_leave hT step h, on_leave hT step h⟩
  · exact ⟨Step.exits_behaviors _ step h, Step.On.behaviors step h⟩

/-- From the effects of an external transition on, all steps enter what is beneath one vertex. -/
theorem enters_of_mem_entering {x b : VertexId} {above bs : List VertexId}
    (hx : M.topology.vertexAncestry x = above ++ b :: bs) {step : Step σ}
    (h : step ∈ M.compile.cascade M.topology (b :: bs) ++ M.compile.endEnter (.vertex x)) :
    step.Enters ∧ step.On M.topology (.vertex b) := by
  have hbx : b ∈ M.topology.vertexAncestry x := hx ▸ List.mem_append_right _ List.mem_cons_self
  rcases List.mem_append.1 h with h | h
  · obtain ⟨-, -, e, -, he⟩ := Program.mem_cascade h
    exact ⟨he.elim (enters_beginEnter hT step) (enters_endEnter hT step), on_cascade hT hx step h⟩
  · exact ⟨enters_endEnter hT step h,
      (on_endEnter hT step h).trans ((hT.vertex_mem_ancestry b x).2 hbx)⟩

/-- The topmost vertex that an external transition leaves and the topmost that it enters are the
same or in the same region, exactly if the ends of the transition are not in different regions of
one state. -/
theorem external_topmost {t : TransitionId} (ht : t ∈ M.topology.transitions)
    (hkind : (M.topology.transition t).kind = .external) {x : VertexId}
    (hx : (M.topology.transition t).target = some x) (hxv : x ∈ M.topology.vertices)
    (hs₀ : (M.topology.transition t).source ≠ Topology.root) (hx₀ : x ≠ Topology.root) :
    ∃ v w, M.topology.Topmost (fun u => .leave (.vertex u) ∈ M.compile.traversal t) v ∧
      M.topology.Topmost (fun u => .enter (.vertex u) ∈ M.compile.traversal t) w ∧
      (v = w ∨ (M.topology.vertex v).parent = (M.topology.vertex w).parent ↔
        ¬M.topology.Across (M.topology.transition t).source x) := by
  have hs := (hT.source_of_mem_transitions ht).1
  obtain ⟨above, a, as, b, bs, q, r, hsource, htarget, hsplit, hq, hr, hacross⟩ :=
    external_parts hT hs hxv hs₀ hx₀
  have hbx : b ∈ M.topology.vertexAncestry x := htarget ▸ List.mem_append_right _ List.mem_cons_self
  have hav := hT.mem_vertices_of_mem_vertexAncestry hs
    (hsource ▸ List.mem_append_right _ List.mem_cons_self : a ∈ _)
  have hbv := hT.mem_vertices_of_mem_vertexAncestry hxv hbx
  have hsteps : M.compile.traversal t = M.compile.leave (.vertex a) ++
      (M.effects t).map .behavior ++ M.compile.cascade M.topology (b :: bs) ++
        M.compile.endEnter (.vertex x) := by
    rw [traversal_compile ht, ← externalSteps_eq hsource htarget hsplit]
    unfold traversalSteps
    simp only [hkind, hx]
  rw [hsteps, List.append_assoc]
  refine ⟨a, b, ⟨?_, fun w hw => ?_⟩, ⟨?_, fun w hw => ?_⟩, ?_⟩
  · exact List.mem_append_left _ (List.mem_append_left _ (leave_mem hT hav))
  · rcases List.mem_append.1 hw with h | h
    · exact (hT.vertex_mem_ancestry a w).1 ((exits_of_mem_leaving hT h).2 _ List.mem_cons_self)
    · exact (enters_of_mem_entering hT htarget h).1.elim
  · refine List.mem_append_right _ (List.mem_append_left _ ?_)
    cases bs <;> simp [Program.cascade, enter_mem hT hbv]
  · rcases List.mem_append.1 hw with h | h
    · exact (exits_of_mem_leaving hT h).1.elim
    · exact (hT.vertex_mem_ancestry b w).1
        ((enters_of_mem_entering hT htarget h).2 _ List.mem_cons_self)
  · rw [← hacross, hq, hr, Option.some.injEq, or_iff_right_iff_imp]
    rintro rfl
    exact Option.some.inj (hq.symm.trans hr)

end Machine

end Hsm
