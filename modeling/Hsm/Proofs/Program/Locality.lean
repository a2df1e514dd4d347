import Hsm.Proofs.Program.Paths
import Hsm.Proofs.Topology.Across

/-!
# Where the steps of a program belong

Every step of leaving or entering an element is about something that is at or beneath the element
(`Step.On`). So the steps of a transition with both ends in one region are about what is in the
region: where leaving turns into entering, the common ancestry of the ends has been passed.
-/

namespace Hsm

variable {σ : Type}

/-! ## Ancestries that go through a region -/

namespace Topology.WellFormed

variable {T : Topology} (hT : T.WellFormed) {v : VertexId} {r : RegionId}
include hT

/-- The ancestry of what is in a region goes by its owner to one of its vertices, and stays in the
region from there. -/
theorem exists_split_of_along (h : T.Along v r) : ∃ a below,
    T.vertexAncestry v = T.vertexAncestry (T.region r).parent ++ a :: below ∧
      (T.vertex a).parent = some r ∧ ∀ w ∈ a :: below, T.Along w r := by
  obtain ⟨a, ha, hr⟩ := h
  obtain ⟨below, hbelow⟩ := Forest.prefix_of_mem_ancestors (F := T.stateTree) ha
  have hsplit : T.vertexAncestry v = T.vertexAncestry (T.region r).parent ++ a :: below := by
    rw [List.append_cons, ← hT.vertexAncestry_of_parent hr]
    exact hbelow.symm
  exact ⟨a, below, hsplit, hr, fun w hw =>
    ⟨a, Forest.mem_ancestors_of_append (F := T.stateTree) hsplit hw, hr⟩⟩

/-- What is in a region that lies in `r` is in `r`. -/
theorem along_iff_of_parent {s : RegionId} (h : (T.vertex v).parent = some s) :
    T.Along v r ↔ .region r ∈ T.ancestry (.region s) := by
  rw [Along, ← hT.region_mem_ancestry r v, hT.ancestry_vertex h]
  simp

theorem not_along_owner : ¬T.Along (T.region r).parent r :=
  fun h => (hT.mem_way_of_along h).2 rfl

end Topology.WellFormed

/-! ## What a step is about -/

/-- The elements that a step is about. -/
def Topology.subjects (T : Topology) : Step σ → List Element
  | .enter e | .leave e => [e]
  | .setCurrent _ v | .resume v | .completeInternal v => [.vertex v]
  | .leaveActive r | .enterRegion r _ => [.region r]
  | .traverseWithin t =>
    .vertex (T.transition t).source :: (T.transition t).target.toList.map .vertex
  | .behavior _ | .terminate => []

/-- What the step is about is at or beneath the element. -/
def Step.On (T : Topology) (a : Element) (step : Step σ) : Prop :=
  ∀ e ∈ T.subjects step, a ∈ T.ancestry e

namespace Step.On

variable {T : Topology} {a b e : Element} {step : Step σ}

theorem of_subject (h : T.subjects step = [e]) (he : a ∈ T.ancestry e) : step.On T a :=
  fun _ h' => List.mem_singleton.1 (h ▸ h') ▸ he

theorem self (h : T.subjects step = [e]) : step.On T e :=
  of_subject h (Forest.mem_ancestors_self (F := T.ownership) e)

theorem of_none (h : T.subjects step = []) : step.On T a :=
  fun _ h' => absurd (h ▸ h') List.not_mem_nil

theorem trans (h : step.On T b) (hb : a ∈ T.ancestry b) : step.On T a := fun e he =>
  Forest.mem_ancestors_trans (F := T.ownership) hb (h e he)

theorem behaviors {as : List (Action σ)} : ∀ step ∈ as.map Step.behavior, step.On T a := by
  intro step hs
  obtain ⟨_, -, rfl⟩ := List.mem_map.1 hs
  exact of_none rfl

end Step.On

namespace Machine

variable {M : Machine σ} (hT : M.topology.WellFormed)
include hT

theorem on_of_mem_children {a c : Element} {step : Step σ} (hc : c ∈ M.topology.children a)
    (h : step.On M.topology c) : step.On M.topology a :=
  h.trans ((Forest.mem_ancestors_of_parent (F := M.topology.ownership)
    (hT.owner_of_mem_children hc)).2 (.inr (Forest.mem_ancestors_self _)))

theorem LeaveStep.on {e : Element} {step : Step σ} (h : M.LeaveStep e step) :
    step.On M.topology e := by
  induction h with
  | leave | active => exact .self rfl
  | behavior => exact .of_none rfl
  | owned hr _ ih => exact on_of_mem_children hT (List.mem_map_of_mem hr) ih

omit hT in
theorem BeginStep.on {e : Element} {step : Step σ} (h : M.BeginStep e step) :
    step.On M.topology e := by
  cases h with
  | enter | setCurrent => exact .self rfl
  | behavior | terminate => exact .of_none rfl

theorem EndStep.on {e : Element} {step : Step σ} (h : M.EndStep e step) :
    step.On M.topology e := by
  induction h with
  | enterRegion | resume => exact .self rfl
  | begins hc h => exact on_of_mem_children hT hc h.on
  | ends hc _ ih => exact on_of_mem_children hT hc ih

theorem on_leave {e : Element} : ∀ step ∈ M.compile.leave e, step.On M.topology e :=
  fun _ hs => (leaveStep_of_mem hT hs).on hT

theorem on_beginEnter {e : Element} : ∀ step ∈ M.compile.beginEnter e, step.On M.topology e :=
  fun _ hs => (beginStep_of_mem hT hs).on

theorem on_endEnter {e : Element} : ∀ step ∈ M.compile.endEnter e, step.On M.topology e :=
  fun _ hs => (endStep_of_mem hT hs).on hT

/-- An entry down a path is about what is beneath its first vertex. -/
theorem on_cascade {a x : VertexId} {above rest : List VertexId}
    (h : M.topology.vertexAncestry x = above ++ a :: rest) :
    ∀ step ∈ M.compile.cascade M.topology (a :: rest), step.On M.topology (.vertex a) := by
  intro step hs
  obtain ⟨v, hv, e, he, hs⟩ := Program.mem_cascade hs
  have ha : Element.vertex a ∈ M.topology.ancestry (.vertex v) := (hT.vertex_mem_ancestry a v).2
    (Forest.mem_ancestors_of_append (F := M.topology.stateTree) h hv)
  have hon : step.On M.topology e := hs.elim (on_beginEnter hT step) (on_endEnter hT step)
  rcases he with rfl | hc
  · exact hon.trans ha
  · exact (on_of_mem_children hT hc hon).trans ha

/-- An external transition between vertices of one region changes from leaving to entering in the
region. -/
theorem splitIndex_along {source target : VertexId} {r : RegionId}
    (hs : M.topology.Along source r) (ht : M.topology.Along target r) :
    ∃ above a as b bs, M.topology.vertexAncestry source = above ++ a :: as ∧
      M.topology.vertexAncestry target = above ++ b :: bs ∧
      splitIndex (above ++ a :: as) (above ++ b :: bs) = above.length ∧
      M.topology.Along a r ∧ M.topology.Along b r := by
  obtain ⟨c, xs, hxs, -, hleave⟩ := hT.exists_split_of_along hs
  obtain ⟨d, ys, hys, -, henter⟩ := hT.exists_split_of_along ht
  obtain ⟨above, a, as, b, bs, hx, hy, hsplit, -⟩ :=
    splitIndex_parts (List.cons_ne_nil c xs) (List.cons_ne_nil d ys)
  have hcommon := splitIndex_append (M.topology.vertexAncestry (M.topology.region r).parent)
    (List.cons_ne_nil c xs) (List.cons_ne_nil d ys)
  rw [hx] at hxs hleave hcommon hsplit
  rw [hy] at hys henter hcommon hsplit
  rw [← List.append_assoc] at hxs hys
  rw [hsplit, ← List.append_assoc, ← List.append_assoc, ← List.length_append] at hcommon
  exact ⟨_, a, as, b, bs, hxs, hys, hcommon, hleave a (by simp), henter b (by simp)⟩

/-- Where both ends are in a region, the steps of a transition are about what is in it. -/
theorem on_traversal {t : TransitionId} {r : RegionId}
    (hs : M.topology.Along (M.topology.transition t).source r)
    (ht : ∀ x ∈ (M.topology.transition t).target, M.topology.Along x r) :
    ∀ step ∈ M.compile.traversal t, step.On M.topology (.region r) := by
  by_cases hmem : t ∈ M.topology.transitions
  swap
  · rw [traversal_compile_of_not_mem hmem]
    exact fun _ hstep => absurd hstep List.not_mem_nil
  have hin : ∀ {v : VertexId} {step : Step σ}, M.topology.Along v r →
      step.On M.topology (.vertex v) → step.On M.topology (.region r) := fun hv h =>
    h.trans ((hT.region_mem_ancestry _ _).2 hv)
  refine traversal_cases (p := fun steps => ∀ step ∈ steps, step.On M.topology (.region r)) hmem
    (fun _ step hstep => ?_) (fun x hx _ _ step hstep e he => ?_) fun x hx _ step hstep => ?_
  · rcases mem_internalSteps hstep with ⟨a, rfl⟩ | rfl
    · exact .of_none rfl
    · exact hin hs (.self rfl)
  · rw [List.mem_singleton.1 hstep] at he
    obtain rfl | he := List.mem_cons.1 he
    · exact (hT.region_mem_ancestry _ _).2 hs
    · obtain ⟨y, hy, rfl⟩ := List.mem_map.1 he
      exact (hT.region_mem_ancestry _ _).2 (ht y (Option.mem_toList.1 hy))
  · have hxr := ht x hx
    obtain ⟨above, a, as, b, bs, hsource, htarget, hsplit, ha, hb⟩ := splitIndex_along hT hs hxr
    rw [externalSteps_eq hsource htarget hsplit, List.mem_append, List.mem_append, List.mem_append]
      at hstep
    rcases hstep with ((h | h) | h) | h
    · exact hin ha (on_leave hT step h)
    · exact Step.On.behaviors step h
    · exact hin hb (on_cascade hT htarget step h)
    · exact hin hxr (on_endEnter hT step h)

end Machine

end Hsm
