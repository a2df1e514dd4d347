import Hsm.Proofs.Machine.Reachable
import Hsm.Proofs.Program.Layout

/-!
# What compiling yields

The steps of a compiled program are given by equations, element by element, that say nothing of
the order in which the draft visits elements and copies their steps (`Machine.Prescribes`). They
determine the steps of every element (`Prescribes.get?_eq`), and the compiled program satisfies
them (`compile_prescribed`).
-/

namespace Hsm

variable {σ : Type}

namespace Topology

variable {T : Topology}

/-- A deep history is the entry point of a region strictly above `r`. -/
def BelowDeep (T : Topology) (r : RegionId) : Prop :=
  ∃ s, s ≠ r ∧ .region s ∈ T.ancestry (.region r) ∧ T.entersDeep s

theorem WellFormed.belowDeep_iff (hT : T.WellFormed) (r : RegionId) :
    T.BelowDeep r ↔ T.deepAbove (T.region r).parent := by
  have hne : ∀ s, .region s ∈ T.ancestry (.vertex (T.region r).parent) → s ≠ r := fun s hs he =>
    Forest.not_mem_ancestors_of_parent (F := T.ownership) (b := .region r) rfl hs (he ▸ rfl)
  simp only [BelowDeep, deepAbove, WellFormed.ancestry_region, List.mem_append, List.mem_singleton,
    Element.region.injEq, List.any_eq_true]
  constructor
  · rintro ⟨s, hsr, hs, hdeep⟩
    obtain ⟨w, hw, hp⟩ := (hT.region_mem_ancestry s _).1 (hs.resolve_right hsr)
    exact ⟨w, hw, hp ▸ hdeep⟩
  · rintro ⟨w, hw, hany⟩
    obtain ⟨s, hp, hdeep⟩ := (Option.any_eq_true _ _).1 hany
    have hs := (hT.region_mem_ancestry s _).2 ⟨w, hw, hp⟩
    exact ⟨s, hne s hs, .inl hs, hdeep⟩

end Topology

namespace Machine

variable {M : Machine σ} {P Q : Program σ}

/-- The program holds steps for what is in the model and for nothing else, and the steps of each
element are put together from those of its children. The entry of a region copies that of its
entry point, unless that is a history or a deep history is the entry point of a region above. -/
structure Prescribes (M : Machine σ) (P : Program σ) : Prop where
  elements : ∀ e, (P.elements.get? e).isSome ↔ M.topology.Listed e
  traversals : ∀ t, (P.traversals.get? t).isSome ↔ t ∈ M.topology.transitions
  leave_region : ∀ r ∈ M.topology.regions,
    P.leave (.region r) = [.leaveActive r, .leave (.region r)]
  beginEnter_region : ∀ r ∈ M.topology.regions, P.beginEnter (.region r) = [.enter (.region r)]
  copied_region : ∀ r ∈ M.topology.regions, ∀ i, M.topology.regionInitial r = some i →
    ¬M.topology.isHistory i → ¬M.topology.BelowDeep r →
      P.endEnter (.region r) = P.beginEnter (.vertex i) ++ P.endEnter (.vertex i)
  decided_region : ∀ r ∈ M.topology.regions, (∀ i, M.topology.regionInitial r = some i →
    M.topology.isHistory i ∨ M.topology.BelowDeep r) →
      P.endEnter (.region r) = [.enterRegion r (M.topology.regionInitial r)]
  leave_state : ∀ v ∈ M.topology.vertices, M.topology.isState v →
    P.leave (.vertex v) = (M.topology.vertex v).regions.flatMap (fun r => P.leave (.region r)) ++
      .leave (.vertex v) :: (M.stateBehavior v).exit.map .behavior
  beginEnter_state : ∀ v ∈ M.topology.vertices, M.topology.isState v →
    P.beginEnter (.vertex v) = .enter (.vertex v) ::
      (M.topology.vertex v).parent.toList.map (.setCurrent · v) ++
        (M.stateBehavior v).entry.map .behavior
  endEnter_state : ∀ v ∈ M.topology.vertices, M.topology.isState v →
    P.endEnter (.vertex v) = (M.topology.vertex v).regions.flatMap fun r =>
      P.beginEnter (.region r) ++ P.endEnter (.region r)
  leave_pseudo : ∀ v ∈ M.topology.vertices, ∀ k, M.topology.kind v = .pseudo k →
    P.leave (.vertex v) = [.leave (.vertex v)]
  beginEnter_pseudo : ∀ v ∈ M.topology.vertices, ∀ k, M.topology.kind v = .pseudo k →
    P.beginEnter (.vertex v) = .enter (.vertex v) ::
      (M.topology.vertex v).parent.toList.map (.setCurrent · v) ++
        if k = .terminate then [.terminate] else []
  endEnter_pseudo : ∀ v ∈ M.topology.vertices, ∀ k, M.topology.kind v = .pseudo k →
    P.endEnter (.vertex v) = if k.isInitial then [.resume v] else []

theorem currentSteps_eq (v : VertexId) :
    M.currentSteps v = (M.topology.vertex v).parent.toList.map (.setCurrent · v) := by
  unfold currentSteps
  cases (M.topology.vertex v).parent <;> rfl

theorem compile_prescribes (hT : M.topology.WellFormed) : M.Prescribes M.compile where
  elements e := by
    by_cases he : M.topology.Listed e
    · simp [he, get?_compile hT he]
    · simp [he, get?_compile_of_not_listed hT he]
  traversals t := by
    rw [get?_traversals_compile]
    split <;> simp [*]
  leave_region _ hr := leave_region hT hr
  beginEnter_region _ hr := beginEnter_region hT hr
  copied_region r hr i hi hh hd := by
    rw [hT.belowDeep_iff] at hd
    rw [endEnter_region hT hr]
    simp [regionEntry, hi, hh, hd, Program.enter]
  decided_region r hr h := by
    rw [endEnter_region hT hr]
    unfold regionEntry
    cases hi : M.topology.regionInitial r with
    | none => rfl
    | some i =>
      have hi := h i hi
      rw [hT.belowDeep_iff] at hi
      rcases hi with hi | hi <;> simp [hi]
  leave_state v hv hs := leave_state hT hv hs
  beginEnter_state v hv hs := currentSteps_eq (M := M) v ▸ beginEnter_state hT hv hs
  endEnter_state v hv hs := endEnter_state hT hv hs
  leave_pseudo v hv k hk := leave_pseudo hT hv hk
  beginEnter_pseudo v hv k hk := currentSteps_eq (M := M) v ▸ beginEnter_pseudo hT hv hk
  endEnter_pseudo v hv k hk := endEnter_pseudo hT hv hk

theorem elementSteps_ext : ∀ {a b : ElementSteps σ}, a.leave = b.leave →
    a.beginEnter = b.beginEnter → a.endEnter = b.endEnter → a = b
  | ⟨_, _, _⟩, ⟨_, _, _⟩, rfl, rfl, rfl => rfl

namespace Prescribes

variable (hT : M.topology.WellFormed) (hP : M.Prescribes P) (hQ : M.Prescribes Q)
include hT hP hQ

/-- The equations leave no choice for an element once its children have their steps. -/
theorem steps_eq : ∀ e, M.topology.Listed e → P.steps e = Q.steps e := by
  refine hT.children_induction fun e he ih => ?_
  suffices h : P.leave e = Q.leave e ∧ P.beginEnter e = Q.beginEnter e ∧
      P.endEnter e = Q.endEnter e from elementSteps_ext h.1 h.2.1 h.2.2
  cases e with
  | region r =>
    refine ⟨?_, ?_, ?_⟩
    · rw [hP.leave_region r he, hQ.leave_region r he]
    · rw [hP.beginEnter_region r he, hQ.beginEnter_region r he]
    · by_cases h : ∀ i, M.topology.regionInitial r = some i →
        M.topology.isHistory i ∨ M.topology.BelowDeep r
      · rw [hP.decided_region r he h, hQ.decided_region r he h]
      · push Not at h
        obtain ⟨i, hi, hh, hd⟩ := h
        have hsteps := ih (.vertex i) (List.mem_map_of_mem (Topology.regionInitial_mem hi))
        rw [hP.copied_region r he i hi hh hd, hQ.copied_region r he i hi hh hd]
        simp only [Program.beginEnter, Program.endEnter, hsteps]
  | vertex v =>
    by_cases hs : M.topology.isState v
    · have hsteps : ∀ r ∈ (M.topology.vertex v).regions, P.steps (.region r) = Q.steps (.region r) :=
        fun r hr => ih (.region r) (List.mem_map_of_mem hr)
      have hmap : ∀ f : ElementSteps σ → List (Step σ),
          (M.topology.vertex v).regions.flatMap (fun r => f (P.steps (.region r))) =
            (M.topology.vertex v).regions.flatMap fun r => f (Q.steps (.region r)) := fun f =>
        congrArg List.flatten (List.map_congr_left fun r hr => congrArg f (hsteps r hr))
      refine ⟨?_, ?_, ?_⟩
      · rw [hP.leave_state v he hs, hQ.leave_state v he hs]
        exact congrArg (· ++ _) (hmap ElementSteps.leave)
      · rw [hP.beginEnter_state v he hs, hQ.beginEnter_state v he hs]
      · rw [hP.endEnter_state v he hs, hQ.endEnter_state v he hs]
        exact hmap fun steps => steps.beginEnter ++ steps.endEnter
    · obtain ⟨k, hk⟩ := Topology.exists_pseudo hs
      refine ⟨?_, ?_, ?_⟩
      · rw [hP.leave_pseudo v he k hk, hQ.leave_pseudo v he k hk]
      · rw [hP.beginEnter_pseudo v he k hk, hQ.beginEnter_pseudo v he k hk]
      · rw [hP.endEnter_pseudo v he k hk, hQ.endEnter_pseudo v he k hk]

/-- The equations determine the steps of all elements. -/
theorem get?_eq (e : Element) : P.elements.get? e = Q.elements.get? e := by
  by_cases he : M.topology.Listed e
  · obtain ⟨a, ha⟩ := Option.isSome_iff_exists.1 ((hP.elements e).2 he)
    obtain ⟨b, hb⟩ := Option.isSome_iff_exists.1 ((hQ.elements e).2 he)
    have hsteps := hP.steps_eq hT hQ e he
    unfold Program.steps at hsteps
    rw [ha, hb] at hsteps ⊢
    exact congrArg some hsteps
  · rw [Option.not_isSome_iff_eq_none.1 (mt (hP.elements e).1 he),
      Option.not_isSome_iff_eq_none.1 (mt (hQ.elements e).1 he)]

end Prescribes

/-- However a model was built, compiling it yields what the equations say, for those elements of
which neither they nor what owns them was removed. -/
theorem compile_prescribed {allowed : Edit σ → Prop} (hM : M.Reachable allowed) :
    M.Prescribes M.compile ∧
    (∀ e, M.topology.Listed e ↔
      M.topology.Has e ∧ ∀ a ∈ M.topology.ancestry e, M.topology.isAttached a) ∧
    ∀ P, M.Prescribes P → ∀ e, P.elements.get? e = M.compile.elements.get? e :=
  ⟨compile_prescribes hM.wellFormed, fun _ => hM.marked.listed_iff,
    fun _ hP => hP.get?_eq hM.wellFormed (compile_prescribes hM.wellFormed)⟩

end Machine

/-- A state with a nested one, in a region that is entered by a deep history. -/
def remembered : Machine Unit := .build "m" {} [
  .addVertex "h" (.state ⟨0⟩) (.pseudo .deepHistory), .addVertex "a" (.state ⟨0⟩) .state,
  .addVertex "x" (.state ⟨2⟩) .state, .addTransition ⟨1⟩ (some ⟨2⟩)]

theorem remembered_prescribed :
    remembered.compile.endEnter (.region ⟨1⟩) = [.enterRegion ⟨1⟩ (some ⟨3⟩)] ∧
    remembered.compile.endEnter (.vertex ⟨1⟩) = [.resume ⟨1⟩] ∧
    ∀ a ∈ remembered.topology.ancestry (.vertex ⟨3⟩), remembered.topology.isAttached a := by
  have hM : remembered.Reachable fun _ => True := .build (by decide +kernel) fun _ _ => trivial
  obtain ⟨hprescribes, hlisted, -⟩ := Machine.compile_prescribed hM
  have hdeep : remembered.topology.BelowDeep ⟨1⟩ :=
    ⟨⟨0⟩, by decide, by decide +kernel, by decide +kernel⟩
  have hinitial : remembered.topology.regionInitial ⟨1⟩ = some ⟨3⟩ := by decide +kernel
  refine ⟨?_, ?_, ?_⟩
  · rw [← hinitial]
    exact hprescribes.decided_region ⟨1⟩ (by decide +kernel) fun _ _ => .inr hdeep
  · exact hprescribes.endEnter_pseudo ⟨1⟩ (by decide +kernel) .deepHistory (by decide +kernel)
  · exact ((hlisted (.vertex ⟨3⟩)).1 (show ⟨3⟩ ∈ remembered.topology.vertices by decide +kernel)).2

/-- A region that was removed, and then got a vertex. -/
def refilledRegion : Machine Unit := .build "m" {} [
  .addRegion "p" ⟨0⟩, .removeRegion ⟨0⟩, .addVertex "x" (.region ⟨0⟩) .state]

/-- A vertex that was not removed itself is no part of the program if its region was. -/
theorem refilledRegion_skipped : refilledRegion.Reachable (fun _ => True)
    ∧ refilledRegion.topology.Has (.vertex ⟨1⟩)
    ∧ refilledRegion.topology.isAttached (.vertex ⟨1⟩)
    ∧ (refilledRegion.compile.elements.get? (.vertex ⟨1⟩)).isSome = false :=
  ⟨.build (by decide +kernel) fun _ _ => trivial,
    show 1 < refilledRegion.topology.vertexNodes.size by decide +kernel, by decide +kernel,
    by decide +kernel⟩

end Hsm
