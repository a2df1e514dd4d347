import Hsm.Proofs.Program.Layout

/-!
# The steps of a compiled program

Which steps leave an element, and which begin and end its entry, is said once, with the place in the
model that each of them has (`Machine.LeaveStep`, `Machine.BeginStep`, `Machine.EndStep`); what holds
of all steps of a program follows by cases (`all_fits`). Where the order of the steps matters, the
end of an entry is taken apart by induction over what is owned (`endEnter_induction`), and the steps
along a transition by its kind (`traversal_cases`).
-/

namespace Hsm

variable {σ : Type}

/-- Steps that change no configuration: they tell, run behavior, or leave. -/
def Step.Inert : Step σ → Prop
  | .enter _ | .leave _ | .behavior _ | .leaveActive _ => True
  | _ => False

theorem Step.inert_behaviors (as : List (Action σ)) : ∀ step ∈ as.map Step.behavior, step.Inert := by
  intro step hs
  obtain ⟨a, -, rfl⟩ := List.mem_map.1 hs
  trivial

/-- Every step of the program has the property. -/
structure Program.All (p : Step σ → Prop) (P : Program σ) : Prop where
  leave : ∀ e, ∀ step ∈ P.leave e, p step
  beginEnter : ∀ e, ∀ step ∈ P.beginEnter e, p step
  endEnter : ∀ e, ∀ step ∈ P.endEnter e, p step
  traversal : ∀ t, ∀ step ∈ P.traversal t, p step

theorem Program.mem_cascade {T : Topology} {P : Program σ} {step : Step σ} :
    ∀ {path : List VertexId}, step ∈ P.cascade T path →
      ∃ v ∈ path, ∃ e, (e = .vertex v ∨ e ∈ T.children (.vertex v)) ∧
        (step ∈ P.beginEnter e ∨ step ∈ P.endEnter e)
  | [], hs => absurd hs List.not_mem_nil
  | [v], hs => ⟨v, List.mem_cons_self, .vertex v, .inl rfl, .inl hs⟩
  | v :: w :: rest, hs => by
    rw [cascade, List.mem_append, List.mem_append] at hs
    rcases hs with (hs | hs) | hs
    · exact ⟨v, List.mem_cons_self, .vertex v, .inl rfl, .inl hs⟩
    · split at hs
      · obtain ⟨r, hr, hs⟩ := List.mem_flatMap.1 hs
        refine ⟨v, List.mem_cons_self, .region r, .inr (List.mem_map_of_mem hr), ?_⟩
        rcases List.mem_append.1 hs with hs | hs
        · exact .inl hs
        · split at hs
          · exact absurd hs List.not_mem_nil
          · exact .inr hs
      · exact absurd hs List.not_mem_nil
    · obtain ⟨u, hu, h⟩ := mem_cascade hs
      exact ⟨u, List.mem_cons_of_mem _ hu, h⟩

theorem Program.All.cascade {p : Step σ → Prop} {P : Program σ} (h : P.All p) (T : Topology)
    (path : List VertexId) : ∀ step ∈ P.cascade T path, p step := by
  intro step hs
  obtain ⟨-, -, e, -, hs | hs⟩ := P.mem_cascade hs
  · exact h.beginEnter e step hs
  · exact h.endEnter e step hs

theorem Program.All.mono {p q : Step σ → Prop} {P : Program σ} (h : P.All p)
    (hpq : ∀ step, p step → q step) : P.All q :=
  ⟨fun e step hs => hpq step (h.leave e step hs), fun e step hs => hpq step (h.beginEnter e step hs),
    fun e step hs => hpq step (h.endEnter e step hs),
    fun t step hs => hpq step (h.traversal t step hs)⟩

/-- The initialisation is the entry of the root. -/
theorem Program.All.onInitialise {p : Step σ → Prop} {M : Machine σ} (h : M.compile.All p) :
    ∀ step ∈ M.compile.onInitialise, p step :=
  fun step hs => (List.mem_append.1 hs).elim (h.beginEnter _ step) (h.endEnter _ step)

namespace Machine

variable (M : Machine σ)

/-! ## The steps of an element -/

/-- What runs when the element is left. -/
def exits : Element → List (Action σ)
  | .region _ => []
  | .vertex v => if M.topology.isState v then (M.stateBehavior v).exit else []

/-- The steps that leave an element. A state leaves its regions, but not what is current there. -/
inductive LeaveStep : Element → Step σ → Prop
  | leave {e : Element} (he : M.topology.Listed e) : LeaveStep e (.leave e)
  | active {r : RegionId} (hr : r ∈ M.topology.regions) : LeaveStep (.region r) (.leaveActive r)
  | behavior (v : VertexId) (a : Action σ) : LeaveStep (.vertex v) (.behavior a)
  | owned {v : VertexId} {r : RegionId} {step : Step σ} (hr : r ∈ (M.topology.vertex v).regions)
      (h : LeaveStep (.region r) step) : LeaveStep (.vertex v) step

/-- The steps that begin the entry of an element. -/
inductive BeginStep : Element → Step σ → Prop
  | enter {e : Element} (he : M.topology.Listed e) : BeginStep e (.enter e)
  | setCurrent {v : VertexId} {r : RegionId} (hv : v ∈ M.topology.vertices)
      (hr : (M.topology.vertex v).parent = some r) : BeginStep (.vertex v) (.setCurrent r v)
  | behavior (v : VertexId) (a : Action σ) : BeginStep (.vertex v) (.behavior a)
  | terminate (v : VertexId) : BeginStep (.vertex v) .terminate

/-- The steps that end the entry of an element: what is decided when they are run, and the entries
of what it owns. -/
inductive EndStep : Element → Step σ → Prop
  | enterRegion {r : RegionId} (hr : r ∈ M.topology.regions) :
      EndStep (.region r) (.enterRegion r (M.topology.regionInitial r))
  | resume {v : VertexId} {k : PseudoKind} (hv : v ∈ M.topology.vertices)
      (hk : M.topology.kind v = .pseudo k) (hi : k.isInitial) : EndStep (.vertex v) (.resume v)
  | begins {e c : Element} {step : Step σ} (hc : c ∈ M.topology.children e)
      (h : M.BeginStep c step) : EndStep e step
  | ends {e c : Element} {step : Step σ} (hc : c ∈ M.topology.children e)
      (h : EndStep c step) : EndStep e step

variable {M}

section

variable (hT : M.topology.WellFormed)
include hT

/-- Only elements that are in the model have steps. -/
theorem listed_of_mem_steps {e : Element} {step : Step σ} (h : step ∈ M.compile.leave e ∨
    step ∈ M.compile.beginEnter e ∨ step ∈ M.compile.endEnter e) : M.topology.Listed e := by
  refine Classical.byContradiction fun he => ?_
  simp only [Program.leave, Program.beginEnter, Program.endEnter,
    steps_compile_of_not_listed hT he, List.not_mem_nil, or_self] at h

/-- A vertex is left with its regions first, whether or not it may have some. -/
theorem leave_vertex {v : VertexId} (hv : v ∈ M.topology.vertices) :
    M.compile.leave (.vertex v) =
      (M.topology.vertex v).regions.flatMap (fun r => M.compile.leave (.region r)) ++
        .leave (.vertex v) :: (M.exits (.vertex v)).map .behavior := by
  by_cases hstate : M.topology.isState v
  · rw [leave_state hT hv hstate, exits, if_pos hstate]
  · obtain ⟨k, hk⟩ := Topology.exists_pseudo hstate
    have hnil : (M.topology.vertex v).regions = [] := by
      by_contra h
      exact hstate (hT.isState_of_regions v h)
    rw [leave_pseudo hT hv hk, exits, if_neg hstate, hnil]
    rfl

/-- A vertex is entered, becomes current, and runs its behavior or ends the run. -/
theorem exists_beginEnter_vertex {v : VertexId} (hv : v ∈ M.topology.vertices) :
    ∃ rest, M.compile.beginEnter (.vertex v) = .enter (.vertex v) :: M.currentSteps v ++ rest ∧
      ((∃ as : List (Action σ), rest = as.map .behavior) ∨ rest = [.terminate]) := by
  by_cases hstate : M.topology.isState v
  · exact ⟨_, beginEnter_state hT hv hstate, .inl ⟨_, rfl⟩⟩
  · obtain ⟨k, hk⟩ := Topology.exists_pseudo hstate
    refine ⟨_, beginEnter_pseudo hT hv hk, ?_⟩
    split
    · exact .inr rfl
    · exact .inl ⟨[], rfl⟩

theorem leaveStep_of_mem {e : Element} {step : Step σ} (h : step ∈ M.compile.leave e) :
    M.LeaveStep e step := by
  have he := listed_of_mem_steps hT (.inl h)
  have hregion : ∀ r ∈ M.topology.regions, ∀ step ∈ M.compile.leave (.region r),
      M.LeaveStep (.region r) step := by
    intro r hr step hs
    rw [leave_region hT hr] at hs
    rcases List.mem_cons.1 hs with rfl | hs
    · exact .active hr
    · exact List.mem_singleton.1 hs ▸ .leave (e := .region r) hr
  cases e with
  | region r => exact hregion r he step h
  | vertex v =>
    rw [leave_vertex hT he] at h
    rcases List.mem_append.1 h with h | h
    · obtain ⟨r, hr, h⟩ := List.mem_flatMap.1 h
      exact .owned hr (hregion r (Topology.mem_regions.2 ⟨v, he, hr⟩) step h)
    · rcases List.mem_cons.1 h with rfl | h
      · exact .leave he
      · obtain ⟨a, -, rfl⟩ := List.mem_map.1 h
        exact .behavior v a

theorem beginStep_of_mem {e : Element} {step : Step σ} (h : step ∈ M.compile.beginEnter e) :
    M.BeginStep e step := by
  have he := listed_of_mem_steps hT (.inr (.inl h))
  cases e with
  | region r =>
    rw [beginEnter_region hT he] at h
    exact List.mem_singleton.1 h ▸ .enter he
  | vertex v =>
    obtain ⟨rest, hrest, hend⟩ := exists_beginEnter_vertex hT he
    rw [hrest] at h
    rcases List.mem_append.1 h with h | h
    · rcases List.mem_cons.1 h with rfl | h
      · exact .enter he
      · unfold currentSteps at h
        split at h
        · rename_i r hr
          exact List.mem_singleton.1 h ▸ .setCurrent he hr
        · exact absurd h List.not_mem_nil
    · rcases hend with ⟨as, rfl⟩ | rfl
      · obtain ⟨a, -, rfl⟩ := List.mem_map.1 h
        exact .behavior v a
      · exact List.mem_singleton.1 h ▸ .terminate v

/-- The end of an entry, from what is owned to its owners: a region enters its initial vertex or
decides when it is run, a state enters its regions, and an initial or history pseudostate goes on. -/
theorem endEnter_induction {p : Element → List (Step σ) → Prop}
    (enterRegion : ∀ r ∈ M.topology.regions,
      p (.region r) [.enterRegion r (M.topology.regionInitial r)])
    (copy : ∀ r ∈ M.topology.regions, ∀ v, M.topology.regionInitial r = some v →
      p (.vertex v) (M.compile.endEnter (.vertex v)) → p (.region r) (M.compile.enter (.vertex v)))
    (state : ∀ v ∈ M.topology.vertices, M.topology.isState v →
      (∀ r ∈ (M.topology.vertex v).regions, p (.region r) (M.compile.endEnter (.region r))) →
      p (.vertex v) ((M.topology.vertex v).regions.flatMap fun r => M.compile.enter (.region r)))
    (resume : ∀ v ∈ M.topology.vertices, ∀ k, M.topology.kind v = .pseudo k → k.isInitial →
      p (.vertex v) [.resume v])
    (rest : ∀ v ∈ M.topology.vertices, ∀ k, M.topology.kind v = .pseudo k → ¬k.isInitial →
      p (.vertex v) []) : ∀ e, M.topology.Listed e → p e (M.compile.endEnter e) := by
  refine hT.children_induction fun e he ih => ?_
  cases e with
  | region r =>
    -- unless the initial vertex is entered at once, history decides when the entry is run
    have hdecide := enterRegion r he
    rw [endEnter_region hT he]
    unfold regionEntry
    split
    · rename_i v hi
      split
      · exact copy r he v hi (ih _ (List.mem_map_of_mem (Topology.regionInitial_mem hi)))
      · exact hi ▸ hdecide
    · rename_i hi
      exact hi ▸ hdecide
  | vertex v =>
    by_cases hstate : M.topology.isState v
    · rw [endEnter_state hT he hstate]
      exact state v he hstate fun r hr => ih _ (List.mem_map_of_mem hr)
    · obtain ⟨k, hk⟩ := Topology.exists_pseudo hstate
      rw [endEnter_pseudo hT he hk]
      split
      · exact resume v he k hk ‹_›
      · exact rest v he k hk ‹_›

theorem endStep_of_mem {e : Element} {step : Step σ} (h : step ∈ M.compile.endEnter e) :
    M.EndStep e step := by
  refine endEnter_induction hT (p := fun e steps => ∀ step ∈ steps, M.EndStep e step)
    (fun r hr step hs => ?_) (fun r hr v hi ih step hs => ?_) (fun v hv _ ih step hs => ?_)
    (fun v hv k hk hi step hs => ?_) (fun v _ k _ _ step hs => absurd hs List.not_mem_nil) e
    (listed_of_mem_steps hT (.inr (.inr h))) step h
  · exact List.mem_singleton.1 hs ▸ .enterRegion hr
  · have hc : .vertex v ∈ M.topology.children (.region r) :=
      List.mem_map_of_mem (Topology.regionInitial_mem hi)
    rcases List.mem_append.1 hs with hs | hs
    · exact .begins hc (beginStep_of_mem hT hs)
    · exact .ends hc (ih step hs)
  · obtain ⟨r, hr, hs⟩ := List.mem_flatMap.1 hs
    have hc : .region r ∈ M.topology.children (.vertex v) := List.mem_map_of_mem hr
    rcases List.mem_append.1 hs with hs | hs
    · exact .begins hc (beginStep_of_mem hT hs)
    · exact .ends hc (ih r hr step hs)
  · exact List.mem_singleton.1 hs ▸ .resume hv hk hi

end

/-! ## The steps along a transition -/

variable (M) in
/-- The steps of a transition that stays where it is. -/
def internalSteps (t : TransitionId) : List (Step σ) :=
  (M.effects t).map .behavior ++ if M.settings.completeInternal then
    [.completeInternal (M.topology.transition t).source] else []

theorem mem_internalSteps {t : TransitionId} {step : Step σ} (h : step ∈ M.internalSteps t) :
    (∃ a, step = .behavior a) ∨ step = .completeInternal (M.topology.transition t).source := by
  rcases List.mem_append.1 h with h | h
  · obtain ⟨a, -, rfl⟩ := List.mem_map.1 h
    exact .inl ⟨a, rfl⟩
  · split at h
    · exact .inr (List.mem_singleton.1 h)
    · exact absurd h List.not_mem_nil

theorem mem_externalSteps {P : Program σ} {source target : VertexId} {effects : List (Action σ)}
    {step : Step σ} (h : step ∈ M.externalSteps P source target effects) :
    (∃ v, step ∈ P.leave (.vertex v)) ∨ (∃ a, step = .behavior a) ∨
      ∃ e, step ∈ P.beginEnter e ∨ step ∈ P.endEnter e := by
  unfold externalSteps at h
  rw [List.mem_append, List.mem_append, List.mem_append] at h
  rcases h with ((h | h) | h) | h
  · exact .inl ⟨_, h⟩
  · obtain ⟨a, -, rfl⟩ := List.mem_map.1 h
    exact .inr (.inl ⟨a, rfl⟩)
  · obtain ⟨-, -, e, -, h⟩ := Program.mem_cascade h
    exact .inr (.inr ⟨e, h⟩)
  · exact .inr (.inr ⟨_, .inr h⟩)

/-- Without a target, or of the internal kind, a transition stays where it is; a local one decides
its way when it is run if its target is within its source; all others leave and enter. -/
theorem traversal_cases {p : List (Step σ) → Prop} {t : TransitionId}
    (ht : t ∈ M.topology.transitions)
    (internal : (∀ x, (M.topology.transition t).target = some x →
      (M.topology.transition t).kind = .internal) → p (M.internalSteps t))
    (within : ∀ x, (M.topology.transition t).target = some x →
      (M.topology.transition t).kind = .within →
      M.staysWithin (M.topology.transition t).source x → p [.traverseWithin t])
    (external : ∀ x, (M.topology.transition t).target = some x →
      ((M.topology.transition t).kind = .within →
        ¬M.staysWithin (M.topology.transition t).source x) →
      p (M.externalSteps M.compile (M.topology.transition t).source x (M.effects t))) :
    p (M.compile.traversal t) := by
  rw [traversal_compile ht]
  unfold traversalSteps
  dsimp only
  split
  · exact internal fun _ _ => ‹_›
  · rename_i hnone _
    exact internal fun x hx => absurd (hnone.symm.trans hx) (Option.some_ne_none x).symm
  · rename_i x hkind hx
    exact external x hx fun hk => absurd (hkind.symm.trans hk) (by decide)
  · rename_i x hkind hx
    split
    · exact within x hx hkind ‹_›
    · exact external x hx fun _ => ‹_›

/-! ## What all steps have in common -/

variable (M) in
/-- The step is one that the elements and transitions of the model call for. -/
def Fits : Step σ → Prop
  | .enter e | .leave e => M.topology.Listed e
  | .setCurrent r v => v ∈ M.topology.vertices ∧ (M.topology.vertex v).parent = some r
  | .behavior _ | .terminate => True
  | .leaveActive r => r ∈ M.topology.regions
  | .enterRegion r initial => r ∈ M.topology.regions ∧ M.topology.regionInitial r = initial
  | .resume v => v ∈ M.topology.vertices ∧ ∃ k, M.topology.kind v = .pseudo k ∧ k.isInitial
  | .completeInternal v => v ∈ M.topology.vertices
  | .traverseWithin t => t ∈ M.topology.transitions ∧ (M.topology.transition t).kind = .within

theorem LeaveStep.fits {e : Element} {step : Step σ} (h : M.LeaveStep e step) : M.Fits step := by
  induction h with
  | leave he => exact he
  | active hr => exact hr
  | behavior => trivial
  | owned _ _ ih => exact ih

theorem LeaveStep.inert {e : Element} {step : Step σ} (h : M.LeaveStep e step) : step.Inert := by
  induction h with
  | leave | active | behavior => trivial
  | owned _ _ ih => exact ih

theorem BeginStep.fits {e : Element} {step : Step σ} (h : M.BeginStep e step) : M.Fits step := by
  cases h with
  | enter he => exact he
  | setCurrent hv hr => exact ⟨hv, hr⟩
  | behavior | terminate => trivial

theorem EndStep.fits {e : Element} {step : Step σ} (h : M.EndStep e step) : M.Fits step := by
  induction h with
  | enterRegion hr => exact ⟨hr, rfl⟩
  | resume hv hk hi => exact ⟨hv, _, hk, hi⟩
  | begins _ h => exact h.fits
  | ends _ _ ih => exact ih

theorem fits_currentSteps {v : VertexId} (hv : v ∈ M.topology.vertices) :
    ∀ step ∈ M.currentSteps v, M.Fits step := by
  intro step hs
  unfold currentSteps at hs
  split at hs
  · rename_i r hr
    exact List.mem_singleton.1 hs ▸ ⟨hv, hr⟩
  · exact absurd hs List.not_mem_nil

section

variable (hT : M.topology.WellFormed)
include hT

theorem inert_leave (e : Element) : ∀ step ∈ M.compile.leave e, step.Inert :=
  fun _ hs => (leaveStep_of_mem hT hs).inert

/-- A compiled program consists of steps that fit its model. -/
theorem all_fits : M.compile.All M.Fits where
  leave _ _ hs := (leaveStep_of_mem hT hs).fits
  beginEnter _ _ hs := (beginStep_of_mem hT hs).fits
  endEnter _ _ hs := (endStep_of_mem hT hs).fits
  traversal t := by
    by_cases ht : t ∈ M.topology.transitions
    · refine traversal_cases (p := fun steps => ∀ step ∈ steps, M.Fits step) ht
        (fun _ step hs => ?_) (fun _ _ hkind _ step hs => ?_) fun _ _ _ step hs => ?_
      · rcases mem_internalSteps hs with ⟨a, rfl⟩ | rfl
        · trivial
        · exact (hT.source_of_mem_transitions ht).1
      · exact List.mem_singleton.1 hs ▸ ⟨ht, hkind⟩
      · rcases mem_externalSteps hs with ⟨v, hs⟩ | ⟨a, rfl⟩ | ⟨e, hs | hs⟩
        · exact (leaveStep_of_mem hT hs).fits
        · trivial
        · exact (beginStep_of_mem hT hs).fits
        · exact (endStep_of_mem hT hs).fits
    · intro step hs
      rw [traversal_compile_of_not_mem ht] at hs
      exact absurd hs List.not_mem_nil

end

end Machine

end Hsm
