import Hsm.Proofs.Engine.Offers
import Hsm.Proofs.Engine.Vacating

/-!
# External transitions

An external transition whose ends are not in different regions of one state leaves and enters in one
region, and whatever stands in a region has been left when a vertex becomes current there
(`external_vacates`). Between different regions of one state nothing is left in the region that is
entered, and after a transition on the way that deviates, entries that were begun before it go on as
if nothing had happened (`crossing_overlaps`).
-/

namespace Hsm

variable {σ ι : Type} [Instance ι]

/-- The session after running along the transition. -/
def Machine.along (M : Machine σ) (t : TransitionId) (depth : Nat) (trigger : Trigger)
    (s : Session σ ι) : Session σ ι :=
  ((engine M M.compile depth).performAll trigger false (M.compile.traversal t) s).2

/-- Running along the transition from the instance makes a vertex current in a vacant region only,
unless a transition has deviated before. -/
def Machine.EntersVacant (M : Machine σ) (t : TransitionId) (i : ι) : Prop :=
  ∀ depth trigger env source r v past,
    .setCurrent r v :: past <:+ (M.along t depth trigger ⟨env, i, source, []⟩).trail →
      Instance.Vacant M.topology i past r ∨ ∃ u, .traversed u ∈ past ∧ M.topology.Deviates u

namespace Instance

variable (T : Topology) (i : ι) (events : List Event) (r : RegionId) (v u : VertexId)

/-- The vertex becomes current in the region while the state `u` stands there. -/
def Overlaps : Prop :=
  ∃ past, .setCurrent r v :: past <:+ events ∧ (T.vertex u).parent = some r ∧
    u ∈ standing T i past

variable {T i events r v u}

theorem overlaps_of_newest (h : .setCurrent r v ∈ events ∧ (T.vertex u).parent = some r ∧
    u ∈ standing T i (events.dropWhile (· ≠ .setCurrent r v)).tail) :
    Overlaps T i events r v u := by
  have hnil : events.dropWhile (· ≠ .setCurrent r v) ≠ [] := fun hnil =>
    absurd (List.dropWhile_eq_nil_iff.1 hnil _ h.1) (by simp)
  have hhead : (events.dropWhile (· ≠ .setCurrent r v)).head hnil = .setCurrent r v := by
    simpa using List.head_dropWhile_not (l := events) _ hnil
  have hcons := List.cons_head_tail hnil
  rw [hhead] at hcons
  exact ⟨_, hcons ▸ List.dropWhile_suffix _, h.2⟩

end Instance

namespace Session

variable {T : Topology} {J : ι → Prop} {i : ι}

/-- What stands at first is what the instance shows. -/
theorem tracks_start (hT : T.WellFormed) {s : Session σ ι} (hi : s.inst = i) (ht : s.trail = []) :
    s.Tracks T i := by
  have hstanding : ∀ u, u ∈ s.standing T i ↔ u ∈ T.vertices ∧ T.isState u ∧
      ∀ a ∈ T.vertexAncestry u, ∀ r ∈ (T.vertex a).parent,
        Instance.current T r i = some a ∧ Instance.lastKnown T r i = some a := fun u => by
    rw [standing, ht]
    exact List.mem_filter.trans (and_congr_right fun _ => decide_eq_true_iff)
  refine ⟨fun u hu => ⟨((hstanding u).1 hu).1, ((hstanding u).1 hu).2.1⟩, fun u hu r hr => ?_,
    fun u hu r hr => hi ▸ ((hstanding u).1 hu).2.2 u (Topology.mem_vertexAncestry_self u) r hr⟩
  obtain ⟨hlisted, -, hshown⟩ := (hstanding u).1 hu
  obtain ⟨howner, hmem⟩ := hT.owner_of_mem_regions (hT.listed_of_parent hlisted hr).1
  refine (hstanding _).2 ⟨howner, hT.isState_of_regions _ (List.ne_nil_of_mem hmem),
    fun a ha => hshown a ((hT.mem_vertexAncestry_of_parent hr).2 (.inr ha))⟩

/-- An active state is alone in its region. -/
theorem Tracks.alone_of_isActive (hT : T.WellFormed) {s : Session σ ι} (h : s.Tracks T i)
    {v : VertexId} {r : RegionId} (hr : (T.vertex v).parent = some r)
    (hv : Instance.isActive T s.inst v) : s.Alone T i v := by
  obtain ⟨hactive, hknown⟩ := (hT.isActiveIn_of_parent hr).1 hv
  exact ⟨r, hr, hactive, fun u hu hur =>
    Option.some.inj ((h.shown u hu r hur).2.symm.trans hknown)⟩

end Session

namespace Machine

variable {M : Machine σ} {J : ι → Prop} {i : ι}

/-- An instance is lawful after the first entry, however that ended. -/
theorem Reachable.lawful_start {allowed : Edit σ → Prop} (hM : M.Reachable allowed)
    (hJ : Instance.Orderly M.topology J) (hi : J i) (depth : Nat) (env : σ) :
    J (M.call i (.start depth env)).inst :=
  have h : M.Visits (fun _ => True) i _ _ _ := .start depth env trivial
  (faithful_of_visits hM hJ hi h).1

theorem entersVacant (hT : M.topology.WellFormed) (hJ : Instance.Seats M.topology J)
    (hattached : ∀ t ∈ M.topology.transitions, ∀ x ∈ (M.topology.transition t).target,
      x ∈ M.topology.vertices) {t : TransitionId} (ht : t ∈ M.topology.transitions)
    (hkind : (M.topology.transition t).kind = .external) {x : VertexId}
    (hx : (M.topology.transition t).target = some x)
    (hs₀ : (M.topology.transition t).source ≠ Topology.root) (hx₀ : x ≠ Topology.root)
    (hacross : ¬M.topology.Across (M.topology.transition t).source x) (hi : J i)
    (hactive : Instance.isActive M.topology i (M.topology.transition t).source) :
    M.EntersVacant t i := by
  intro depth trigger env source
  have hs := (hT.source_of_mem_transitions ht).1
  obtain ⟨r, hr⟩ := Option.ne_none_iff_exists'.1 fun h =>
    hs₀ (hT.eq_root _ (hT.lt_size_of_mem_vertices hs) h)
  have hsteps : M.compile.traversal t = M.externalSteps M.compile
      (M.topology.transition t).source x (M.effects t) := by
    rw [traversal_compile ht]
    unfold traversalSteps
    simp only [hkind, hx]
  have htracks := Session.tracks_start hT (s := (⟨env, i, source, []⟩ : Session σ ι)) rfl rfl
  unfold along
  rw [hsteps]
  refine (Run.Tidies.external hT hJ (engine_vacates hT hJ hattached depth) hs (hattached t ht x hx)
    hs₀ hx₀ hacross _ _ ⟨hi, fun r v past h => ?_, .inr htracks⟩
    (.inr (htracks.alone_of_isActive hT hr hactive))).1.vacated
  exact absurd (List.suffix_nil.1 h) (List.cons_ne_nil _ _)

end Machine

/-- An external transition leaves and enters in one region, unless its ends are in different regions
of one state; and then, from an instance in which its source is active, what stands in a region has
been left when a vertex becomes current there. -/
theorem external_vacates {M : Machine σ} (hM : M.Reachable fun _ => True)
    (hattached : ∀ t ∈ M.topology.transitions, ∀ x ∈ (M.topology.transition t).target,
      x ∈ M.topology.vertices) {t : TransitionId} (ht : t ∈ M.topology.transitions)
    (hkind : (M.topology.transition t).kind = .external) {x : VertexId}
    (hx : (M.topology.transition t).target = some x)
    (hs₀ : (M.topology.transition t).source ≠ Topology.root) (hx₀ : x ≠ Topology.root) :
    (∃ v w, M.topology.Topmost (fun u => .leave (.vertex u) ∈ M.compile.traversal t) v ∧
      M.topology.Topmost (fun u => .enter (.vertex u) ∈ M.compile.traversal t) w ∧
      (v = w ∨ (M.topology.vertex v).parent = (M.topology.vertex w).parent ↔
        ¬M.topology.Across (M.topology.transition t).source x)) ∧
    (¬M.topology.Across (M.topology.transition t).source x →
      (∀ i : TableInstance, i.Seated M.topology →
        Instance.isActive M.topology i (M.topology.transition t).source → M.EntersVacant t i) ∧
      ((∀ name, Violation.duplicateQualifiedName name ∉ M.violations) →
        ∀ j : TreeInstance, j.Seated M.topology →
          Instance.isActive M.topology j (M.topology.transition t).source →
            M.EntersVacant t j)) := by
  have hT := hM.wellFormed
  refine ⟨Machine.external_topmost hT ht hkind hx (hattached t ht x hx) hs₀ hx₀, fun hacross =>
    ⟨fun i hi hactive => ?_, fun hN j hj hactive => ?_⟩⟩
  · exact Machine.entersVacant hT (TableInstance.seats hT) hattached ht hkind hx hs₀ hx₀ hacross
      hi hactive
  · exact Machine.entersVacant hT (TreeInstance.seats hT (Machine.distinctNames hN)) hattached ht
      hkind hx hs₀ hx₀ hacross hj hactive

/-- A state with two regions that a message takes back to itself, and another message out of its
first region into the second. While the environment is 0, completing in the first region leads back
to the state as well, and while it is 2, on to a state that is never entered. -/
def crossing : Machine Nat := .build "m" {} [
  .addVertex "o" (.state ⟨0⟩) (.pseudo .initial), .addVertex "s" (.state ⟨0⟩) .state,
  .addRegion "p" ⟨2⟩, .addRegion "q" ⟨2⟩,
  .addVertex "i" (.region ⟨1⟩) (.pseudo .initial), .addVertex "a" (.region ⟨1⟩) .state,
  .addVertex "b" (.region ⟨1⟩) .state, .addVertex "c" (.region ⟨1⟩) .state,
  .addVertex "j" (.region ⟨2⟩) (.pseudo .initial), .addVertex "d" (.region ⟨2⟩) .state,
  .addVertex "e" (.region ⟨2⟩) .state,
  .addTransition ⟨1⟩ (some ⟨2⟩), .addTransition ⟨3⟩ (some ⟨4⟩), .addTransition ⟨7⟩ (some ⟨8⟩),
  .addTransition ⟨4⟩ (some ⟨9⟩), .addTransition ⟨2⟩ (some ⟨2⟩), .addTransition ⟨4⟩ (some ⟨2⟩),
  .addTransition ⟨4⟩ (some ⟨5⟩), .addTransition ⟨5⟩ (some ⟨6⟩),
  .setTransitionKind ⟨6⟩ .internal,
  .modifyTransition ⟨3⟩ fun t => { t with guard := .on "cross" },
  .modifyTransition ⟨4⟩ fun t => { t with guard := .on "again" },
  .modifyTransition ⟨5⟩ fun t => { t with
    guard := .custom fun trigger c => ⟨trigger.isCompletionOf ⟨4⟩ && c.env = 0, []⟩
    effects := [fun _ env => { env := env + 1 }] },
  .modifyTransition ⟨6⟩ fun t => { t with
    guard := .custom fun trigger c => ⟨trigger.isCompletionOf ⟨4⟩ && c.env = 2, []⟩ }]

theorem crossing_reachable : crossing.Reachable fun _ => True :=
  .build (by decide +kernel) fun _ _ => trivial

theorem crossing_attached : ∀ t ∈ crossing.topology.transitions,
    ∀ x ∈ (crossing.topology.transition t).target, x ∈ crossing.topology.vertices := by
  decide +kernel

theorem crossing_vacates :
    let i := (crossing.call (⟨"i", {}, {}, false⟩ : TableInstance) (.start 30 1)).inst
    let j := (crossing.call ({ name := "i" } : TreeInstance) (.start 30 1)).inst
    let again := (crossing.along ⟨4⟩ 30 (.message "again") ⟨1, i, .first, []⟩).trail
    crossing.EntersVacant ⟨4⟩ i ∧ crossing.EntersVacant ⟨4⟩ j ∧
      .setCurrent ⟨2⟩ ⟨8⟩ ∈ again ∧ .left (.vertex ⟨8⟩) ∈ again := by
  intro i j again
  have hT := crossing_reachable.wellFormed
  have hN : ∀ name, Violation.duplicateQualifiedName name ∉ crossing.violations := fun name => by
    rw [show crossing.violations = [] by decide +kernel]
    exact List.not_mem_nil
  have hi : i.Seated crossing.topology := crossing_reachable.lawful_start
    (TableInstance.seats hT).toOrderly (TableInstance.seated_new _ _) 30 1
  have hj : j.Seated crossing.topology := crossing_reachable.lawful_start
    (TreeInstance.seats hT (Machine.distinctNames hN)).toOrderly (TreeInstance.seated_new _ _) 30 1
  have hvacates := (external_vacates crossing_reachable crossing_attached (t := ⟨4⟩) (x := ⟨2⟩)
    (by decide +kernel) (by decide +kernel) (by decide +kernel) (by decide +kernel)
    (by decide +kernel)).2 (by decide +kernel)
  exact ⟨hvacates.1 i hi (by decide +kernel), hvacates.2 hN j hj (by decide +kernel),
    by decide +kernel, by decide +kernel⟩

/-- Two regions of one name, with states of one name. -/
def namesakes : Machine Unit := .build "m" {} [
  .addRegion "p" ⟨0⟩, .addRegion "p" ⟨0⟩, .addVertex "i" (.region ⟨0⟩) (.pseudo .initial),
  .addVertex "a" (.region ⟨0⟩) .state, .addVertex "b" (.region ⟨0⟩) .state,
  .addVertex "c" (.region ⟨0⟩) .state, .addVertex "a" (.region ⟨1⟩) .state,
  .addTransition ⟨1⟩ (some ⟨3⟩), .addTransition ⟨2⟩ (some ⟨4⟩),
  .modifyTransition ⟨1⟩ fun t => { t with guard := .on "go" }]

/-- Into the other region, `e` becomes current while `d` stands. Back to the state, a transition out
of the first region enters the state within its own entry, and `j` becomes current while `d` stands;
and an internal transition leads on from `b` to `c` while `a` stands. Where names are shared, what
was entered in the second region makes `a` active in the first, and `c` becomes current while `b`
stands. -/
theorem crossing_overlaps :
    let i := (crossing.call (⟨"i", {}, {}, false⟩ : TableInstance) (.start 30 1)).inst
    let started := namesakes.call ({ name := "i" } : TreeInstance) (.start 30 ())
    (crossing.Reachable (fun _ => True) ∧ ∀ t ∈ crossing.topology.transitions,
      ∀ x ∈ (crossing.topology.transition t).target, x ∈ crossing.topology.vertices) ∧
    (∃ v w,
      crossing.topology.Topmost (fun u => .leave (.vertex u) ∈ crossing.compile.traversal ⟨3⟩) v ∧
      crossing.topology.Topmost (fun u => .enter (.vertex u) ∈ crossing.compile.traversal ⟨3⟩) w ∧
      ¬(v = w ∨ (crossing.topology.vertex v).parent = (crossing.topology.vertex w).parent)) ∧
    (Instance.isActive crossing.topology i (crossing.topology.transition ⟨3⟩).source ∧
      Instance.Overlaps crossing.topology i
        (crossing.along ⟨3⟩ 30 (.message "cross") ⟨1, i, .first, []⟩).trail ⟨2⟩ ⟨9⟩ ⟨8⟩) ∧
    (Instance.isActive crossing.topology i (crossing.topology.transition ⟨4⟩).source ∧
      Instance.Overlaps crossing.topology i
        (crossing.along ⟨4⟩ 30 (.message "again") ⟨0, i, .first, []⟩).trail ⟨2⟩ ⟨7⟩ ⟨8⟩ ∧
      Instance.Overlaps crossing.topology i
        (crossing.along ⟨4⟩ 30 (.message "again") ⟨2, i, .first, []⟩).trail ⟨1⟩ ⟨6⟩ ⟨4⟩) ∧
    namesakes.Reachable (fun _ => True) ∧
      Instance.isActive namesakes.topology started.inst (namesakes.topology.transition ⟨1⟩).source ∧
      Instance.Overlaps namesakes.topology ({ name := "i" } : TreeInstance)
        (namesakes.along ⟨1⟩ 30 (.message "go")
          ⟨(), started.inst, .first, started.events.reverse⟩).trail ⟨0⟩ ⟨4⟩ ⟨3⟩ := by
  intro i started
  refine ⟨⟨crossing_reachable, crossing_attached⟩, ?_, ⟨by decide +kernel, ?crossed⟩,
    ⟨by decide +kernel, ?reentered, ?led⟩, .build (by decide +kernel) fun _ _ => trivial,
    by decide +kernel, ?shared⟩
  · obtain ⟨v, w, hv, hw, h⟩ := Machine.external_topmost crossing_reachable.wellFormed (t := ⟨3⟩)
      (x := ⟨9⟩) (by decide +kernel) (by decide +kernel) (by decide +kernel) (by decide +kernel)
      (by decide +kernel) (by decide +kernel)
    exact ⟨v, w, hv, hw, fun hsame => h.1 hsame (by decide +kernel)⟩
  all_goals exact Instance.overlaps_of_newest (by decide +kernel)

end Hsm
