import Hsm.Proofs.Instance.Sound
import Hsm.Proofs.Machine.Calls

/-!
# Instances in the course of their lives

A model may be edited between the calls that serve an instance (`Machine.Lives`). Edits never move
a vertex to another region (`Edit.retains_apply`), so what an instance knows of a region stays in
that region (`Instance.Placed`), even where the region or the vertex has been removed since.
-/

namespace Hsm

variable {σ ι : Type}

namespace Topology

/-- What is in a region stays in it. -/
def Retains (T U : Topology) : Prop :=
  ∀ v r, (T.vertex v).parent = some r → (U.vertex v).parent = some r

namespace Retains

variable {T U V : Topology}

theorem refl (T : Topology) : T.Retains T :=
  fun _ _ h => h

theorem trans (h : T.Retains U) (h' : U.Retains V) : T.Retains V :=
  fun v r hr => h' v r (h v r hr)

theorem of_trims (h : T.Trims U) : T.Retains U :=
  fun v _ hr => (h.parent v).trans hr

theorem of_samePlaces (h : T.SamePlaces U) : T.Retains U :=
  fun v _ hr => (h.parent v).trans hr

theorem modifyVertex (T : Topology) (v : VertexId) {f : VertexNode → VertexNode}
    (hf : ∀ node, (f node).parent = node.parent) : T.Retains (T.modifyVertex v f) := by
  intro w r hr
  rcases vertex_modifyVertex (T := T) v w f with h | ⟨-, -, h⟩
  · rwa [h]
  · rwa [h, hf]

/-- A new vertex takes nothing's place. -/
theorem pushVertex (T : Topology) (node : VertexNode) :
    T.Retains { T with vertexNodes := T.vertexNodes.push node } := by
  intro w r hr
  rw [vertex_push, if_neg]
  · exact hr
  · intro he
    rw [vertex, he, Array.getElem?_size] at hr
    cases hr

theorem defaultRegion (T : Topology) (state : VertexId) :
    T.Retains (T.defaultRegion state).2 := by
  unfold Topology.defaultRegion
  split
  · exact refl T
  · exact trans (U := (T.addRegion defaultRegionName state).2)
      (modifyVertex { T with regionNodes := _ } state fun _ => rfl)
      (modifyVertex _ state fun _ => rfl)

theorem regionAt (T : Topology) (place : Place) : T.Retains (T.regionAt place).2 := by
  cases place with
  | region r => exact refl T
  | state v => exact defaultRegion T v

end Retains

end Topology

theorem Edit.retains_apply {M : Machine σ} (e : Edit σ) :
    M.topology.Retains (e.apply M).topology := by
  cases e with
  | setSettings _ | setSeparator _ | setTransitionKind _ _ | modifyTransition _ _
  | modifyState _ _ => exact .refl _
  | addRegion name state => exact .modifyVertex _ state fun _ => rfl
  | defaultRegion state => exact .defaultRegion _ state
  | addVertex name place kind =>
    exact (Topology.Retains.regionAt _ place).trans (.pushVertex _ _)
  | addTransition source target =>
    exact .of_samePlaces (Topology.samePlaces_addTransition source target .external)
  | removeTransition _ | removeVertex _ | removeRegion _ => exact .of_trims (trims_of_removes rfl)

section

variable [Instance ι]

/-- What is last known of a region is in the region. -/
def Instance.Placed (T : Topology) (i : ι) : Prop :=
  ∀ r v, lastKnown T r i = some v → (T.vertex v).parent = some r

/-- What becomes of a model and of an instance that begins with it, by calls on behalf of the
instance and edits of the model in any order. -/
inductive Machine.Lives (i₀ : ι) : Machine σ → ι → Prop
  | fresh {M : Machine σ} : M.Reachable (fun _ => True) → Lives i₀ M i₀
  | edit {M : Machine σ} {i : ι} {e : Edit σ} : Lives i₀ M i → e.Valid M.topology →
    Lives i₀ (e.apply M) i
  | initialise {M : Machine σ} {i : ι} : Lives i₀ M i → Lives i₀ M.initialise i
  | call {M : Machine σ} {i : ι} (c : Call σ) : Lives i₀ M i →
    Lives i₀ (M.call i c).machine (M.call i c).inst

namespace Machine

variable {M : Machine σ} {i i₀ : ι}

theorem Reachable.call_machine {allowed : Edit σ → Prop} (hM : M.Reachable allowed) (i : ι)
    (c : Call σ) : ∃ source : IndexSource, (M.call i c).machine = M.ready source := by
  cases c with
  | start depth env => exact ⟨_, congrArg Outcome.machine (hM.call_start depth env i)⟩
  | evaluate depth env message =>
    exact ⟨_, congrArg Outcome.machine (hM.call_evaluate depth env i message)⟩

theorem Lives.reachable (h : M.Lives i₀ i) : M.Reachable fun _ => True := by
  induction h with
  | fresh hM => exact hM
  | edit _ hv ih => exact .edit ih hv trivial
  | initialise _ ih => exact .initialise ih
  | @call M i c _ ih =>
    obtain ⟨source, hsource⟩ := ih.call_machine i c
    exact hsource ▸ ih.ready source

section

variable {J : ι → Prop} (hT : M.topology.WellFormed) (hJ : Instance.Kept M.topology J)
include hT hJ

theorem engine_keeps (n : Nat) : (engine (ι := ι) M M.compile n).Related M M.topology.Holds True
    (fun _ x (_ : Run σ ι _) => ∀ s, J s.inst → J (x s).2.inst) (engine M M.compile n) :=
  engine_related (keeps_uniform hJ) (all_allowed hT) trivial n

theorem startRun_keeps (depth : Nat) {s : Session σ ι} (hs : J s.inst) :
    J (M.startRun depth M.compile s).2.inst :=
  startRun_related (keeps_uniform hJ) (engine_keeps hT hJ depth) (all_allowed hT).onInitialise s hs

theorem evaluateRun_keeps (depth : Nat) (message : String) {s : Session σ ι} (hs : J s.inst) :
    J (M.evaluateRun depth message M.compile s).2.inst :=
  evaluateRun_related (keeps_uniform hJ) (engine_keeps hT hJ depth) trivial message s hs

end

/-- What whatever the engine does to an instance keeps, a call keeps. -/
theorem Reachable.call_keeps {allowed : Edit σ → Prop} (hM : M.Reachable allowed) {J : ι → Prop}
    (hJ : Instance.Kept M.topology J) (hi : J i) (c : Call σ) : J (M.call i c).inst := by
  have hT := hM.wellFormed
  cases c with
  | start depth env =>
    rw [hM.call_start]
    exact startRun_keeps (M := M.ready M.settings.source) hT hJ depth hi
  | evaluate depth env message =>
    rw [hM.call_evaluate]
    exact evaluateRun_keeps (M := M.ready M.settings.source) hT hJ depth message hi

end Machine

end

namespace TableInstance

theorem kept_placed (T : Topology) : Instance.Kept T (Instance.Placed (ι := TableInstance) T) where
  trace _ h := h
  terminate h := h
  setCurrent {i r v} h hv := by
    intro s w hw
    replace hw : (i.setCurrent T r v).lastKnown.get? s = some w := hw
    rw [lastKnown_setCurrent] at hw
    split at hw
    · rename_i he
      rw [← Option.some.inj hw, he.1]
      exact hv.2
    · exact h s w hw

/-- A table knows of every region only what is in it, whatever happens to the model. -/
theorem placed_of_lives {M : Machine σ} {name : String} {i : TableInstance}
    (h : M.Lives ⟨name, {}, {}, false⟩ i) : Instance.Placed M.topology i := by
  induction h with
  | fresh _ => exact fun _ _ h => nomatch h
  | @edit M i e _ _ ih => exact fun r v hv => e.retains_apply v r (ih r v hv)
  | initialise _ ih => exact ih
  | @call M i c h ih =>
    obtain ⟨source, hsource⟩ := h.reachable.call_machine i c
    rw [hsource]
    exact h.reachable.call_keeps (kept_placed M.topology) ih c

end TableInstance

end Hsm
