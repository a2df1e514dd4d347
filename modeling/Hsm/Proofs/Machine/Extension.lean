import Hsm.Proofs.Machine.Arena
import Hsm.Validation
import Mathlib.Data.List.Find

/-!
# Models that have more than another

One model extends another if it has all that the other has given out, just as it is there
(`Topology.Extends`, `Machine.Extends`). Whatever else it has, nothing of the other leads there, so
the walk from the root does not meet it: both list the same elements and transitions under the same
names, compile to the same program and break the same rules (`Machine.Extends.draft_eq`,
`Machine.Extends.violations_eq`).

The walks go down as many levels as there are vertices, which may be more in the model that
extends the other. Numbers grow on the way down, so the further levels are empty.
-/

namespace Hsm

variable {σ : Type}

/-- Ancestries agree where parents do, all the way up. -/
theorem Forest.ancestors_congr {α : Type} {F G : Forest α} {p : α → Prop}
    (hparent : ∀ a, p a → G.parent a = F.parent a) (hup : ∀ a b, p a → F.parent a = some b → p b)
    {a : α} (ha : p a) : G.ancestors a = F.ancestors a := by
  induction a using F.induction with
  | hroot a hp => rw [ancestors_root hp, ancestors_root ((hparent a ha).trans hp)]
  | hparent a b hp ih =>
    rw [ancestors_of_parent hp, ancestors_of_parent ((hparent a ha).trans hp), ih (hup a b ha hp)]

namespace Topology

variable {T U : Topology}

/-- `U` has all that `T` has given out, as it is in `T`. -/
structure Extends (U T : Topology) : Prop where
  separator : U.separator = T.separator
  size : T.vertexNodes.size ≤ U.vertexNodes.size
  region : ∀ r, T.Has (.region r) → U.region r = T.region r
  vertex : ∀ v, T.Has (.vertex v) → U.vertex v = T.vertex v
  transition : ∀ t, t.index < T.transitionNodes.size → U.transition t = T.transition t

namespace WellFormed

variable (hT : T.WellFormed)
include hT

/-- What is given out has an owner that is given out. -/
theorem has_of_link {e a : Element} (he : T.Has e) (h : T.link e = some a) : T.Has a := by
  cases e with
  | region r => exact Option.some.inj h ▸ hT.region_parent_lt r he
  | vertex v =>
    obtain ⟨r, hr, rfl⟩ := Option.map_eq_some_iff.1 h
    exact (hT.parent_lt v r hr).1

theorem has_of_parentState {v u : VertexId} (h : T.stateTree.parent v = some u) :
    T.Has (.vertex u) := by
  obtain ⟨r, hr, rfl⟩ := hT.parent_of_parentState h
  exact hT.region_parent_lt r (hT.parent_lt v r hr).1

theorem has_of_mem_vertexAncestry {a v : VertexId} (hv : T.Has (.vertex v))
    (ha : a ∈ T.vertexAncestry v) : T.Has (.vertex a) :=
  Forest.mem_ancestors_induction (F := T.stateTree) (p := fun v => T.Has (.vertex v)) hv
    (fun _ _ hp _ => hT.has_of_parentState hp) a ha

end WellFormed

namespace Extends

variable (h : U.Extends T) (hT : T.WellFormed)
include h hT

/-! ## The walk -/

/-- Each walk goes down to the end, by whatever number of levels that is enough. -/
theorem verticesFrom_eq : ∀ {n m : Nat} {v : VertexId}, T.Has (.vertex v) →
    T.vertexNodes.size ≤ v.index + n → T.vertexNodes.size ≤ v.index + m →
      U.verticesFrom n v = T.verticesFrom m v
  | 0, _, _, hv, hn, _ => absurd hv (Nat.not_lt.2 hn)
  | _, 0, _, hv, _, hm => absurd hv (Nat.not_lt.2 hm)
  | n + 1, m + 1, v, hv, hn, hm => by
    simp only [verticesFrom, h.vertex v hv]
    refine congrArg (v :: ·) (List.flatMap_congr fun r hr => ?_)
    rw [h.region r (hT.mem_regions v r hr).1]
    refine List.flatMap_congr fun w hw => ?_
    have hlt := hT.lt_of_listed hr hw
    exact verticesFrom_eq (hT.mem_vertices r w hw).1 (by omega) (by omega)

theorem vertices_eq : U.vertices = T.vertices :=
  h.verticesFrom_eq hT hT.root_lt (h.size.trans (Nat.le_add_left _ _)) (Nat.le_add_left _ _)

theorem regions_eq : U.regions = T.regions := by
  unfold regions
  rw [h.vertices_eq hT]
  exact List.flatMap_congr fun v hv => by rw [h.vertex v (hT.lt_size_of_mem_vertices hv)]

theorem transitions_eq : U.transitions = T.transitions := by
  unfold transitions
  rw [h.vertices_eq hT]
  exact List.flatMap_congr fun v hv => by rw [h.vertex v (hT.lt_size_of_mem_vertices hv)]

/-! ## Ancestries and names -/

theorem ownerRegion_eq {v : VertexId} (hv : T.Has (.vertex v)) :
    U.ownerRegion v = T.ownerRegion v := by
  unfold ownerRegion
  rw [h.vertex v hv]
  cases hp : (T.vertex v).parent with
  | none => rfl
  | some r => rw [Option.filter_some, Option.filter_some, h.region r (hT.parent_lt v r hp).1]

theorem owner_eq {e : Element} (he : T.Has e) : U.owner e = T.owner e := by
  cases e with
  | region r => simp only [owner, h.region r he]
  | vertex v => simp only [owner, h.ownerRegion_eq hT he]

theorem ancestry_eq {e : Element} (he : T.Has e) : U.ancestry e = T.ancestry e :=
  Forest.ancestors_congr (F := T.ownership) (G := U.ownership) (p := T.Has)
    (fun _ => h.owner_eq hT) (fun _ _ ha hp => hT.has_of_link ha (hT.owner_eq_link ▸ hp)) he

theorem vertexAncestry_eq {v : VertexId} (hv : T.Has (.vertex v)) :
    U.vertexAncestry v = T.vertexAncestry v := by
  refine Forest.ancestors_congr (F := T.stateTree) (G := U.stateTree)
    (p := fun v => T.Has (.vertex v)) (fun w hw => ?_) (fun _ _ _ => hT.has_of_parentState) hv
  show (U.ownerRegion w).map _ = (T.ownerRegion w).map _
  rw [h.ownerRegion_eq hT hw, hT.ownerRegion_eq]
  exact Option.map_congr fun r hr => by rw [h.region r (hT.parent_lt w r hr).1]

theorem isDescendant_eq {v : VertexId} (hv : T.Has (.vertex v)) (top : VertexId) :
    U.isDescendant v top = T.isDescendant v top := by
  have hancestry : U.stateTree.ancestors v = T.stateTree.ancestors v := h.vertexAncestry_eq hT hv
  unfold isDescendant
  rw [Bool.eq_iff_iff, Forest.isBelow_iff, Forest.isBelow_iff, hancestry]

theorem qualifiedName_eq {e : Element} (he : T.Has e) : U.qualifiedName e = T.qualifiedName e := by
  unfold qualifiedName
  rw [h.separator, h.ancestry_eq hT he]
  refine congrArg _ (List.map_congr_left fun a ha => ?_)
  have hhas : T.Has a := Forest.mem_ancestors_induction (F := T.ownership) (p := T.Has) he
    (fun _ _ hp he => hT.has_of_link he (hT.owner_eq_link ▸ hp)) a ha
  cases a with
  | region r => simp only [name, h.region r hhas]
  | vertex v => simp only [name, h.vertex v hhas]

theorem describe_eq (hlinks : T.Linked) {t : TransitionId}
    (ht : t.index < T.transitionNodes.size) : U.describe t = T.describe t := by
  have hsource := h.qualifiedName_eq hT (e := .vertex _) (hlinks.source_lt t ht)
  unfold describe
  simp only [h.transition t ht, hsource]
  cases hx : (T.transition t).target with
  | none => rfl
  | some x => simp only [h.qualifiedName_eq hT (e := .vertex _) (hlinks.target_lt t x hx)]

/-! ## Looking inside regions -/

omit hT in
theorem kind_eq {v : VertexId} (hv : T.Has (.vertex v)) : U.kind v = T.kind v := by
  unfold kind
  rw [h.vertex v hv]

omit hT in
theorem isState_eq {v : VertexId} (hv : T.Has (.vertex v)) : U.isState v = T.isState v := by
  unfold isState
  rw [h.kind_eq hv]

omit hT in
theorem pseudoKind?_eq {v : VertexId} (hv : T.Has (.vertex v)) :
    U.pseudoKind? v = T.pseudoKind? v := by
  unfold pseudoKind?
  rw [h.kind_eq hv]

theorem regionInitial_eq {r : RegionId} (hr : T.Has (.region r)) :
    U.regionInitial r = T.regionInitial r := by
  have hfind : ((T.region r).vertices.reverse.find? fun v =>
      (U.pseudoKind? v).any PseudoKind.isInitial) = (T.region r).vertices.reverse.find? fun v =>
      (T.pseudoKind? v).any PseudoKind.isInitial :=
    List.find?_congr fun v hv => by
      rw [h.pseudoKind?_eq (hT.mem_vertices r v (List.mem_reverse.1 hv)).1]
  unfold regionInitial
  simp only [h.region r hr, hfind]

theorem initialKind_eq (r : RegionId) :
    (T.regionInitial r).bind U.pseudoKind? = (T.regionInitial r).bind T.pseudoKind? := by
  cases hv : T.regionInitial r with
  | none => rfl
  | some v => exact h.pseudoKind?_eq (hT.mem_vertices r v (regionInitial_mem hv)).1

omit hT in
theorem cascade_eq (P : Program σ) : ∀ {path : List VertexId}, (∀ v ∈ path, T.Has (.vertex v)) →
    P.cascade U path = P.cascade T path
  | [], _ => rfl
  | [_], _ => rfl
  | v :: w :: rest, hpath => by
    have hv := hpath v List.mem_cons_self
    have hw := hpath w (List.mem_cons_of_mem _ List.mem_cons_self)
    have hrest := cascade_eq P fun u hu => hpath u (List.mem_cons_of_mem _ hu)
    simp only [Program.cascade, h.isState_eq hv, h.vertex v hv, h.vertex w hw, hrest]

end Extends

end Topology

open Hsm.Topology

namespace Machine

variable {L M : Machine σ}

/-- `L` has all that `M` has given out, with the behavior and the settings that it has in `M`. -/
structure Extends (L M : Machine σ) : Prop where
  topology : L.topology.Extends M.topology
  settings : L.settings = M.settings
  state : ∀ v, M.topology.Has (.vertex v) → L.stateBehavior v = M.stateBehavior v
  behavior : ∀ t, t.index < M.topology.transitionNodes.size →
    L.transitionBehavior t = M.transitionBehavior t

namespace Extends

variable (h : L.Extends M)
include h

/-! ## The program -/

theorem draftVertex_eq {v : VertexId} (hv : M.topology.Has (.vertex v)) :
    L.draftVertex v = M.draftVertex v := by
  funext D
  simp only [draftVertex, h.topology.vertex v hv]

theorem draftPseudo_eq {v : VertexId} (hv : M.topology.Has (.vertex v)) (k : PseudoKind) :
    L.draftPseudo v k = M.draftPseudo v k := by
  funext D
  simp only [draftPseudo, h.draftVertex_eq hv]

theorem draftState_eq {draft draft' : RegionId → Draft σ → Draft σ} {v : VertexId}
    (hv : M.topology.Has (.vertex v))
    (hdraft : ∀ r ∈ (M.topology.vertex v).regions, draft r = draft' r) :
    L.draftState draft v = M.draftState draft' v := by
  funext D
  simp only [draftState, h.topology.vertex v hv, h.draftVertex_eq hv, h.state v hv]
  rw [List.foldl_ext _ _ _ fun D r hr => by rw [hdraft r hr]]

variable (hM : M.topology.WellFormed)
include hM

theorem draftRegion_eq {draft draft' : VertexId → Bool → Draft σ → Draft σ} {r : RegionId}
    (hr : M.topology.Has (.region r))
    (hdraft : ∀ v ∈ (M.topology.region r).vertices, draft v = draft' v) (deepAbove : Bool) :
    L.draftRegion draft deepAbove r = M.draftRegion draft' deepAbove r := by
  funext D
  simp only [draftRegion, h.topology.region r hr, h.topology.initialKind_eq hM r,
    h.topology.regionInitial_eq hM hr]
  rw [List.foldl_ext _ _ _ fun D v hv => by rw [hdraft v hv]]

theorem draftWithin_eq : ∀ {n m : Nat} {v : VertexId}, M.topology.Has (.vertex v) →
    M.topology.vertexNodes.size ≤ v.index + n → M.topology.vertexNodes.size ≤ v.index + m →
      L.draftWithin n v = M.draftWithin m v
  | 0, _, _, hv, hn, _ => absurd hv (Nat.not_lt.2 hn)
  | _, 0, _, hv, _, hm => absurd hv (Nat.not_lt.2 hm)
  | n + 1, m + 1, v, hv, hn, hm => by
    have hregion : ∀ deepAbove, ∀ r ∈ (M.topology.vertex v).regions,
        L.draftRegion (L.draftWithin n) deepAbove r =
          M.draftRegion (M.draftWithin m) deepAbove r := by
      intro deepAbove r hr
      refine h.draftRegion_eq hM (hM.mem_regions v r hr).1 (fun w hw => ?_) deepAbove
      have hlt := hM.lt_of_listed hr hw
      exact draftWithin_eq (hM.mem_vertices r w hw).1 (by omega) (by omega)
    funext deepAbove D
    simp only [draftWithin, h.topology.kind_eq hv, h.draftPseudo_eq hv,
      h.draftState_eq hv (hregion deepAbove)]

theorem externalSteps_eq (P : Program σ) {source target : VertexId}
    (hs : M.topology.Has (.vertex source)) (ht : M.topology.Has (.vertex target))
    (effects : List (Action σ)) :
    L.externalSteps P source target effects = M.externalSteps P source target effects := by
  have hcascade : ∀ i, P.cascade L.topology ((M.topology.vertexAncestry target).drop i) =
      P.cascade M.topology ((M.topology.vertexAncestry target).drop i) := fun i =>
    h.topology.cascade_eq P fun v hv =>
      hM.has_of_mem_vertexAncestry ht (List.mem_of_mem_drop hv)
  simp only [externalSteps, h.topology.vertexAncestry_eq hM hs,
    h.topology.vertexAncestry_eq hM ht, hcascade]

theorem draftTransition_eq (hlinks : M.topology.Linked) (D : Draft σ) {t : TransitionId}
    (ht : t.index < M.topology.transitionNodes.size) :
    L.draftTransition D t = M.draftTransition D t := by
  have hnode := h.topology.transition t ht
  have heffects : L.effects t = M.effects t := congrArg TransitionBehavior.effects (h.behavior t ht)
  have hs := hlinks.source_lt t ht
  unfold draftTransition
  simp only [hnode, heffects, h.settings, h.topology.describe_eq hM hlinks ht]
  cases hx : (M.topology.transition t).target with
  | none => cases (M.topology.transition t).kind <;> rfl
  | some x =>
    have hx := hlinks.target_lt t x hx
    have hwithin : L.staysWithin (M.topology.transition t).source x =
        M.staysWithin (M.topology.transition t).source x := by
      simp only [staysWithin, h.topology.isDescendant_eq hM hx]
    cases (M.topology.transition t).kind <;> simp only [h.externalSteps_eq hM _ hs hx, hwithin]

theorem draft_eq (hlinks : M.topology.Linked) : L.draft = M.draft := by
  have hroot : L.draftWithin (L.topology.vertexNodes.size + 1) root =
      M.draftWithin (M.topology.vertexNodes.size + 1) root :=
    h.draftWithin_eq hM hM.root_lt (by have := h.topology.size; omega) (by omega)
  have hfold : ∀ D, M.topology.transitions.foldl L.draftTransition D =
      M.topology.transitions.foldl M.draftTransition D := fun D =>
    List.foldl_ext _ _ _ fun D t ht => h.draftTransition_eq hM hlinks D
      (hM.mem_outgoing _ t (hM.source_of_mem_transitions ht).2).1
  unfold draft
  rw [hroot, h.topology.transitions_eq hM]
  simp only [hfold]

/-! ## Breaches of rules -/

theorem regionViolations_eq {r : RegionId} (hr : M.topology.Has (.region r)) :
    L.regionViolations r = M.regionViolations r := by
  have hcount : ∀ kind, ((M.topology.region r).vertices.countP fun v =>
      decide (L.topology.pseudoKind? v = some kind)) = (M.topology.region r).vertices.countP fun v =>
        decide (M.topology.pseudoKind? v = some kind) := fun kind =>
    List.countP_congr fun v hv => by rw [h.topology.pseudoKind?_eq (hM.mem_vertices r v hv).1]
  simp only [regionViolations, h.topology.region r hr, h.topology.qualifiedName_eq hM hr, hcount]

theorem stateViolations_eq {v : VertexId} (hv : M.topology.Has (.vertex v)) :
    L.stateViolations v = M.stateViolations v := by
  have hcount : ((M.topology.vertex v).regions.countP fun r =>
      decide ((L.topology.region r).name = defaultRegionName)) =
        (M.topology.vertex v).regions.countP fun r =>
          decide ((M.topology.region r).name = defaultRegionName) :=
    List.countP_congr fun r hr => by rw [h.topology.region r (hM.mem_regions v r hr).1]
  simp only [stateViolations, h.topology.vertex v hv, h.topology.qualifiedName_eq hM hv, hcount]

theorem finalViolations_eq {v : VertexId} (hv : M.topology.Has (.vertex v)) :
    L.finalViolations v = M.finalViolations v := by
  simp only [finalViolations, isFinal, isSimple, h.topology.vertex v hv, h.state v hv,
    h.topology.qualifiedName_eq hM hv]

theorem pseudoViolations_eq {v : VertexId} (hv : M.topology.Has (.vertex v)) (kind : PseudoKind) :
    L.pseudoViolations v kind = M.pseudoViolations v kind := by
  have hguard : ∀ t ∈ (M.topology.vertex v).outgoing, L.guard t = M.guard t := fun t ht =>
    congrArg TransitionBehavior.guard (h.behavior t (hM.mem_outgoing v t ht).1)
  have hcount : ((M.topology.vertex v).outgoing.countP fun t => (L.guard t).isOtherwise) =
      (M.topology.vertex v).outgoing.countP fun t => (M.guard t).isOtherwise :=
    List.countP_congr fun t ht => by rw [hguard t ht]
  simp only [pseudoViolations, h.topology.vertex v hv, h.topology.qualifiedName_eq hM hv, hcount]
  rcases ho : (M.topology.vertex v).outgoing with _ | ⟨t, _ | ⟨_, _⟩⟩
  · rfl
  · simp only [hguard t (ho ▸ List.mem_cons_self)]
  · rfl

theorem vertexViolations_eq {v : VertexId} (hv : M.topology.Has (.vertex v)) :
    L.vertexViolations v = M.vertexViolations v := by
  simp only [vertexViolations, h.topology.kind_eq hv, h.pseudoViolations_eq hM hv,
    h.stateViolations_eq hM hv, h.finalViolations_eq hM hv]

theorem transitionViolations_eq (hlinks : M.topology.Linked) {t : TransitionId}
    (ht : t.index < M.topology.transitionNodes.size) :
    L.transitionViolations t = M.transitionViolations t := by
  have hwithin : ((M.topology.transition t).target.any fun target =>
      decide (target = (M.topology.transition t).source) ||
        L.topology.isDescendant target (M.topology.transition t).source) =
      (M.topology.transition t).target.any fun target =>
        decide (target = (M.topology.transition t).source) ||
          M.topology.isDescendant target (M.topology.transition t).source := by
    cases hx : (M.topology.transition t).target with
    | none => rfl
    | some x =>
      simp only [Option.any_some, h.topology.isDescendant_eq hM (hlinks.target_lt t x hx)]
  simp only [transitionViolations, h.topology.transition t ht,
    h.topology.describe_eq hM hlinks ht, hwithin]

theorem nameViolations_eq : L.nameViolations = M.nameViolations := by
  have hnames : (M.topology.vertices.map Element.vertex ++
      M.topology.regions.map Element.region).map L.topology.qualifiedName =
      (M.topology.vertices.map Element.vertex ++ M.topology.regions.map Element.region).map
        M.topology.qualifiedName := by
    refine List.map_congr_left fun e he => h.topology.qualifiedName_eq hM ?_
    rcases List.mem_append.1 he with he | he <;> obtain ⟨a, ha, rfl⟩ := List.mem_map.1 he
    · exact hM.lt_size_of_mem_vertices ha
    · exact (hM.mem_regions _ a (hM.owner_of_mem_regions ha).2).1
  simp only [nameViolations, h.topology.vertices_eq hM, h.topology.regions_eq hM, hnames]

theorem violations_eq (hlinks : M.topology.Linked) : L.violations = M.violations := by
  have hregions := List.flatMap_congr fun r hr =>
    h.regionViolations_eq hM (hM.mem_regions _ r (hM.owner_of_mem_regions hr).2).1
  have hvertices := List.flatMap_congr fun v hv =>
    h.vertexViolations_eq hM (hM.lt_size_of_mem_vertices hv)
  have htransitions := List.flatMap_congr fun t ht =>
    h.transitionViolations_eq hM hlinks
      (hM.mem_outgoing _ t (hM.source_of_mem_transitions ht).2).1
  simp only [violations, h.topology.vertices_eq hM, h.topology.regions_eq hM,
    h.topology.transitions_eq hM, hregions, hvertices, htransitions, h.nameViolations_eq hM]

end Extends

end Machine

end Hsm
