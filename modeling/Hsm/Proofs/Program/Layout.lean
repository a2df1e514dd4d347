import Hsm.Program.Compile
import Hsm.Proofs.Topology.Tree

/-!
# The layout of a compiled program

A compiled program holds steps for what is in the model and for nothing else, and the steps of an
element are made from those of its children (`Machine.elementSteps`, `get?_compile`). The draft
walks from owner to owned; what it has laid out beneath an element stays as it is, since the
elements beneath two children have nothing in common.
-/

namespace Hsm

variable {σ : Type}

namespace Topology

variable (T : Topology)

/-- A deep history is the entry point of the region. -/
def entersDeep (r : RegionId) : Bool :=
  (T.regionInitial r).bind T.pseudoKind? = some .deepHistory

/-- A deep history is the entry point of a region that `v` lies in. -/
def deepAbove (v : VertexId) : Bool :=
  (T.vertexAncestry v).any fun w => (T.vertex w).parent.any T.entersDeep

variable {T}

theorem WellFormed.deepAbove_of_parent (hT : T.WellFormed) {v : VertexId} {r : RegionId}
    (h : (T.vertex v).parent = some r) :
    T.deepAbove v = (T.deepAbove (T.region r).parent || T.entersDeep r) := by
  unfold deepAbove
  rw [hT.vertexAncestry_of_parent h, List.any_append, List.any_cons, List.any_nil, Bool.or_false,
    h, Option.any_some]

theorem WellFormed.deepAbove_root (hT : T.WellFormed) : T.deepAbove root = false := by
  unfold deepAbove
  rw [hT.vertexAncestry_root, List.any_cons, List.any_nil, hT.root_parent]
  rfl

end Topology

namespace Machine

variable (M : Machine σ) (P : Program σ)

/-! ## What the steps of an element are -/

/-- A vertex becomes current in its region. -/
def currentSteps (v : VertexId) : List (Step σ) :=
  match (M.topology.vertex v).parent with
  | some r => [.setCurrent r v]
  | none => []

def pseudoSteps (v : VertexId) (k : PseudoKind) : ElementSteps σ where
  leave := [.leave (.vertex v)]
  beginEnter := .enter (.vertex v) :: M.currentSteps v ++ if k = .terminate then [.terminate] else []
  endEnter := if k.isInitial then [.resume v] else []

def stateSteps (v : VertexId) : ElementSteps σ where
  leave := (M.topology.vertex v).regions.flatMap (fun r => P.leave (.region r)) ++
    .leave (.vertex v) :: (M.stateBehavior v).exit.map .behavior
  beginEnter := .enter (.vertex v) :: M.currentSteps v ++ (M.stateBehavior v).entry.map .behavior
  endEnter := (M.topology.vertex v).regions.flatMap fun r => P.enter (.region r)

/-- The end of the entry of a region: the entry of its initial vertex, or a step that decides by
history when it is run. -/
def regionEntry (r : RegionId) : List (Step σ) :=
  match M.topology.regionInitial r with
  | some v =>
    if !M.topology.deepAbove (M.topology.region r).parent && !M.topology.isHistory v then
      P.enter (.vertex v)
    else [.enterRegion r (some v)]
  | none => [.enterRegion r none]

def regionSteps (r : RegionId) : ElementSteps σ where
  leave := [.leaveActive r, .leave (.region r)]
  beginEnter := [.enter (.region r)]
  endEnter := M.regionEntry P r

/-- The steps of an element, given those of its children. -/
def elementSteps : Element → ElementSteps σ
  | .region r => M.regionSteps P r
  | .vertex v =>
    match M.topology.kind v with
    | .pseudo k => M.pseudoSteps v k
    | _ => M.stateSteps P v

variable {M P}

theorem currentSteps_of_parent {v : VertexId} {r : RegionId}
    (h : (M.topology.vertex v).parent = some r) : M.currentSteps v = [.setCurrent r v] := by
  unfold currentSteps
  rw [h]

theorem elementSteps_state {v : VertexId} (h : M.topology.isState v) :
    M.elementSteps P (.vertex v) = M.stateSteps P v := by
  unfold Topology.isState at h
  simp only [elementSteps]
  split
  · rename_i k hk
    rw [hk] at h
    cases h
  · rfl

theorem elementSteps_pseudo {v : VertexId} {k : PseudoKind}
    (h : M.topology.kind v = .pseudo k) : M.elementSteps P (.vertex v) = M.pseudoSteps v k := by
  simp only [elementSteps, h]

theorem steps_congr {Q : Program σ} {e : Element} (h : P.elements.get? e = Q.elements.get? e) :
    P.steps e = Q.steps e := by
  unfold Program.steps
  rw [h]

theorem elementSteps_congr {Q : Program σ} {e : Element}
    (h : ∀ c ∈ M.topology.children e, P.elements.get? c = Q.elements.get? c) :
    M.elementSteps P e = M.elementSteps Q e := by
  cases e with
  | region r =>
    have hv : ∀ v ∈ (M.topology.region r).vertices, P.steps (.vertex v) = Q.steps (.vertex v) :=
      fun v hv => steps_congr (h _ (List.mem_map.2 ⟨v, hv, rfl⟩))
    simp only [elementSteps, regionSteps, regionEntry]
    split
    · rename_i v hi
      simp only [Program.enter, Program.beginEnter, Program.endEnter,
        hv v (Topology.regionInitial_mem hi)]
    · rfl
  | vertex v =>
    have hr : ∀ r ∈ (M.topology.vertex v).regions, P.steps (.region r) = Q.steps (.region r) :=
      fun r hr => steps_congr (h _ (List.mem_map.2 ⟨r, hr, rfl⟩))
    have hleave : (M.topology.vertex v).regions.flatMap (fun r => P.leave (.region r))
        = (M.topology.vertex v).regions.flatMap fun r => Q.leave (.region r) :=
      congrArg List.flatten (List.map_congr_left fun r h => by unfold Program.leave; rw [hr r h])
    have henter : (M.topology.vertex v).regions.flatMap (fun r => P.enter (.region r))
        = (M.topology.vertex v).regions.flatMap fun r => Q.enter (.region r) :=
      congrArg List.flatten (List.map_congr_left fun r h => by
        unfold Program.enter Program.beginEnter Program.endEnter; rw [hr r h])
    simp only [elementSteps, stateSteps, hleave, henter]

theorem regionEntry_congr {Q : Program σ} {r : RegionId}
    (h : ∀ c ∈ M.topology.children (.region r), P.elements.get? c = Q.elements.get? c) :
    M.regionEntry P r = M.regionEntry Q r :=
  congrArg ElementSteps.endEnter (elementSteps_congr (M := M) (e := .region r) h)

end Machine

/-! ## The draft of one element -/

namespace Draft

variable (D : Draft σ)

/-- The steps drafted for an element, if it was drafted. -/
def get? (e : Element) : Option (ElementSteps σ) :=
  D.program.elements.get? e

theorem get?_modify (e e' : Element) (f : ElementSteps σ → ElementSteps σ) :
    (D.modify e f).get? e' = if e' = e then some (f ((D.get? e).getD {})) else D.get? e' :=
  Assoc.get?_alter _ _ _ _

end Draft

namespace Machine

variable {M : Machine σ} {D : Draft σ}

theorem get?_draftVertex (v : VertexId) (e : Element) :
    (M.draftVertex v D).get? e = if e = .vertex v then
      some ⟨((D.get? (.vertex v)).getD {}).leave ++ [.leave (.vertex v)],
        ((D.get? (.vertex v)).getD {}).beginEnter ++ .enter (.vertex v) :: M.currentSteps v,
        ((D.get? (.vertex v)).getD {}).endEnter⟩
    else D.get? e := by
  unfold draftVertex currentSteps
  cases (M.topology.vertex v).parent <;> by_cases he : e = .vertex v <;>
    simp only [Draft.announce, Draft.addLeave, Draft.addBeginEnter, Draft.get?_modify, he, if_true,
      if_false, Option.getD_some, List.append_assoc, List.cons_append, List.nil_append]

theorem get?_draftPseudo {v : VertexId} (k : PseudoKind) (hD : D.get? (.vertex v) = none)
    (e : Element) :
    (M.draftPseudo v k D).get? e = if e = .vertex v then some (M.pseudoSteps v k)
      else D.get? e := by
  unfold draftPseudo pseudoSteps
  dsimp only
  by_cases he : e = .vertex v
  · subst he
    cases k <;>
      simp only [PseudoKind.isInitial, PseudoKind.isHistory, Draft.addEndEnter, Draft.addBeginEnter,
        Draft.get?_modify, get?_draftVertex, hD, if_true, if_false, Option.getD_some,
        Option.getD_none, List.nil_append, List.append_nil, reduceCtorEq, decide_true, decide_false,
        Bool.or_true, Bool.or_false, Bool.false_eq_true]
  · split
    · simp only [Draft.addEndEnter, Draft.get?_modify, get?_draftVertex, he, if_false]
    · split <;>
        simp only [Draft.addBeginEnter, Draft.get?_modify, get?_draftVertex, he, if_false]

/-- What is drafted for a region after its vertices. -/
theorem get?_announce_region {r : RegionId} (entry : List (Step σ))
    (hD : D.get? (.region r) = none) (e : Element) :
    (((D.addLeave (.region r) [.leaveActive r]).addEndEnter (.region r) entry).announce
      (.region r)).get? e = if e = .region r then
        some ⟨[.leaveActive r, .leave (.region r)], [.enter (.region r)], entry⟩ else D.get? e := by
  by_cases he : e = .region r <;>
    simp only [Draft.announce, Draft.addLeave, Draft.addBeginEnter, Draft.addEndEnter,
      Draft.get?_modify, he, hD, if_true, if_false, Option.getD_some, Option.getD_none,
      List.nil_append, List.cons_append]

/-- What is drafted for a state after its regions. -/
theorem get?_addBehavior {v : VertexId} {exit entry : List (Step σ)} (e : Element) :
    (((M.draftVertex v D).addLeave (.vertex v) exit).addBeginEnter (.vertex v) entry).get? e =
      if e = .vertex v then
        some ⟨((D.get? (.vertex v)).getD {}).leave ++ .leave (.vertex v) :: exit,
          ((D.get? (.vertex v)).getD {}).beginEnter ++ .enter (.vertex v) :: M.currentSteps v ++ entry,
          ((D.get? (.vertex v)).getD {}).endEnter⟩
      else D.get? e := by
  by_cases he : e = .vertex v <;>
    simp only [Draft.addLeave, Draft.addBeginEnter, Draft.get?_modify, get?_draftVertex, he,
      if_true, if_false, Option.getD_some, List.append_assoc, List.cons_append, List.nil_append]

/-! ## Drafting beneath an element -/

/-- Going from `D` to `D'` lays out what is beneath `a`, and changes nothing else. -/
structure Lays (M : Machine σ) (a : Element) (D D' : Draft σ) : Prop where
  laid : ∀ e, M.topology.Beneath a e → D'.get? e = some (M.elementSteps D'.program e)
  kept : ∀ e, ¬M.topology.Beneath a e → D'.get? e = D.get? e

/-- Nothing beneath `a` is drafted yet. -/
def Fresh (M : Machine σ) (a : Element) (D : Draft σ) : Prop :=
  ∀ e, M.topology.Beneath a e → D.get? e = none

section

variable (hT : M.topology.WellFormed)
include hT

/-- What is laid out stays so as long as it is not touched. -/
theorem laid_of_kept {a : Element} {D D' : Draft σ}
    (h : ∀ e, M.topology.Beneath a e → D.get? e = some (M.elementSteps D.program e))
    (hk : ∀ e, M.topology.Beneath a e → D'.get? e = D.get? e) :
    ∀ e, M.topology.Beneath a e → D'.get? e = some (M.elementSteps D'.program e) := by
  intro e he
  rw [hk e he, h e he]
  refine congrArg some (elementSteps_congr fun c hc => (hk c ?_).symm)
  exact ⟨hT.listed_of_mem_children he.1 hc, Forest.mem_ancestors_trans he.2
    ((Forest.mem_ancestors_of_parent (F := M.topology.ownership)
      (hT.owner_of_mem_children hc)).2 (.inr (Forest.mem_ancestors_self _)))⟩

/-- An element is laid out with its children and then itself. -/
theorem Lays.of_children {a : Element} {D C B : Draft σ} (ha : M.topology.Listed a)
    (hlaid : ∀ c ∈ M.topology.children a, ∀ e, M.topology.Beneath c e →
      C.get? e = some (M.elementSteps C.program e))
    (hkept : ∀ e, (∀ c ∈ M.topology.children a, ¬M.topology.Beneath c e) → e ≠ a →
      C.get? e = D.get? e)
    (hother : ∀ e, e ≠ a → B.get? e = C.get? e)
    (hself : B.get? a = some (M.elementSteps B.program a)) : M.Lays a D B where
  laid e he := by
    rcases hT.beneath_cases he with rfl | ⟨c, hc, hce⟩
    · exact hself
    · refine laid_of_kept hT (hlaid c hc) (fun x hx => hother x ?_) e hce
      rintro rfl
      exact hT.not_beneath_child hc hx
  kept e he := by
    have hne : e ≠ a := by
      rintro rfl
      exact he (Topology.beneath_self ha)
    rw [hother e hne]
    exact hkept e (fun c hc hce => he (hT.beneath_of_child hc hce)) hne

/-- Drafting children of `a` one after the other, with a note of each in what is drafted for `a`
itself, lays out all of them and leaves the notes in order. -/
theorem lays_children {α : Type} {a : Element} (child : α → Element)
    (draft : Draft σ → α → Draft σ) (note : Draft σ → α → Draft σ)
    (entry : α → ElementSteps σ → Option (ElementSteps σ) → Option (ElementSteps σ))
    (ha : M.topology.Listed a)
    (hdraft : ∀ D x, child x ∈ M.topology.children a → M.Fresh (child x) D →
      M.Lays (child x) D (draft D x))
    (hnote : ∀ D x e, (note D x).get? e =
      if e = a then entry x (D.program.steps (child x)) (D.get? a) else D.get? e) :
    ∀ (xs : List α) (D : Draft σ), (xs.map child).Nodup →
      (∀ x ∈ xs, child x ∈ M.topology.children a) → (∀ x ∈ xs, M.Fresh (child x) D) →
      ∃ D', xs.foldl (fun D x => note (draft D x) x) D = D'
        ∧ (∀ x ∈ xs, ∀ e, M.topology.Beneath (child x) e →
            D'.get? e = some (M.elementSteps D'.program e))
        ∧ (∀ e, (∀ x ∈ xs, ¬M.topology.Beneath (child x) e) → e ≠ a → D'.get? e = D.get? e)
        ∧ D'.get? a = xs.foldl (fun o x => entry x (D'.program.steps (child x)) o) (D.get? a)
  | [], D, _, _, _ => ⟨D, rfl, fun _ h => absurd h List.not_mem_nil, fun _ _ _ => rfl, rfl⟩
  | x :: xs, D, hnd, hc, hfresh => by
    obtain ⟨hx, hnd⟩ := List.nodup_cons.1 hnd
    have hcx := hc x List.mem_cons_self
    have hlays := hdraft D x hcx (hfresh x List.mem_cons_self)
    have hapart : ∀ y ∈ xs, ∀ e, M.topology.Beneath (child y) e →
        ¬M.topology.Beneath (child x) e := fun y hy e hye hxe =>
      hx (List.mem_map.2 ⟨y, hy, hT.child_unique (hc y (List.mem_cons_of_mem _ hy)) hcx hye hxe⟩)
    have hne : ∀ y ∈ x :: xs, ∀ e, M.topology.Beneath (child y) e → e ≠ a := by
      rintro y hy _ hye rfl
      exact hT.not_beneath_child (hc y hy) hye
    have hstep : ∀ e, e ≠ a → (note (draft D x) x).get? e = (draft D x).get? e :=
      fun e he => by rw [hnote, if_neg he]
    obtain ⟨D', hD', hlaid, hkept, hown⟩ := lays_children child draft note entry ha hdraft
      hnote xs (note (draft D x) x) hnd (fun y hy => hc y (List.mem_cons_of_mem _ hy))
      fun y hy e hye => by
        rw [hstep e (hne y (List.mem_cons_of_mem _ hy) e hye), hlays.kept e (hapart y hy e hye)]
        exact hfresh y (List.mem_cons_of_mem _ hy) e hye
    have hkept' : ∀ e, M.topology.Beneath (child x) e → D'.get? e = (draft D x).get? e := by
      intro e he
      have hea := hne x List.mem_cons_self e he
      rw [hkept e (fun y hy hye => hapart y hy e hye he) hea, hstep e hea]
    refine ⟨D', hD', fun y hy => ?_, fun e he hea => ?_, ?_⟩
    · rcases List.mem_cons.1 hy with rfl | hy
      · exact laid_of_kept hT hlays.laid hkept'
      · exact hlaid y hy
    · rw [hkept e (fun y hy => he y (List.mem_cons_of_mem _ hy)) hea, hstep e hea]
      exact hlays.kept e (he x List.mem_cons_self)
    · rw [hown, List.foldl_cons, hnote, if_pos rfl, hlays.kept a (hT.not_beneath_child hcx)]
      have hs : (draft D x).program.steps (child x) = D'.program.steps (child x) :=
        steps_congr (hkept' _ (Topology.beneath_self (hT.listed_of_mem_children ha hcx))).symm
      rw [hs]

theorem fresh_of_child {a c : Element} {D : Draft σ} (h : M.Fresh a D)
    (hc : c ∈ M.topology.children a) : M.Fresh c D :=
  fun e he => h e (hT.beneath_of_child hc he)

omit hT in
theorem draftRegion_eq (draft : VertexId → Bool → Draft σ → Draft σ) (r : RegionId) (D : Draft σ)
    {D₁ : Draft σ}
    (hD₁ : (M.topology.region r).vertices.foldl (fun D v => draft v
      (M.topology.deepAbove (M.topology.region r).parent || M.topology.entersDeep r) D) D = D₁) :
    M.draftRegion draft (M.topology.deepAbove (M.topology.region r).parent) r D =
      ((D₁.addLeave (.region r) [.leaveActive r]).addEndEnter (.region r)
        (M.regionEntry (D₁.addLeave (.region r) [.leaveActive r]).program r)).announce
          (.region r) := by
  unfold draftRegion regionEntry
  dsimp only
  cases hi : M.topology.regionInitial r with
  | none =>
    unfold Topology.entersDeep at hD₁
    rw [hi] at hD₁
    dsimp only at hD₁ ⊢
    rw [hD₁]
  | some v =>
    unfold Topology.entersDeep at hD₁
    rw [hi] at hD₁
    dsimp only at hD₁ ⊢
    rw [hD₁]
    rfl

theorem draftRegion_lays {draft : VertexId → Bool → Draft σ → Draft σ} {r : RegionId}
    (hr : r ∈ M.topology.regions)
    (hdraft : ∀ D, ∀ v ∈ (M.topology.region r).vertices, M.Fresh (.vertex v) D →
      M.Lays (.vertex v) D (draft v (M.topology.deepAbove v) D))
    {D : Draft σ} (hD : M.Fresh (.region r) D) :
    M.Lays (.region r) D
      (M.draftRegion draft (M.topology.deepAbove (M.topology.region r).parent) r D) := by
  have hdeep : ∀ v ∈ (M.topology.region r).vertices, M.topology.deepAbove v =
      (M.topology.deepAbove (M.topology.region r).parent || M.topology.entersDeep r) :=
    fun v hv => hT.deepAbove_of_parent (hT.mem_vertices r v hv).2
  obtain ⟨D₁, hD₁, hlaid, hkept, hown⟩ := lays_children hT (a := .region r) Element.vertex
    (fun D v => draft v (M.topology.deepAbove (M.topology.region r).parent ||
      M.topology.entersDeep r) D) (fun D _ => D) (fun _ _ o => o) hr
    (fun D v hv h => by
      obtain ⟨w, hw, he⟩ := List.mem_map.1 hv
      obtain rfl := Element.vertex.inj he
      exact hdeep w hw ▸ hdraft D w hw h)
    (fun D _ e => (ite_eq_right_iff.2 fun h => h ▸ rfl).symm)
    (M.topology.region r).vertices D (hT.nodup_children (.region r))
    (fun v hv => List.mem_map.2 ⟨v, hv, rfl⟩)
    fun v hv => fresh_of_child hT hD (List.mem_map.2 ⟨v, hv, rfl⟩)
  have hfresh : D₁.get? (.region r) = none :=
    (hown.trans (List.foldl_fixed' (fun _ => rfl) _)).trans (hD _ (Topology.beneath_self hr))
  rw [draftRegion_eq draft r D hD₁]
  have hget := get?_announce_region
    (M.regionEntry (D₁.addLeave (.region r) [.leaveActive r]).program r) hfresh
  refine Lays.of_children hT hr (C := D₁) (fun c hc => ?_) (fun e he hne => ?_)
    (fun e he => by rw [hget, if_neg he]) ?_
  · obtain ⟨v, hv, rfl⟩ := List.mem_map.1 hc
    exact hlaid v hv
  · exact hkept e (fun v hv => he _ (List.mem_map.2 ⟨v, hv, rfl⟩)) hne
  · rw [hget, if_pos rfl]
    refine congrArg some (congrArg (ElementSteps.mk _ _) (regionEntry_congr fun c hc => ?_))
    have hne : c ≠ .region r := by
      rintro rfl
      exact hT.not_beneath_child hc (Topology.beneath_self hr)
    exact ((Draft.get?_modify _ _ _ _).trans (if_neg hne)).trans ((hget c).trans (if_neg hne)).symm

omit hT in
theorem foldl_notes (steps : RegionId → ElementSteps σ) :
    ∀ (rs : List RegionId) (o : Option (ElementSteps σ)),
      (rs.foldl (fun o r => some
        ⟨(o.getD {}).leave ++ (steps r).leave, (o.getD {}).beginEnter,
          (o.getD {}).endEnter ++ ((steps r).beginEnter ++ (steps r).endEnter)⟩) o).getD {} =
        ⟨(o.getD {}).leave ++ rs.flatMap fun r => (steps r).leave, (o.getD {}).beginEnter,
          (o.getD {}).endEnter ++ rs.flatMap fun r => (steps r).beginEnter ++ (steps r).endEnter⟩
  | [], o => by simp only [List.foldl_nil, List.flatMap_nil, List.append_nil]
  | r :: rs, o => by
    rw [List.foldl_cons, foldl_notes steps rs]
    simp only [Option.getD_some, List.flatMap_cons, List.append_assoc]

theorem draftState_lays {draftRegion : RegionId → Draft σ → Draft σ} {v : VertexId}
    (hv : v ∈ M.topology.vertices) (hs : M.topology.isState v)
    (hdraft : ∀ D, ∀ r ∈ (M.topology.vertex v).regions, M.Fresh (.region r) D →
      M.Lays (.region r) D (draftRegion r D))
    {D : Draft σ} (hD : M.Fresh (.vertex v) D) :
    M.Lays (.vertex v) D (M.draftState draftRegion v D) := by
  obtain ⟨D₁, hD₁, hlaid, hkept, hown⟩ := lays_children hT (a := .vertex v) Element.region
    (fun D r => draftRegion r D)
    (fun D r => (D.addLeave (.vertex v) (D.program.leave (.region r))).addEndEnter (.vertex v)
      (D.program.enter (.region r)))
    (fun _ s o => some ⟨(o.getD {}).leave ++ s.leave, (o.getD {}).beginEnter,
      (o.getD {}).endEnter ++ (s.beginEnter ++ s.endEnter)⟩) hv
    (fun D r hr h => by
      obtain ⟨s, hs, he⟩ := List.mem_map.1 hr
      obtain rfl := Element.region.inj he
      exact hdraft D s hs h)
    (fun D r e => by
      by_cases he : e = .vertex v
      · subst he
        simp only [Draft.addLeave, Draft.addEndEnter, Draft.get?_modify, if_true, Option.getD_some]
        rfl
      · simp only [Draft.addLeave, Draft.addEndEnter, Draft.get?_modify, he, if_false])
    (M.topology.vertex v).regions D (hT.nodup_children (.vertex v))
    (fun r hr => List.mem_map.2 ⟨r, hr, rfl⟩)
    fun r hr => fresh_of_child hT hD (List.mem_map.2 ⟨r, hr, rfl⟩)
  have hregions := foldl_notes (fun r => D₁.program.steps (.region r))
    (M.topology.vertex v).regions (D.get? (.vertex v))
  rw [← hown, hD _ (Topology.beneath_self hv)] at hregions
  unfold draftState
  dsimp only
  rw [hD₁]
  refine Lays.of_children hT hv (C := D₁) (fun c hc => ?_) (fun e he hne => ?_)
    (fun e he => by rw [get?_addBehavior, if_neg he]) ?_
  · obtain ⟨r, hr, rfl⟩ := List.mem_map.1 hc
    exact hlaid r hr
  · exact hkept e (fun r hr => he _ (List.mem_map.2 ⟨r, hr, rfl⟩)) hne
  · rw [← elementSteps_congr (M := M) (P := D₁.program) fun c hc => ?_, elementSteps_state hs,
      get?_addBehavior, if_pos rfl, hregions]
    · rfl
    · have hne : c ≠ .vertex v := by
        rintro rfl
        exact hT.not_beneath_child hc (Topology.beneath_self hv)
      exact ((get?_addBehavior c).trans (if_neg hne)).symm

theorem draftWithin_lays :
    ∀ (n : Nat) {v : VertexId} {D : Draft σ}, M.topology.vertexNodes.size < v.index + n →
      v ∈ M.topology.vertices → M.Fresh (.vertex v) D →
      M.Lays (.vertex v) D (M.draftWithin n v (M.topology.deepAbove v) D)
  | 0, v, D, hn, hv, _ => by
    have h := hT.lt_size_of_mem_vertices hv
    omega
  | n + 1, v, D, hn, hv, hD => by
    unfold draftWithin
    cases hk : M.topology.kind v with
    | pseudo k =>
      have hnil : M.topology.children (.vertex v) = [] := by
        have hr : (M.topology.vertex v).regions = [] := by
          refine Classical.byContradiction fun h => ?_
          have hs := hT.isState_of_regions v h
          unfold Topology.isState at hs
          rw [hk] at hs
          cases hs
        show (M.topology.vertex v).regions.map Element.region = []
        rw [hr]
        rfl
      have hget := get?_draftPseudo (M := M) k (hD _ (Topology.beneath_self hv))
      refine Lays.of_children hT hv (C := D) (fun c hc => ?_) (fun _ _ _ => rfl) (fun e he => ?_) ?_
      · rw [hnil] at hc
        exact absurd hc List.not_mem_nil
      · rw [hget, if_neg he]
      · rw [hget, if_pos rfl, elementSteps_pseudo hk]
    | state | finalState | machine =>
      refine draftState_lays hT hv (by unfold Topology.isState; rw [hk]; rfl)
        (fun D r hr hD => ?_) hD
      have hp := (hT.mem_regions v r hr).2
      rw [← hp]
      refine draftRegion_lays hT (Topology.mem_regions.2 ⟨v, hv, hr⟩) (fun D w hw hD => ?_) hD
      have hlt := (hT.parent_lt w r (hT.mem_vertices r w hw).2).2
      rw [hp] at hlt
      exact draftWithin_lays n (by omega) (hT.mem_vertices_of_owner hv hr hw) hD

end

/-- A draft comes about by changes of single elements alone. -/
theorem draftWithin_induction {p : Draft σ → Prop} (hmodify : ∀ D e f, p D → p (D.modify e f)) :
    ∀ (n : Nat) (v : VertexId) (deepAbove : Bool) {D : Draft σ}, p D →
      p (M.draftWithin n v deepAbove D)
  | 0, _, _, _, hD => hD
  | n + 1, v, deepAbove, D, hD => by
    have ih := draftWithin_induction hmodify n
    have hfold : ∀ {α : Type} {f : Draft σ → α → Draft σ}, (∀ D x, p D → p (f D x)) →
        ∀ (xs : List α) {D : Draft σ}, p D → p (xs.foldl f D) := fun {α f} hf xs => by
      induction xs with
      | nil => exact fun hD => hD
      | cons x xs ih => exact fun hD => ih (hf _ x hD)
    have hleave : ∀ {D : Draft σ} (e : Element) (steps : List (Step σ)), p D →
        p (D.addLeave e steps) := fun e _ hD => hmodify _ e _ hD
    have hbegin : ∀ {D : Draft σ} (e : Element) (steps : List (Step σ)), p D →
        p (D.addBeginEnter e steps) := fun e _ hD => hmodify _ e _ hD
    have hend : ∀ {D : Draft σ} (e : Element) (steps : List (Step σ)), p D →
        p (D.addEndEnter e steps) := fun e _ hD => hmodify _ e _ hD
    have hvertex : ∀ {D : Draft σ}, p D → p (M.draftVertex v D) := fun {D} hD => by
      unfold draftVertex Draft.announce
      dsimp only
      split
      · exact hbegin _ _ (hbegin _ _ (hleave _ _ hD))
      · exact hbegin _ _ (hleave _ _ hD)
    unfold draftWithin
    split
    · unfold draftPseudo
      dsimp only
      split
      · exact hend _ _ (hvertex hD)
      · split
        · exact hbegin _ _ (hvertex hD)
        · exact hvertex hD
    · unfold draftState
      refine hbegin _ _ (hleave _ _ (hvertex (hfold (fun D r hD => ?_) _ hD)))
      refine hend _ _ (hleave _ _ ?_)
      unfold draftRegion Draft.announce
      exact hbegin _ _ (hleave _ _ (hend _ _ (hleave _ _ (hfold (fun D w hD => ih w _ hD) _ hD))))

/-! ## Traversals -/

variable (M) in
/-- The steps along a transition. -/
def traversalSteps (P : Program σ) (t : TransitionId) : List (Step σ) :=
  let node := M.topology.transition t
  match node.kind, node.target with
  | .internal, _ | _, none => (M.effects t).map .behavior ++
    if M.settings.completeInternal then [.completeInternal node.source] else []
  | .external, some target => M.externalSteps P node.source target (M.effects t)
  | .within, some target =>
    if M.staysWithin node.source target then [.traverseWithin t]
    else M.externalSteps P node.source target (M.effects t)

theorem draftTransition_program (D : Draft σ) (t : TransitionId) :
    (M.draftTransition D t).program = { D.program with
      traversals := D.program.traversals.insert t (M.traversalSteps D.program t) } := by
  unfold draftTransition traversalSteps
  generalize hn : M.topology.transition t = node
  obtain ⟨source, target, kind, detached⟩ := node
  cases kind <;> cases target <;> dsimp only
  split <;> rfl

theorem cascade_congr {T : Topology} {P Q : Program σ} (h : P.elements = Q.elements) :
    ∀ path, P.cascade T path = Q.cascade T path
  | [] => rfl
  | [v] => by
    simp only [Program.cascade, Program.beginEnter, Program.steps, h]
  | v :: w :: rest => by
    simp only [Program.cascade, Program.enterBeside, Program.beginEnter, Program.endEnter,
      Program.steps, h, cascade_congr h (w :: rest)]

theorem traversalSteps_congr {P Q : Program σ} (h : P.elements = Q.elements) (t : TransitionId) :
    M.traversalSteps P t = M.traversalSteps Q t := by
  have hext : ∀ source target effects, M.externalSteps P source target effects
      = M.externalSteps Q source target effects := fun source target effects => by
    simp only [externalSteps, cascade_congr h, Program.leave, Program.endEnter, Program.steps, h]
  simp only [traversalSteps, hext]

theorem foldl_draftTransition :
    ∀ (ts : List TransitionId) (D : Draft σ),
      (ts.foldl M.draftTransition D).program.elements = D.program.elements
        ∧ ∀ t, (ts.foldl M.draftTransition D).program.traversals.get? t =
          if t ∈ ts then some (M.traversalSteps D.program t) else D.program.traversals.get? t
  | [], D => ⟨rfl, fun t => (if_neg List.not_mem_nil).symm⟩
  | u :: ts, D => by
    obtain ⟨helements, htraversals⟩ := foldl_draftTransition ts (M.draftTransition D u)
    have hu := M.draftTransition_program D u
    have helements' : (M.draftTransition D u).program.elements = D.program.elements := by rw [hu]
    refine ⟨helements.trans helements', fun t => ?_⟩
    rw [List.foldl_cons, htraversals, traversalSteps_congr helements', hu]
    simp only [Assoc.get?_insert, List.mem_cons]
    by_cases ht : t = u
    · simp only [ht, true_or, if_true, ite_self]
    · simp only [ht, false_or, if_false]

/-! ## The compiled program -/

section

variable (hT : M.topology.WellFormed)
include hT

theorem compile_lays :
    M.Lays (.vertex Topology.root) {} (M.draftWithin (M.topology.vertexNodes.size + 1)
      Topology.root false {}) :=
  hT.deepAbove_root ▸ draftWithin_lays hT (M.topology.vertexNodes.size + 1)
    (Nat.lt_of_lt_of_le (Nat.lt_succ_self _) (Nat.le_add_left _ _)) Topology.root_mem_vertices
    fun _ _ => rfl

omit hT in
theorem elements_compile : M.compile.elements =
    (M.draftWithin (M.topology.vertexNodes.size + 1) Topology.root false {}).program.elements :=
  (foldl_draftTransition _ _).1

/-- The steps of what is in the model are made from those of its children. -/
theorem get?_compile {e : Element} (he : M.topology.Listed e) :
    M.compile.elements.get? e = some (M.elementSteps M.compile e) := by
  have h := (compile_lays hT).laid e (hT.beneath_root he)
  unfold Draft.get? at h
  rw [elements_compile, h]
  exact congrArg some (elementSteps_congr fun c _ => by rw [elements_compile])

theorem get?_compile_of_not_listed {e : Element} (he : ¬M.topology.Listed e) :
    M.compile.elements.get? e = none := by
  rw [elements_compile]
  exact (compile_lays hT).kept e fun h => he h.1

omit hT in
theorem get?_traversals_compile (t : TransitionId) :
    M.compile.traversals.get? t =
      if t ∈ M.topology.transitions then some (M.traversalSteps M.compile t) else none := by
  have h := (foldl_draftTransition (M := M) M.topology.transitions
    (M.draftWithin (M.topology.vertexNodes.size + 1) Topology.root false {})).2 t
  rw [draftWithin_induction (p := fun D => D.program.traversals = {}) (fun _ _ _ h => h) _ _ _ rfl]
    at h
  rw [traversalSteps_congr elements_compile]
  exact h

/-! ### The steps of each kind of element -/

theorem steps_compile {e : Element} (he : M.topology.Listed e) :
    M.compile.steps e = M.elementSteps M.compile e := by
  unfold Program.steps
  rw [get?_compile hT he]
  rfl

theorem steps_compile_of_not_listed {e : Element} (he : ¬M.topology.Listed e) :
    M.compile.steps e = {} := by
  unfold Program.steps
  rw [get?_compile_of_not_listed hT he]
  rfl

theorem leave_region {r : RegionId} (hr : r ∈ M.topology.regions) :
    M.compile.leave (.region r) = [.leaveActive r, .leave (.region r)] := by
  unfold Program.leave
  rw [steps_compile hT (e := .region r) hr]
  rfl

theorem beginEnter_region {r : RegionId} (hr : r ∈ M.topology.regions) :
    M.compile.beginEnter (.region r) = [.enter (.region r)] := by
  unfold Program.beginEnter
  rw [steps_compile hT (e := .region r) hr]
  rfl

theorem endEnter_region {r : RegionId} (hr : r ∈ M.topology.regions) :
    M.compile.endEnter (.region r) = M.regionEntry M.compile r := by
  unfold Program.endEnter
  rw [steps_compile hT (e := .region r) hr]
  rfl

variable {v : VertexId} (hv : v ∈ M.topology.vertices)
include hv

theorem leave_state (hs : M.topology.isState v) : M.compile.leave (.vertex v) =
    (M.topology.vertex v).regions.flatMap (fun r => M.compile.leave (.region r)) ++
      .leave (.vertex v) :: (M.stateBehavior v).exit.map .behavior := by
  rw [Program.leave, steps_compile hT (e := .vertex v) hv, elementSteps_state hs]
  rfl

theorem beginEnter_state (hs : M.topology.isState v) : M.compile.beginEnter (.vertex v) =
    .enter (.vertex v) :: M.currentSteps v ++ (M.stateBehavior v).entry.map .behavior := by
  rw [Program.beginEnter, steps_compile hT (e := .vertex v) hv, elementSteps_state hs]
  rfl

theorem endEnter_state (hs : M.topology.isState v) : M.compile.endEnter (.vertex v) =
    (M.topology.vertex v).regions.flatMap fun r => M.compile.enter (.region r) := by
  rw [Program.endEnter, steps_compile hT (e := .vertex v) hv, elementSteps_state hs]
  rfl

variable {k : PseudoKind} (hk : M.topology.kind v = .pseudo k)
include hk

theorem leave_pseudo : M.compile.leave (.vertex v) = [.leave (.vertex v)] := by
  rw [Program.leave, steps_compile hT (e := .vertex v) hv, elementSteps_pseudo hk]
  rfl

theorem beginEnter_pseudo : M.compile.beginEnter (.vertex v) =
    .enter (.vertex v) :: M.currentSteps v ++ if k = .terminate then [.terminate] else [] := by
  rw [Program.beginEnter, steps_compile hT (e := .vertex v) hv, elementSteps_pseudo hk]
  rfl

theorem endEnter_pseudo :
    M.compile.endEnter (.vertex v) = if k.isInitial then [.resume v] else [] := by
  rw [Program.endEnter, steps_compile hT (e := .vertex v) hv, elementSteps_pseudo hk]
  rfl

omit hT hv hk

theorem traversal_compile {t : TransitionId} (ht : t ∈ M.topology.transitions) :
    M.compile.traversal t = M.traversalSteps M.compile t := by
  unfold Program.traversal
  rw [get?_traversals_compile, if_pos ht]
  rfl

theorem traversal_compile_of_not_mem {t : TransitionId} (ht : t ∉ M.topology.transitions) :
    M.compile.traversal t = [] := by
  unfold Program.traversal
  rw [get?_traversals_compile, if_neg ht]
  rfl

theorem onInitialise_compile :
    M.compile.onInitialise = M.compile.enter (.vertex Topology.root) :=
  rfl

end

end Machine

end Hsm
