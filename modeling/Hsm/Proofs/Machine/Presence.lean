import Hsm.Proofs.Machine.Removal

/-!
# What is in the model and what is not removed

An element is in the model just if neither it nor anything above it was removed, and a transition
just if it was not removed and its source is in the model (`Machine.Reachable.presence`). The mark
of removal alone does not tell: what is added to a removed element bears no mark and is not in the
model, and a transition that is in the model may end in what is not.

If edits add to nothing but what is in the model (`Machine.Tended`), the mark tells, and every
transition has its ends in the model: nothing that stays has an owner that was removed, since a
removal takes along what it finds beneath (`Topology.Whole`).
-/

namespace Hsm

variable {σ : Type}

namespace Topology

variable {T U : Topology} {xs : List Element}

/-- The element was given out and has not been removed. -/
def Present (T : Topology) (e : Element) : Prop :=
  T.Has e ∧ T.isAttached e

/-- The owner of what is not removed is not removed, and neither are the ends of a transition. -/
structure Whole (T : Topology) : Prop where
  owner : ∀ e a, T.Present e → T.link e = some a → T.Present a
  ends : ∀ t, T.Live t → T.Present (.vertex (T.transition t).source) ∧
    ∀ x ∈ (T.transition t).target, T.Present (.vertex x)

theorem whole_ofName (name : String) : (Topology.ofName name).Whole where
  owner e a he ha := by
    cases e with
    | region r => exact absurd he.1 (Nat.not_lt_zero _)
    | vertex v =>
      obtain ⟨n⟩ := v
      obtain rfl : n = 0 := Nat.lt_one_iff.1 he.1
      cases ha
  ends t ht := absurd ht.1 (Nat.not_lt_zero _)

namespace Marked

variable (hT : T.Marked)
include hT

theorem present_of_listed {e : Element} (h : T.Listed e) : T.Present e :=
  have h := hT.listed_iff.1 h
  ⟨h.1, h.2 e (Forest.mem_ancestors_self (F := T.ownership) e)⟩

theorem listed_of_whole (hW : T.Whole) {e : Element} (he : T.Present e) : T.Listed e :=
  hT.listed_iff.2 ⟨he.1, fun a ha =>
    (Forest.mem_ancestors_induction (F := T.ownership) (p := T.Present) he
      (fun e a hp he => hW.owner e a he (hT.owner_eq_link ▸ hp)) a ha).2⟩

/-- What is not removed is listed by its owner. -/
theorem mem_children_of_link {e a : Element} (he : T.Present e) (h : T.link e = some a) :
    e ∈ T.children a := by
  cases e with
  | region r =>
    obtain rfl := Option.some.inj h
    exact List.mem_map_of_mem ((hT.mem_regions_iff he.1).2 he.2)
  | vertex v =>
    obtain ⟨r, hr, rfl⟩ := Option.map_eq_some_iff.1 h
    exact List.mem_map_of_mem ((hT.mem_vertices_iff he.1 hr).2 he.2)

end Marked

namespace Whole

variable (hT : T.Whole)
include hT

/-- Additions keep a topology whole if what they add belongs to what is not removed. -/
theorem of_kept (hkept : ∀ e, T.Has e → (U.Present e ↔ T.Present e) ∧ U.link e = T.link e)
    (hnew : ∀ e, ¬T.Has e → U.Has e → ∀ a, U.link e = some a → T.Present a)
    (hends : ∀ t, U.Live t → T.Present (.vertex (U.transition t).source) ∧
      ∀ x ∈ (U.transition t).target, T.Present (.vertex x)) : U.Whole where
  owner e a he ha := by
    have howner : T.Present a := by
      by_cases hold : T.Has e
      · exact hT.owner e a ((hkept e hold).1.1 he) ((hkept e hold).2 ▸ ha)
      · exact hnew e hold he.1 a ha
    exact (hkept a howner.1).1.2 howner
  ends t ht := by
    obtain ⟨hsource, htarget⟩ := hends t ht
    exact ⟨(hkept _ hsource.1).1.2 hsource, fun x hx =>
      (hkept _ (htarget x hx).1).1.2 (htarget x hx)⟩

theorem ends_of_transitionNodes (ht : U.transitionNodes = T.transitionNodes) (t : TransitionId)
    (hlive : U.Live t) : T.Present (.vertex (U.transition t).source) ∧
      ∀ x ∈ (U.transition t).target, T.Present (.vertex x) := by
  unfold Live isAttachedTransition transition at hlive
  unfold transition
  rw [ht] at hlive ⊢
  exact hT.ends t hlive

/-- Where no element changes its place, transitions matter alone. -/
theorem of_samePlaces (h : T.SamePlaces U)
    (hends : ∀ t, U.Live t → T.Present (.vertex (U.transition t).source) ∧
      ∀ x ∈ (U.transition t).target, T.Present (.vertex x)) : U.Whole := by
  have hhas : ∀ e, U.Has e ↔ T.Has e := fun e => by
    cases e <;> simp only [Has, h.regionNodes, h.size]
  refine hT.of_kept (fun e _ => ?_) (fun e hold hnew => absurd ((hhas e).1 hnew) hold) hends
  unfold Present
  rw [hhas]
  cases e <;> simp only [isAttached, link, h.region, h.parent, h.detached, and_self]

theorem addRegion {state : VertexId} (hstate : T.Present (.vertex state)) (name : String) :
    (T.addRegion name state).2.Whole := by
  have hregion := region_addRegion (T := T) name state
  have hvertex := vertex_addRegion hstate.1 name
  obtain ⟨hrs, hvs, hts⟩ := size_addRegion (T := T) name state
  generalize (T.addRegion name state).2 = U at *
  refine hT.of_kept (fun e he => ?_) (fun e hold hnew a ha => ?_)
    (hT.ends_of_transitionNodes hts)
  · cases e with
    | region s =>
      have hold : U.region s = T.region s := by rw [hregion, if_neg (Nat.ne_of_lt he)]
      have hhas : U.Has (.region s) := Nat.lt_of_lt_of_le he (by omega)
      simp only [Present, isAttached, link, hold, hhas, he, true_and, and_self]
    | vertex v =>
      simp only [Present, Has, isAttached, link, hvertex, hvs]
      split <;> exact ⟨.rfl, rfl⟩
  · cases e with
    | region s =>
      have hs : s.index = T.regionNodes.size := by
        simp only [Has] at hold hnew
        omega
      obtain rfl := Option.some.inj ha
      rwa [hregion, if_pos hs]
    | vertex v => exact absurd (hvs ▸ hnew : v.index < _) hold

/-- The default region of a state that is not removed is not removed. -/
theorem defaultRegion {state : VertexId} (hstate : T.Present (.vertex state))
    (hW : T.WellFormed) : (T.defaultRegion state).2.Whole ∧
      (T.defaultRegion state).2.Present (.region (T.defaultRegion state).1) := by
  unfold Topology.defaultRegion
  split
  · rename_i r hr
    obtain ⟨hr, hattached⟩ := Option.filter_eq_some_iff.1 hr
    exact ⟨hT, hW.default_lt state r hr, hattached⟩
  · have hU := hT.addRegion hstate defaultRegionName
    have hregion := region_addRegion (T := T) defaultRegionName state ⟨T.regionNodes.size⟩
    rw [if_pos rfl] at hregion
    refine ⟨hU.of_samePlaces
      (.modifyVertex _ _ (fun _ => rfl) (fun _ => rfl) fun _ => rfl)
      (hU.ends_of_transitionNodes rfl), ?_, ?_⟩
    · exact Nat.lt_of_lt_of_eq (Nat.lt_succ_self _)
        (size_addRegion (T := T) defaultRegionName state).1.symm
    · show (!((T.addRegion defaultRegionName state).2.region ⟨T.regionNodes.size⟩).detached) = true
      rw [hregion]
      rfl

theorem lodge {r : RegionId} {node : VertexNode} (hr : T.Present (.region r))
    (hp : node.parent = some r) : (T.lodge r node).Whole := by
  have hvertex := vertex_lodge (T := T) r node
  have hregion := region_lodge hr.1 node
  obtain ⟨hvs, hrs⟩ := size_lodge (T := T) r node
  have hts : (T.lodge r node).transitionNodes = T.transitionNodes := rfl
  generalize T.lodge r node = U at *
  refine hT.of_kept (fun e he => ?_) (fun e hold hnew a ha => ?_)
    (hT.ends_of_transitionNodes hts)
  · cases e with
    | region s =>
      simp only [Present, Has, isAttached, link, hregion, hrs]
      split <;> exact ⟨.rfl, rfl⟩
    | vertex v =>
      have hold : U.vertex v = T.vertex v := by rw [hvertex, if_neg (Nat.ne_of_lt he)]
      have hhas : U.Has (.vertex v) := Nat.lt_of_lt_of_le he (by omega)
      simp only [Present, isAttached, link, hold, hhas, he, true_and, and_self]
  · cases e with
    | region s => exact absurd (hrs ▸ hnew : s.index < _) hold
    | vertex v =>
      have hv : v.index = T.vertexNodes.size := by
        simp only [Has] at hold hnew
        omega
      simp only [link, hvertex, if_pos hv, hp, Option.map_some, Option.some.injEq] at ha
      rwa [← ha]

theorem addTransition {source : VertexId} {target : Option VertexId}
    (hs : T.Present (.vertex source)) (ht : ∀ x ∈ target, T.Present (.vertex x))
    (kind : TransitionKind) : (T.addTransition source target kind).2.Whole := by
  refine hT.of_samePlaces (samePlaces_addTransition source target kind) fun t hlive => ?_
  rw [transition_addTransition]
  rcases (live_addTransition source target kind t).1 hlive with hlive | rfl
  · rw [if_neg (Nat.ne_of_lt hlive.1)]
    exact hT.ends t hlive
  · rw [if_pos rfl]
    exact ⟨hs, ht⟩

theorem setTransitionKind (t : TransitionId) (kind : TransitionKind) :
    (T.setTransitionKind t kind).Whole := by
  refine hT.of_samePlaces ⟨rfl, rfl, fun _ => rfl, fun _ => rfl, fun _ => rfl⟩ fun u hlive => ?_
  have hsource : ((T.setTransitionKind t kind).transition u).source = (T.transition u).source :=
    read_modifyTransition TransitionNode.source t u fun _ => rfl
  have htarget : ((T.setTransitionKind t kind).transition u).target = (T.transition u).target :=
    read_modifyTransition TransitionNode.target t u fun _ => rfl
  have hdetached : ((T.setTransitionKind t kind).transition u).detached
      = (T.transition u).detached := read_modifyTransition TransitionNode.detached t u fun _ => rfl
  rw [hsource, htarget]
  unfold Live isAttachedTransition at hlive
  rw [hdetached] at hlive
  exact hT.ends u ⟨hlive.1.trans_eq (Array.size_modify ..), hlive.2⟩

theorem detachTransition (t : TransitionId) : (T.detachTransition t).Whole := by
  refine hT.of_samePlaces (samePlaces_detachTransition T t) fun u hlive => ?_
  rw [transition_detachTransition,
    read_modifyTransition TransitionNode.source t u (by simp),
    read_modifyTransition TransitionNode.target t u (by simp)]
  exact hT.ends u ((live_detachTransition t u).1 hlive).1

/-- A removal that takes along what is beneath leaves a whole. -/
theorem of_drops (hmarked : T.Marked) (h : T.Drops U xs)
    (hclosed : ∀ a ∈ xs, ∀ c ∈ T.children a, c ∈ xs) : U.Whole := by
  have hpresent : ∀ e, U.Present e ↔ T.Present e ∧ e ∉ xs := fun e => by
    unfold Present
    rw [h.has_iff]
    cases e <;> simp [isAttached, h.region, h.vertex, and_assoc]
  have hlive : ∀ t, U.Live t ↔ T.Live t ∧ ¬T.touches xs t := fun t => by
    unfold Live isAttachedTransition
    simp [h.transition, h.transitions_size, and_assoc]
  refine ⟨fun e a he ha => ?_, fun t ht => ?_⟩
  · obtain ⟨he, hx⟩ := (hpresent e).1 he
    have hlink : T.link e = some a := by
      rw [← ha]
      cases e <;> simp only [link, h.region, h.vertex]
    exact (hpresent a).2 ⟨hT.owner e a he hlink, fun hax =>
      hx (hclosed a hax e (hmarked.mem_children_of_link he hlink))⟩
  · obtain ⟨ht, hx⟩ := (hlive t).1 ht
    obtain ⟨hs, htarget⟩ := hT.ends t ht
    rw [h.transition]
    simp only [touches, Bool.or_eq_true, decide_eq_true_eq, not_or, Option.any_eq_true,
      not_exists, not_and] at hx
    exact ⟨(hpresent _).2 ⟨hs, hx.1⟩, fun x hxt => (hpresent _).2 ⟨htarget x hxt, hx.2 x hxt⟩⟩

end Whole

theorem Whole.detach (hT : T.Whole) (hmarked : T.Marked) (hlinks : T.Linked) {e : Element}
    (he : T.Has e) (hne : e ≠ .vertex root) : (T.detach e).Whole :=
  hT.of_drops hmarked (drops_detach hmarked hlinks he hne) fun _ ha _ hc =>
    hmarked.mem_subtree_of_mem_children ha hc

theorem Marked.mem_transitions_iff (hT : T.Marked) (hlinks : T.Linked) {t : TransitionId} :
    t ∈ T.transitions ↔ T.Live t ∧ (T.transition t).source ∈ T.vertices := by
  constructor
  · intro ht
    obtain ⟨hs, ht⟩ := hT.source_of_mem_transitions ht
    exact ⟨((hlinks.mem_outgoing_iff _ t).1 ht).1, hs⟩
  · rintro ⟨ht, hs⟩
    exact mem_transitions.2 ⟨_, hs, (hlinks.mem_outgoing_iff _ t).2 ⟨ht, rfl⟩⟩

end Topology

open Hsm.Topology

/-- The edit adds to nothing but what is in the model, and removes by handles that were given
out. -/
def Edit.Grounded (T : Topology) : Edit σ → Prop
  | addRegion _ state | defaultRegion state => T.Listed (.vertex state)
  | addVertex _ (.region r) _ => T.Listed (.region r)
  | addVertex _ (.state state) _ => T.Listed (.vertex state)
  | addTransition source target =>
    T.Listed (.vertex source) ∧ ∀ x ∈ target, T.Listed (.vertex x)
  | removeVertex v => T.Has (.vertex v)
  | removeRegion r => T.Has (.region r)
  | _ => True

instance (T : Topology) : ∀ e : Element, Decidable (T.Has e)
  | .region r => inferInstanceAs (Decidable (r.index < _))
  | .vertex v => inferInstanceAs (Decidable (v.index < _))

instance (T : Topology) : ∀ e : Element, Decidable (T.Listed e)
  | .region r => inferInstanceAs (Decidable (r ∈ T.regions))
  | .vertex v => inferInstanceAs (Decidable (v ∈ T.vertices))

instance (T : Topology) : ∀ e : Edit σ, Decidable (e.Grounded T)
  | .addRegion _ state | .defaultRegion state | .addVertex _ (.state state) _ =>
    inferInstanceAs (Decidable (T.Listed (.vertex state)))
  | .addVertex _ (.region r) _ => inferInstanceAs (Decidable (T.Listed (.region r)))
  | .addTransition source target =>
    inferInstanceAs (Decidable (T.Listed (.vertex source) ∧ ∀ x ∈ target, T.Listed (.vertex x)))
  | .removeVertex v => inferInstanceAs (Decidable (T.Has (.vertex v)))
  | .removeRegion r => inferInstanceAs (Decidable (T.Has (.region r)))
  | .setSettings _ | .setSeparator _ | .setTransitionKind _ _ | .modifyTransition _ _
  | .modifyState _ _ | .removeTransition _ => inferInstanceAs (Decidable True)

/-- Each edit is grounded where it is made, after those before it. -/
def Edit.AllGrounded (M : Machine σ) : List (Edit σ) → Prop
  | [] => True
  | e :: es => e.Grounded M.topology ∧ AllGrounded (e.apply M) es

instance Edit.AllGrounded.decidable : ∀ (M : Machine σ) (es : List (Edit σ)),
    Decidable (AllGrounded M es)
  | _, [] => inferInstanceAs (Decidable True)
  | M, e :: es => have := decidable (e.apply M) es; inferInstanceAs (Decidable (_ ∧ _))

/-- Models that can be built by edits that add to nothing but what is in the model. -/
inductive Machine.Tended : Machine σ → Prop
  | ofName (name : String) (settings : Settings) : Tended (.ofName name settings)
  | edit {M : Machine σ} {e : Edit σ} : Tended M → e.Valid M.topology → e.Grounded M.topology →
    Tended (e.apply M)
  | initialise {M : Machine σ} : Tended M → Tended M.initialise
  | draw {M : Machine σ} (source : IndexSource) : Tended M →
    Tended { M with settings.source := source }

theorem Edit.whole_apply {M : Machine σ} {e : Edit σ} (hM : M.topology.Whole)
    (hmarked : M.topology.Marked) (hlinks : M.topology.Linked) (hv : e.Valid M.topology)
    (he : e.Grounded M.topology) : (e.apply M).topology.Whole := by
  have hpresent : ∀ {e : Element}, M.topology.Listed e → M.topology.Present e :=
    hmarked.present_of_listed
  cases e with
  | setSettings settings | modifyTransition t f | modifyState v f => exact hM
  | setSeparator separator =>
    exact hM.of_samePlaces (U := { M.topology with separator := separator })
      ⟨rfl, rfl, fun _ => rfl, fun _ => rfl, fun _ => rfl⟩ hM.ends
  | addRegion name state => exact hM.addRegion (hpresent he) name
  | defaultRegion state => exact (hM.defaultRegion (hpresent he) hmarked.toWellFormed).1
  | addVertex name place kind =>
    cases place with
    | region r => exact hM.lodge (hpresent he) rfl
    | state state =>
      obtain ⟨hwhole, hr⟩ := hM.defaultRegion (hpresent he) hmarked.toWellFormed
      exact hwhole.lodge hr rfl
  | addTransition source target =>
    exact hM.addTransition (hpresent he.1) (fun x hx => hpresent (he.2 x hx)) .external
  | setTransitionKind t kind => exact hM.setTransitionKind t kind
  | removeTransition t =>
    simp only [apply, Machine.removeTransition]
    split
    · exact hM.detachTransition t
    · exact hM
  | removeVertex v =>
    simp only [apply, Machine.removeVertex]
    split
    · exact hM
    · rename_i hne
      split
      · exact hM.detach (e := .vertex v) hmarked hlinks he (by simpa using hne)
      · exact hM
  | removeRegion r =>
    simp only [apply, Machine.removeRegion]
    split
    · exact hM.detach (e := .region r) hmarked hlinks he (by simp)
    · exact hM

namespace Machine

variable {M : Machine σ}

namespace Tended

theorem edits : ∀ (es : List (Edit σ)) {N : Machine σ}, N.Tended → Edit.AllValid N es →
    Edit.AllGrounded N es → (es.foldl (fun M e => e.apply M) N).Tended
  | [], _, hN, _, _ => hN
  | _ :: es, _, hN, hv, hg => edits es (.edit hN hv.1 hg.1) hv.2 hg.2

theorem reachable (hM : M.Tended) : M.Reachable fun _ => True := by
  induction hM with
  | ofName name settings => exact .ofName name settings
  | edit _ hv _ ih => exact .edit ih hv trivial
  | initialise _ ih => exact .initialise ih
  | draw source _ ih => exact .draw source ih

theorem whole (hM : M.Tended) : M.topology.Whole := by
  induction hM with
  | ofName name settings => exact whole_ofName name
  | edit hM hv he ih => exact Edit.whole_apply ih hM.reachable.marked hM.reachable.linked hv he
  | initialise _ ih => exact ih
  | draw source _ ih => exact ih

end Tended

/-- An element is in the model if neither it nor anything above it was removed, and a transition if
it was not removed and its source is in the model. Where edits add to nothing else, the mark of the
element alone tells, and targets are in the model too. -/
theorem Reachable.presence (hM : M.Reachable fun _ => True) :
    (∀ e, M.topology.Listed e ↔
      M.topology.Has e ∧ ∀ a ∈ M.topology.ancestry e, M.topology.isAttached a) ∧
    (∀ t, t ∈ M.topology.transitions ↔
      M.topology.Live t ∧ (M.topology.transition t).source ∈ M.topology.vertices) ∧
    (∀ t ∈ M.topology.transitions, ∀ x ∈ (M.topology.transition t).target,
      M.topology.Has (.vertex x)) ∧
    (M.Tended →
      (∀ e, M.topology.Has e → (M.topology.isAttached e ↔ M.topology.Listed e)) ∧
      ∀ t ∈ M.topology.transitions, (M.topology.transition t).source ∈ M.topology.vertices ∧
        ∀ x ∈ (M.topology.transition t).target, x ∈ M.topology.vertices) := by
  have hmarked := hM.marked
  have htransitions := fun t => hmarked.mem_transitions_iff hM.linked (t := t)
  refine ⟨fun _ => hmarked.listed_iff, htransitions, fun t _ x hx => hM.linked.target_lt t x hx,
    fun htended => ⟨fun e he => ⟨fun h => ?_, fun h => (hmarked.present_of_listed h).2⟩,
      fun t ht => ?_⟩⟩
  · exact hmarked.listed_of_whole htended.whole ⟨he, h⟩
  · obtain ⟨hlive, hsource⟩ := (htransitions t).1 ht
    exact ⟨hsource, fun x hx =>
      hmarked.listed_of_whole htended.whole ((htended.whole.ends t hlive).2 x hx)⟩

/-- A state with another in it goes, and a third takes its place. -/
def replanted : Machine Unit := .build "m" {} [
  .addVertex "a" (.state ⟨0⟩) .state, .addRegion "p" ⟨1⟩, .addVertex "x" (.region ⟨1⟩) .state,
  .addTransition ⟨1⟩ (some ⟨2⟩), .removeVertex ⟨1⟩, .addVertex "b" (.state ⟨0⟩) .state,
  .addTransition ⟨3⟩ (some ⟨3⟩)]

theorem replanted_presence : replanted.Reachable (fun _ => True) ∧ replanted.Tended ∧
    ¬replanted.topology.Listed (.region ⟨1⟩) ∧ ¬replanted.topology.isAttached (.vertex ⟨2⟩) ∧
    replanted.topology.transitions = [⟨1⟩] ∧ ⟨3⟩ ∈ replanted.topology.vertices := by
  have htended : replanted.Tended :=
    .edits _ (.ofName "m" {}) (by decide +kernel) (by decide +kernel)
  obtain ⟨hlisted, -, -, hwhole⟩ := htended.reachable.presence
  obtain ⟨hattached, hends⟩ := hwhole htended
  have hgone : ¬replanted.topology.isAttached (.region ⟨1⟩) := by decide +kernel
  refine ⟨htended.reachable, htended, fun h => ?_, fun h => ?_, by decide +kernel, ?_⟩
  · exact hgone ((hlisted _).1 h |>.2 _ (by decide +kernel))
  · exact absurd ((hattached (.vertex ⟨2⟩) (by decide +kernel)).1 h) (by decide +kernel)
  · exact (hends ⟨1⟩ (by decide +kernel)).1

/-- A vertex is put into a region that was removed, and a transition leads to a state that was. -/
def adrift : Machine Unit := .build "m" {} [
  .addVertex "a" (.state ⟨0⟩) .state, .addVertex "b" (.state ⟨0⟩) .state, .addRegion "p" ⟨1⟩,
  .removeRegion ⟨1⟩, .addVertex "x" (.region ⟨1⟩) .state, .removeVertex ⟨2⟩,
  .addTransition ⟨1⟩ (some ⟨2⟩)]

/-- The vertex bears no mark and is not in the model. The transition is in the model and its target
is not, so it leaves its source and enters nothing. -/
theorem adrift_present : adrift.Reachable (fun _ => True) ∧
    ¬(∀ e, adrift.topology.Has e → (adrift.topology.isAttached e ↔ adrift.topology.Listed e)) ∧
    ¬(∀ t ∈ adrift.topology.transitions, ∀ x ∈ (adrift.topology.transition t).target,
      x ∈ adrift.topology.vertices) ∧
    adrift.compile.traversal ⟨0⟩ = [.leave (.vertex ⟨1⟩)] := by
  refine ⟨.build (by decide +kernel) fun _ _ => trivial, fun h => ?_, fun h => ?_, rfl⟩
  · exact absurd ((h (.vertex ⟨3⟩) (by decide +kernel)).1 (by decide +kernel)) (by decide +kernel)
  · exact absurd (h ⟨0⟩ (by decide +kernel) ⟨2⟩ (by decide +kernel)) (by decide +kernel)

end Machine

end Hsm
