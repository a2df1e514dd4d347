import Hsm.Proofs.Engine.Rules
import Hsm.Proofs.Instance.Seated
import Hsm.Proofs.Program.Locality

/-!
# What stays within a region

As long as the owner of a region is active, whatever the engine does about what is in the region
changes nothing outside of it, unless a transition leads out of the region on the way
(`engine_confines`). After that nothing is said.
-/

namespace Hsm

variable {σ ι : Type}

namespace Topology

variable (T : Topology) (r : RegionId)

/-- The transition leads out of the region. -/
def Escapes (t : TransitionId) : Prop :=
  T.Along (T.transition t).source r ∧ ∃ x ∈ (T.transition t).target, ¬T.Along x r

instance (t : TransitionId) : Decidable (T.Escapes r t) :=
  inferInstanceAs (Decidable (_ ∧ ∃ x ∈ _, _))

end Topology

/-- What the event tells to be left or to become current is in the region. -/
def Event.Within (T : Topology) (r : RegionId) : Event → Prop
  | .setCurrent s v => T.Holds s v ∧ T.Along v r
  | .left (.vertex v) => T.Along v r
  | _ => True

theorem Event.within_of_mute {T : Topology} {r : RegionId} : ∀ e : Event, e.Mute → e.Within T r :=
  fun e h => by
    cases e with
    | setCurrent | left => exact h.elim
    | _ => trivial

section

variable [Instance ι]

/-- The regions outside of `r` are the same in both instances. -/
def Instance.SameOutside (T : Topology) (r : RegionId) (i j : ι) : Prop :=
  ∀ s ∈ T.regions, .region r ∉ T.ancestry (.region s) →
    current T s j = current T s i ∧ lastKnown T s j = lastKnown T s i

namespace Instance.SameOutside

variable {T : Topology} {r : RegionId} {i j k : ι}

theorem refl (i : ι) : SameOutside T r i i :=
  fun _ _ _ => ⟨rfl, rfl⟩

theorem trans (h : SameOutside T r i j) (h' : SameOutside T r j k) : SameOutside T r i k :=
  fun s hs hout => ⟨(h' s hs hout).1.trans (h s hs hout).1, (h' s hs hout).2.trans (h s hs hout).2⟩

theorem isActive (h : SameOutside T r i j) (hT : T.WellFormed) {u : VertexId}
    (hu : u ∈ T.vertices) (hout : ¬T.Along u r) :
    Instance.isActive T j u ↔ Instance.isActive T i u := by
  rw [isActive_iff, isActive_iff]
  refine forall₂_congr fun a ha => forall₂_congr fun s hs => ?_
  have hr : .region r ∉ T.ancestry (.region s) := fun hr =>
    hout (((hT.along_iff_of_parent hs).2 hr).of_mem ha)
  rw [(h s (hT.listed_of_along hu ⟨a, ha, hs⟩) hr).2]

end Instance.SameOutside

theorem Instance.Seats.current_replay_quiet {T : Topology} {J : ι → Prop} (hJ : Seats T J) (i : ι)
    {es : List Event} (hes : ∀ e ∈ es, e.Quiet) (r : RegionId) :
    current T r (replay T es i) = current T r i := by
  induction es with
  | nil => rfl
  | cons e es ih =>
    have ih := ih fun e h => hes e (List.mem_cons_of_mem _ h)
    have he := hes e List.mem_cons_self
    cases e with
    | traced line => exact (hJ.current_trace _ line r).trans ih
    | setCurrent | terminated | selected | traversed => exact he.elim
    | _ => exact ih

theorem Instance.Seats.sameOutside_of_quiet {T : Topology} {J : ι → Prop} (hJ : Seats T J)
    {r : RegionId} {s s' : Session σ ι} (h : s.Leads T Event.Quiet s') :
    SameOutside T r s.inst s'.inst := by
  obtain ⟨es, -, hes, hinst⟩ := h
  rw [hinst]
  exact fun q _ _ => ⟨hJ.current_replay_quiet _ hes q,
    (hJ.alike_replay_quiet _ hes).1.lastKnown q⟩

namespace Session

variable (T : Topology) (r : RegionId) (s₀ : Session σ ι) {s s' : Session σ ι}

/-- A transition that leads out of the region was traversed since `s₀`. -/
def Escaped (s : Session σ ι) : Prop :=
  ∃ es, s.trail = es ++ s₀.trail ∧ ∃ t, .traversed t ∈ es ∧ T.Escapes r t

/-- Since `s₀` nothing has changed outside of the region. -/
def Remains (s : Session σ ι) : Prop :=
  (∃ es, s.trail = es ++ s₀.trail ∧ ∀ e ∈ es, e.Within T r) ∧
    Instance.SameOutside T r s₀.inst s.inst

/-- Since `s₀` nothing has changed outside of the region, unless a transition led out of it. -/
def Confined (J : ι → Prop) (s : Session σ ι) : Prop :=
  J s.inst ∧ (s₀.Escaped T r s ∨ s₀.Remains T r s)

variable {T r s₀}

omit [Instance ι] in
theorem Escaped.grow (h : s₀.Escaped T r s) (es : List Event) (ht : s'.trail = es ++ s.trail) :
    s₀.Escaped T r s' := by
  obtain ⟨es₀, ht₀, t, hmem, hout⟩ := h
  exact ⟨es ++ es₀, by rw [ht, ht₀, List.append_assoc], t, List.mem_append_right _ hmem, hout⟩

theorem Remains.add (h : s₀.Remains T r s) {e : Event} (ht : s'.trail = e :: s.trail)
    (he : e.Within T r) (hi : Instance.SameOutside T r s.inst s'.inst) : s₀.Remains T r s' := by
  obtain ⟨⟨es, ht₀, hes⟩, hsame⟩ := h
  refine ⟨⟨e :: es, by rw [ht, ht₀, List.cons_append], fun x hx => ?_⟩, hsame.trans hi⟩
  rcases List.mem_cons.1 hx with rfl | hx
  · exact he
  · exact hes x hx

theorem Confined.refl {J : ι → Prop} (h : J s₀.inst) : s₀.Confined T r J s₀ :=
  ⟨h, .inr ⟨⟨[], rfl, fun _ h => absurd h List.not_mem_nil⟩, .refl _⟩⟩

theorem Confined.add {J : ι → Prop} (h : s₀.Confined T r J s) {e : Event}
    (ht : s'.trail = e :: s.trail) (he : e.Within T r) (hJ : J s'.inst)
    (hi : Instance.SameOutside T r s.inst s'.inst) : s₀.Confined T r J s' :=
  ⟨hJ, h.2.imp (fun h => h.grow [e] ht) fun h => h.add ht he hi⟩

theorem Confined.steady {J : ι → Prop} (hJ : Instance.Seats T J) :
    Steady T fun s : Session σ ι => s₀.Confined T r J s := by
  intro s s' hs h
  obtain ⟨es, ht, hes, -⟩ := id hs
  refine ⟨hJ.stable.steady s s' hs h.1, h.2.imp (·.grow _ ht) fun ⟨⟨es₀, ht₀, hes₀⟩, hsame⟩ =>
    ⟨⟨es ++ es₀, by rw [ht, ht₀, List.append_assoc], fun e he => ?_⟩,
      hsame.trans (hJ.sameOutside_of_quiet (hs.mono Event.quiet_of_mute))⟩⟩
  exact (List.mem_append.1 he).elim (fun h => e.within_of_mute (hes e h)) (hes₀ e)

end Session

/-- Whatever it does, the run stays within the region, as far as it can be said. -/
abbrev Run.Stays (T : Topology) (r : RegionId) (J : ι → Prop) (s₀ : Session σ ι) {α : Type}
    (x : Run σ ι α) : Prop :=
  Run.Spec (s₀.Confined T r J) (fun _ => True) x fun _ _ => True

/-- What the operations of the engine that are about something in the region change is within the
region. -/
structure Machine.Confines (M : Machine σ) (r : RegionId) (J : ι → Prop) (s₀ : Session σ ι)
    (n : Nat) : Prop where
  perform : ∀ step trigger deep, M.Fits step → step.On M.topology (.region r) →
    ((engine M M.compile n).perform step trigger deep).Stays M.topology r J s₀
  offer : ∀ v trigger, M.topology.Along v r →
    ((engine M M.compile n).offer v trigger).Stays M.topology r J s₀
  fire : ∀ t trigger, M.topology.Along (M.topology.transition t).source r →
    ((engine M M.compile n).fire t trigger).Stays M.topology r J s₀

namespace Run.Stays

variable {M : Machine σ} {J : ι → Prop} {r : RegionId} {s₀ : Session σ ι} {n : Nat}
  {trigger : Trigger} {deep : Bool}

/-- After a transition that led out of the region nothing more is asked. -/
theorem after_escape {α : Type} {x : Run σ ι α} (hx : x.Tame M.topology J) :
    Run.Spec (s₀.Confined M.topology r J) (s₀.Escaped M.topology r) x
      fun _ => s₀.Escaped M.topology r := fun s hI h => by
  obtain ⟨es, ht, -, -⟩ := hx.2 s
  exact ⟨⟨hx.1 s hI.1, .inl (h.grow _ ht)⟩, fun _ _ => h.grow _ ht⟩

theorem unless_escaped {α : Type} {x : Run σ ι α} (hx : x.Tame M.topology J) {c : Prop}
    (h : c → x.Stays M.topology r J s₀) :
    Run.Spec (s₀.Confined M.topology r J) (fun s => s₀.Escaped M.topology r s ∨ c) x
      fun _ s => s₀.Escaped M.topology r s ∨ c := by
  rintro s hI (he | hc)
  · have h := after_escape hx s hI he
    exact ⟨h.1, fun a ha => .inl (h.2 a ha)⟩
  · exact ⟨(h hc s hI trivial).1, fun _ _ => .inr hc⟩

variable (hT : M.topology.WellFormed) (hJ : Instance.Seats M.topology J)
  (hn : M.Confines r J s₀ n)

theorem mute {α : Type} {x : Run σ ι α} (hJ : Instance.Seats M.topology J)
    (hx : x.Adds M.topology Event.Mute) : x.Stays M.topology r J s₀ :=
  Spec.mute hx (Session.Confined.steady hJ) fun _ _ _ h => h

include hn

theorem performAll {steps : List (Step σ)}
    (h : ∀ step ∈ steps, M.Fits step ∧ step.On M.topology (.region r)) :
    ((engine M M.compile n).performAll trigger deep steps).Stays M.topology r J s₀ :=
  Spec.all fun step hs => hn.perform step trigger deep (h step hs).1 (h step hs).2

include hT

theorem leave {v : VertexId} (hv : M.topology.Along v r) :
    ((engine M M.compile n).performAll trigger deep (M.compile.leave (.vertex v))).Stays
      M.topology r J s₀ :=
  performAll hn fun step hs => ⟨(Machine.all_fits hT).leave _ step hs,
    (Machine.on_leave hT step hs).trans ((hT.region_mem_ancestry r v).2 hv)⟩

theorem endEnter {v : VertexId} (hv : M.topology.Along v r) :
    ((engine M M.compile n).performAll trigger deep (M.compile.endEnter (.vertex v))).Stays
      M.topology r J s₀ :=
  performAll hn fun step hs => ⟨(Machine.all_fits hT).endEnter _ step hs,
    (Machine.on_endEnter hT step hs).trans ((hT.region_mem_ancestry r v).2 hv)⟩

theorem enterElement {v : VertexId} (hv : M.topology.Along v r) :
    (Engine.enterElement M.compile (engine M M.compile n) (.vertex v) trigger deep).Stays
      M.topology r J s₀ :=
  Spec.enterElement (performAll hn fun step hs => ⟨(Machine.all_fits hT).beginEnter _ step hs,
    (Machine.on_beginEnter hT step hs).trans ((hT.region_mem_ancestry r v).2 hv)⟩)
    (endEnter hT hn hv)

include hJ

theorem leaveCurrent {s : RegionId} (hs : .region r ∈ M.topology.ancestry (.region s)) :
    (Engine.leaveCurrent M M.compile (engine M M.compile n) s trigger).Stays M.topology r J s₀ := by
  refine Spec.read.bind fun v => ?_
  cases v with
  | none => exact Spec.pure fun _ _ _ => trivial
  | some v =>
    intro z hI hz
    have hv := (hT.along_iff_of_parent (hJ.seated hI.1 hz.2.symm)).2 hs
    exact leave hT hn hv z hI trivial

theorem enterRegion {s : RegionId} (hs : .region r ∈ M.topology.ancestry (.region s)) :
    (Engine.enterRegion M M.compile (engine M M.compile n) s (M.topology.regionInitial s) trigger
      deep).Stays M.topology r J s₀ := by
  refine Spec.enterRegion (fun _ v z hI hz => ?_) (fun v hv => ?_) fun _ => ?_
  · have hv := (hT.along_iff_of_parent (hJ.parent_eq hI.1 hz.2 hT)).2 hs
    exact enterElement hT hn hv z hI trivial
  · have hmem := (hT.mem_vertices s v (Topology.regionInitial_mem hv)).2
    exact enterElement hT hn ((hT.along_iff_of_parent hmem).2 hs)
  · exact Spec.ite (fun _ => Spec.pure fun _ _ _ => trivial) fun _ =>
      mute hJ (Run.Adds.say (fun _ _ => trivial) _ _)

theorem resume {v : VertexId} (hv : M.topology.Along v r) :
    (Engine.resume M M.compile (engine M M.compile n) v trigger deep).Stays M.topology r J s₀ := by
  refine Spec.resume_parts (Session.Confined.steady hJ) (fun _ s hs state z hI hz => ?_)
    fun t ht => hn.fire t trigger ((hT.mem_outgoing v t ht).2 ▸ hv)
  have hstate := (hT.along_iff_of_parent (hJ.parent_eq hI.1 hz.2 hT)).2
    ((hT.along_iff_of_parent hs).1 hv)
  exact Spec.bind (leave hT hn hv) (fun _ => enterElement hT hn hstate) z hI trivial

omit hJ hT in
theorem offerCompletion {v : VertexId} (hv : M.topology.Along v r) :
    (Engine.offerCompletion M (engine M M.compile n) v).Stays M.topology r J s₀ :=
  Spec.offerCompletion ((hn.offer v _ hv).pre fun _ _ _ => trivial) fun _ _ _ _ => trivial

variable (hactive : Instance.isActive M.topology s₀.inst (M.topology.region r).parent)
  (howner : (M.topology.region r).parent ∈ M.topology.vertices)
include hactive howner

/-- The path of a local transition is active down to the owner of the region at least, so what is
left and entered is in the region. -/
theorem traverseWithin {t : TransitionId}
    (ht : ∀ x ∈ (M.topology.transition t).target, M.topology.Along x r)
    (htame : (Engine.traverseWithin M M.compile (engine M M.compile n) t trigger).Tame
      M.topology J) :
    (Engine.traverseWithin M M.compile (engine M M.compile n) t trigger).Stays M.topology r J
      s₀ := by
  intro z hI _
  rcases hI.2 with he | hremains
  · exact ⟨(after_escape htame z hI he).1, fun _ _ => trivial⟩
  have hz : Instance.isActive M.topology z.inst (M.topology.region r).parent :=
    (hremains.2.isActive hT howner (hT.not_along_owner)).2 hactive
  refine Spec.traverseWithin_parts (q := fun _ => True)
    (p := fun z => Instance.isActive M.topology z.inst (M.topology.region r).parent)
    (Session.Confined.steady hJ) (fun x hx above a rest hsplit s hs y hI hy => ?_) z hI hz
  have hxr := ht x hx
  have ha : M.topology.Along a r := by
    obtain ⟨c, cs, hc, -, hbelow⟩ := hT.exists_split_of_along hxr
    rcases List.append_eq_append_iff.1 (hsplit.symm.trans hc) with ⟨k, hk, hcs⟩ | ⟨k, -, hcs⟩
    · -- the owner is on the path from `a` down, so `a` is active and the target
      cases k with
      | nil =>
        obtain ⟨rfl, -⟩ := List.cons.inj hcs
        exact hbelow a List.mem_cons_self
      | cons d k =>
        obtain ⟨rfl, -⟩ := List.cons.inj hcs
        have hmem : a ∈ M.topology.vertexAncestry (M.topology.region r).parent :=
          hk ▸ List.mem_append_right _ List.mem_cons_self
        have htarget := hy.2.2.resolve_right fun h => h (Topology.isActiveIn_of_mem hmem hy.1)
        exact htarget ▸ hxr
    · exact hbelow a (hcs ▸ List.mem_append_right _ List.mem_cons_self)
  have hr := (hT.along_iff_of_parent hs).1 ha
  refine Spec.bind (leaveCurrent hT hJ hn hr) (fun _ => Spec.bind (mute hJ (Run.Adds.actAll _ _))
    fun _ => Spec.bind (performAll hn fun step hstep => ⟨?_, ?_⟩) fun _ => endEnter hT hn hxr)
    y hI trivial
  · exact (Machine.all_fits hT).cascade _ _ step hstep
  · exact (Machine.on_cascade hT hsplit step hstep).trans ((hT.region_mem_ancestry r a).2 ha)

theorem performStep {step : Step σ} (hfits : M.Fits step) (hon : step.On M.topology (.region r)) :
    (Engine.performStep M M.compile (engine M M.compile n) step trigger deep).Stays
      M.topology r J s₀ := by
  have hsubject : ∀ {e}, e ∈ M.topology.subjects step → .region r ∈ M.topology.ancestry e :=
    fun he => hon _ he
  have hvertex : ∀ {v}, .vertex v ∈ M.topology.subjects step → M.topology.Along v r :=
    fun he => (hT.region_mem_ancestry r _).1 (hon _ he)
  cases step with
  | enter e =>
    exact mute hJ ((Run.Adds.note (e := .entered e) trivial trivial).bind fun _ =>
      Run.Adds.announce _ _)
  | leave e =>
    refine Spec.bind (r := fun _ _ => True) (fun z hI _ => ⟨?_, fun _ _ => trivial⟩) fun _ =>
      mute hJ (Run.Adds.announce _ _)
    refine hI.add (e := .left e) rfl ?_ hI.1 (.refl _)
    cases e with
    | region s => trivial
    | vertex v => exact hvertex List.mem_cons_self
  | behavior a => exact mute hJ (Run.Adds.act (fun _ _ => trivial) a trigger)
  | leaveActive s => exact leaveCurrent hT hJ hn (hsubject List.mem_cons_self)
  | setCurrent s v =>
    have hv := hvertex List.mem_cons_self
    refine fun z hI _ => ⟨hI.add rfl ⟨hfits, hv⟩ (hJ.setCurrent hI.1 hfits) fun q hq hout => ?_,
      fun _ _ => trivial⟩
    have hne : q ≠ s := fun he => hout (he ▸ (hT.along_iff_of_parent hfits.2).1 hv)
    exact ⟨(hJ.current_setCurrent hI.1 hfits q hq).trans (if_neg hne),
      (hJ.lastKnown_setCurrent hI.1 hfits q hq).trans (if_neg fun h => hne h.1)⟩
  | enterRegion s initial =>
    exact hfits.2 ▸ enterRegion hT hJ hn (hsubject List.mem_cons_self)
  | resume v => exact resume hT hJ hn (hvertex List.mem_cons_self)
  | terminate =>
    exact fun z hI _ => ⟨hI.add rfl trivial (hJ.terminate hI.1) fun q _ _ =>
      ⟨hJ.current_terminate _ q, hJ.lastKnown_terminate _ q⟩, fun _ _ => trivial⟩
  | completeInternal v =>
    exact Spec.ite (fun _ => offerCompletion hn (hvertex List.mem_cons_self))
      fun _ => Spec.pure fun _ _ _ => trivial
  | traverseWithin t =>
    refine traverseWithin hT hJ hn hactive howner (fun x hx => ?_)
      ((engine_tame hT hJ.toLaws (n + 1)).perform (.traverseWithin t) trigger deep trivial)
    exact hvertex (List.mem_cons_of_mem _ (List.mem_map_of_mem (Option.mem_toList.2 hx)))

omit hactive howner in
theorem offerState {v : VertexId} (hv : M.topology.Along v r) :
    (Engine.offerState M (engine M M.compile n) v trigger).Stays M.topology r J s₀ := by
  have hsteady : Session.Steady M.topology (s₀.Confined M.topology r J) := .steady hJ
  refine Spec.offerState (a := fun _ => True) hsteady (fun _ _ _ h => h)
    (fun _ => Spec.offerRegions (q := fun _ => True) (fun s hs w z hI hz => ?_)
      (fun _ _ _ _ => trivial) (fun _ _ _ => trivial) _ fun _ h => h)
    (offerCompletion hn hv) (fun t ht => ?_) fun _ _ _ => trivial
  · have hw := hJ.parent_eq hI.1 hz.2 hT
    have hin : M.topology.Along w r := hv.of_mem <| (hT.mem_vertexAncestry_of_parent hw).2
      (.inr ((hT.mem_regions v s hs).2 ▸ Topology.mem_vertexAncestry_self _))
    exact Spec.either (hn.offer w trigger hin) z hI trivial
  · have hsource := (hT.mem_outgoing v t ht).2
    refine Spec.bind (r := fun _ _ => True) (fun z hI _ => ⟨?_, fun _ _ => trivial⟩) fun _ =>
      hn.fire t trigger (hsource ▸ hv)
    exact hI.add rfl trivial hI.1 (.refl _)

omit hactive howner in
/-- Either the leg leads out of the region, or all of it is in the region. -/
theorem leg (t : TransitionId) : Run.Spec (s₀.Confined M.topology r J)
    (fun z => s₀.Escaped M.topology r z ∨ M.topology.Along (M.topology.transition t).source r)
    (Run.record (.traversed t) >>= fun _ =>
      (engine M M.compile n).performAll trigger false (M.compile.traversal t))
    fun _ z => s₀.Escaped M.topology r z ∨
      ∀ x ∈ (M.topology.transition t).target, M.topology.Along x r := by
  have hfits := (Machine.all_fits hT).traversal t
  refine Spec.bind (r := fun _ z => s₀.Escaped M.topology r z ∨
      M.topology.Along (M.topology.transition t).source r ∧
        ∀ x ∈ (M.topology.transition t).target, M.topology.Along x r)
    (fun z hI hz => ⟨hI.add rfl trivial hI.1 (.refl _), fun _ _ => ?_⟩) fun _ =>
      (unless_escaped (tame_performAll hJ.toLaws hT hfits) fun h => performAll hn
        fun step hstep => ⟨hfits step hstep, Machine.on_traversal hT h.1 h.2 step hstep⟩).post
          fun _ _ _ => Or.imp id And.right
  rcases hz with he | hs
  · exact .inl (he.grow [_] rfl)
  by_cases ht : ∀ x ∈ (M.topology.transition t).target, M.topology.Along x r
  · exact .inr ⟨hs, ht⟩
  push Not at ht
  rcases hI.2 with he | ⟨⟨es, htrail, -⟩, -⟩
  · exact .inl (he.grow [_] rfl)
  · exact .inl ⟨.traversed t :: es, congrArg (_ :: ·) htrail, t, List.mem_cons_self, hs, ht⟩

omit hactive howner in
theorem fireTransition {t : TransitionId}
    (hs : M.topology.Along (M.topology.transition t).source r) :
    (Engine.fireTransition M M.compile (engine M M.compile n) t trigger).Stays
      M.topology r J s₀ := by
  have htame := engine_tame (M := M) hT hJ.toLaws n
  have hescaped : Session.Steady M.topology (s₀.Escaped M.topology r) :=
    fun _ _ ⟨_, h, _⟩ he => he.grow _ h
  refine Spec.pre (Spec.fireTransition (Session.Confined.steady hJ)
    (fun _ => hescaped.or fun _ _ _ h => h) (leg hT hJ hn)
    (fun t u v hv _ hu z _ h => h.imp id fun h => (hT.mem_outgoing v u hu).2 ▸ h v hv)
    (fun t x hx _ => ?_) (fun _ _ _ _ _ => trivial) t) fun _ _ _ => .inr hs
  exact (Spec.leadOn (p := fun z => s₀.Escaped M.topology r z ∨ M.topology.Along x r)
    (Session.Confined.steady hJ) (hescaped.or fun _ _ _ h => h)
    (fun _ u hu => (unless_escaped (htame.fire u trigger) fun hx =>
      hn.fire u trigger ((hT.mem_outgoing x u hu).2 ▸ hx)).post fun _ _ _ _ => trivial)
    (fun _ => (unless_escaped (htame.offerCompletion x) (offerCompletion hn)).post
      fun _ _ _ _ => trivial) fun _ _ _ _ _ => trivial).pre fun _ _ h => h.imp id fun h => h x hx

end Run.Stays

theorem engine_confines {M : Machine σ} {J : ι → Prop} {r : RegionId} (s₀ : Session σ ι)
    (hT : M.topology.WellFormed) (hJ : Instance.Seats M.topology J)
    (hactive : Instance.isActive M.topology s₀.inst (M.topology.region r).parent)
    (howner : (M.topology.region r).parent ∈ M.topology.vertices) :
    ∀ n, M.Confines r J s₀ n
  | 0 => ⟨fun _ _ _ _ _ => .exhausted, fun _ _ _ => .exhausted, fun _ _ _ => .exhausted⟩
  | n + 1 => by
    have hn := engine_confines s₀ hT hJ hactive howner n
    exact ⟨fun _ _ _ => Run.Stays.performStep hT hJ hn hactive howner,
      fun _ _ => Run.Stays.offerState hT hJ hn, fun _ _ => Run.Stays.fireTransition hT hJ hn⟩

end

end Hsm
