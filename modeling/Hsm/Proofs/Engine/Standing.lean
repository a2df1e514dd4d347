import Hsm.Proofs.Engine.Confinement

/-!
# Which states stand

The events of a run tell which states it has entered and not left, from those on that were active
and current when it began (`Instance.standing`). As long as no transition deviates from the region
of its source (`Topology.Deviates`), a state that stands is the current one of its region, and the
states around it stand as well (`Session.Tracks`). So leaving a vertex whose regions are vacant lets
nothing stand beneath it (`Session.Tidy.left`), and a vertex that becomes current in a region that
is clear is alone there (`Session.Tidy.setCurrent`).
-/

namespace Hsm

variable {σ ι : Type}

/-- The transition leads out of the region that its source is in, or it is internal and has a target
none the less. -/
def Topology.Deviates (T : Topology) (t : TransitionId) : Prop :=
  ∃ x ∈ (T.transition t).target, (T.transition t).kind = .internal ∨
    ∃ r ∈ (T.vertex (T.transition t).source).parent, ¬T.Along x r

instance (T : Topology) (t : TransitionId) : Decidable (T.Deviates t) :=
  inferInstanceAs (Decidable (∃ x ∈ _, _ ∨ ∃ r ∈ _, _))

namespace Topology.WellFormed

variable {T : Topology} (hT : T.WellFormed) {r q : RegionId} {v x : VertexId} {t : TransitionId}
include hT

/-- What is in the region of a vertex is in all regions that the vertex is in. -/
theorem along_of_along (hr : (T.vertex v).parent = some r) (hx : T.Along x r) (hv : T.Along v q) :
    T.Along x q :=
  (hT.region_mem_ancestry q x).1 <| Forest.mem_ancestors_trans (F := T.ownership)
    ((hT.along_iff_of_parent hr).1 hv) ((hT.region_mem_ancestry r x).2 hx)

/-- A transition that leads out of any region leads out of the one that its source is in. -/
theorem deviates_of_escapes (h : T.Escapes r t) : T.Deviates t := by
  obtain ⟨hs, x, hx, hout⟩ := h
  refine ⟨x, hx, .inr ?_⟩
  cases hp : (T.vertex (T.transition t).source).parent with
  | none =>
    obtain ⟨a, ha, hr⟩ := hs
    rw [hT.vertexAncestry_of_not_parent hp] at ha
    rw [List.mem_singleton.1 ha, hp] at hr
    cases hr
  | some q => exact ⟨q, rfl, fun hxq => hout (hT.along_of_along hp hxq hs)⟩

/-- A transition between different regions of one state deviates. -/
theorem not_across_of_not_deviates (h : ¬T.Deviates t) (hx : x ∈ (T.transition t).target)
    (hr : (T.vertex (T.transition t).source).parent = some r) :
    T.Along x r ∧ ¬T.Across (T.transition t).source x := by
  have hxr : T.Along x r := Classical.byContradiction fun hout => h ⟨x, hx, .inr ⟨r, hr, hout⟩⟩
  refine ⟨hxr, fun hacross => ?_⟩
  obtain ⟨q, q', hs, hx', hne, howner⟩ := Topology.across_iff.1 hacross
  exact hne (hT.eq_of_along (hT.along_of_along hr hxr hs) hx' howner)

end Topology.WellFormed

namespace Event

/-- The states that stand after an event, by those that did before. A state that is entered stands
if the state around it does. -/
def standing (T : Topology) (e : Event) (us : List VertexId) : List VertexId :=
  match e with
  | .left (.vertex v) => us.filter (· ≠ v)
  | .setCurrent r v => if T.isState v ∧ (T.region r).parent ∈ us then v :: us else us
  | _ => us

theorem mem_standing_left {T : Topology} {u v : VertexId} {us : List VertexId} :
    u ∈ standing T (.left (.vertex v)) us ↔ u ∈ us ∧ u ≠ v :=
  List.mem_filter.trans (and_congr_right fun _ => decide_eq_true_iff)

theorem mem_standing_setCurrent {T : Topology} {r : RegionId} {u v : VertexId}
    {us : List VertexId} : u ∈ standing T (.setCurrent r v) us ↔
      u ∈ us ∨ u = v ∧ T.isState v ∧ (T.region r).parent ∈ us := by
  by_cases h : T.isState v ∧ (T.region r).parent ∈ us
  · simp [standing, h, or_comm]
  · simp [standing, h]

/-- Events after which the same states stand as before. -/
def Plain : Event → Prop
  | .left (.vertex _) | .setCurrent .. => False
  | _ => True

theorem plain_of_mute (e : Event) (h : e.Mute) : e.Plain := by
  cases e with
  | left => exact h.elim
  | setCurrent => exact h.elim
  | _ => trivial

end Event

section

variable [Instance ι]

namespace Instance

variable (T : Topology) (i : ι)

/-- The states that stand after events, of which the newest comes first. At first those do that are
active, and current with all around them. -/
def standing (events : List Event) : List VertexId :=
  events.foldr (Event.standing T) (T.vertices.filter fun u => T.isState u ∧
    ∀ a ∈ T.vertexAncestry u, ∀ r ∈ (T.vertex a).parent,
      current T r i = some a ∧ lastKnown T r i = some a)

/-- After the events no state stands in the region. -/
def Vacant (events : List Event) (r : RegionId) : Prop :=
  ∀ u ∈ standing T i events, (T.vertex u).parent ≠ some r

instance (events : List Event) (r : RegionId) : Decidable (Vacant T i events r) :=
  inferInstanceAs (Decidable (∀ u ∈ _, _))

variable {T i}

theorem standing_append_plain {es : List Event} (hes : ∀ e ∈ es, e.Plain) (past : List Event) :
    standing T i (es ++ past) = standing T i past := by
  induction es with
  | nil => rfl
  | cons e es ih =>
    refine Eq.trans ?_ (ih fun e h => hes e (List.mem_cons_of_mem _ h))
    have he := hes e List.mem_cons_self
    cases e with
    | left x =>
      cases x with
      | vertex v => exact he.elim
      | region r => rfl
    | setCurrent r v => exact he.elim
    | _ => rfl

/-- What happens in a region lets no state stand elsewhere. -/
theorem mem_standing_of_within {r : RegionId} {es : List Event} (hes : ∀ e ∈ es, e.Within T r)
    (past : List Event) {u : VertexId} (hu : ¬T.Along u r) (h : u ∈ standing T i (es ++ past)) :
    u ∈ standing T i past := by
  induction es with
  | nil => exact h
  | cons e es ih =>
    refine ih (fun e h => hes e (List.mem_cons_of_mem _ h)) ?_
    have he := hes e List.mem_cons_self
    replace h : u ∈ Event.standing T e (standing T i (es ++ past)) := h
    cases e with
    | left x =>
      cases x with
      | vertex v => exact (Event.mem_standing_left.1 h).1
      | region r => exact h
    | setCurrent q v =>
      exact (Event.mem_standing_setCurrent.1 h).resolve_right fun h => hu (h.1 ▸ he.2)
    | _ => exact h

/-- To the engine and to what rests on current vertices both instances are the same. -/
def Shows (T : Topology) (i j : ι) : Prop :=
  ∀ r, current T r j = current T r i ∧ lastKnown T r j = lastKnown T r i

theorem Shows.isActive {i j : ι} (h : Shows T i j) (v : VertexId) :
    Instance.isActive T j v = Instance.isActive T i v := by
  unfold Instance.isActive
  rw [funext fun r => (h r).2]

theorem Seats.shows_replay_plain {J : ι → Prop} (hJ : Seats T J) (i : ι) {es : List Event}
    (hes : ∀ e ∈ es, e.Plain) : Shows T i (replay T es i) ∧ (J i → J (replay T es i)) := by
  induction es with
  | nil => exact ⟨fun _ => ⟨rfl, rfl⟩, id⟩
  | cons e es ih =>
    obtain ⟨hshows, hkeep⟩ := ih fun e h => hes e (List.mem_cons_of_mem _ h)
    have he := hes e List.mem_cons_self
    cases e with
    | traced line =>
      exact ⟨fun r => ⟨(hJ.current_trace _ line r).trans (hshows r).1,
        ((hJ.alike_trace _ line).lastKnown r).trans (hshows r).2⟩,
        fun h => hJ.trace line (hkeep h)⟩
    | terminated =>
      exact ⟨fun r => ⟨(hJ.current_terminate _ r).trans (hshows r).1,
        (hJ.lastKnown_terminate _ r).trans (hshows r).2⟩, fun h => hJ.terminate (hkeep h)⟩
    | setCurrent r v => exact he.elim
    | _ => exact ⟨hshows, hkeep⟩

end Instance

/-! ## Sessions whose events tell what is current -/

namespace Session

variable (T : Topology) (J : ι → Prop) (i₀ : ι)

/-- The states that stand. -/
abbrev standing (s : Session σ ι) : List VertexId :=
  Instance.standing T i₀ s.trail

/-- A transition that was traversed deviates. -/
def Deviated (s : Session σ ι) : Prop :=
  ∃ t, .traversed t ∈ s.trail ∧ T.Deviates t

/-- What stands is current in its region and last known there, and so is all around it. -/
structure Tracks (s : Session σ ι) : Prop where
  listed : ∀ u ∈ s.standing T i₀, u ∈ T.vertices ∧ T.isState u
  owner : ∀ u ∈ s.standing T i₀, ∀ r, (T.vertex u).parent = some r →
    (T.region r).parent ∈ s.standing T i₀
  shown : ∀ u ∈ s.standing T i₀, ∀ r, (T.vertex u).parent = some r →
    Instance.current T r s.inst = some u ∧ Instance.lastKnown T r s.inst = some u

/-- A vertex became current in vacant regions only, unless a transition had deviated before. -/
structure Tidy (s : Session σ ι) : Prop where
  lawful : J s.inst
  vacated : ∀ r v past, .setCurrent r v :: past <:+ s.trail →
    Instance.Vacant T i₀ past r ∨ ∃ t, .traversed t ∈ past ∧ T.Deviates t
  tracks : s.Deviated T ∨ s.Tracks T i₀

/-- What holds as long as no transition has deviated. -/
def Unless (p : Session σ ι → Prop) (s : Session σ ι) : Prop :=
  s.Deviated T ∨ p s

/-- At most fewer states stand, and the instance shows the same. -/
def Fades (s s' : Session σ ι) : Prop :=
  s'.standing T i₀ ⊆ s.standing T i₀ ∧ Instance.Shows T s.inst s'.inst

/-- The property holds on when states cease to stand. -/
def Fading (p : Session σ ι → Prop) : Prop :=
  ∀ s s', s.Fades T i₀ s' → p s → p s'

/-- The region is part of what is active, and vacant. -/
def Clear (r : RegionId) (s : Session σ ι) : Prop :=
  Instance.isActive T s.inst (T.region r).parent ∧ Instance.Vacant T i₀ s.trail r

/-- The region of the vertex is part of what is active, and nothing else stands there. -/
def Alone (v : VertexId) (s : Session σ ι) : Prop :=
  ∃ r, (T.vertex v).parent = some r ∧ Instance.isActive T s.inst (T.region r).parent ∧
    ∀ u ∈ s.standing T i₀, (T.vertex u).parent = some r → u = v

/-- The vertex has become current, and its regions are still to be entered. -/
def Begun (v : VertexId) (s : Session σ ι) : Prop :=
  s.Alone T i₀ v ∧ (T.isState v → ∀ r ∈ (T.vertex v).regions, s.Clear T i₀ r)

/-- Nothing stands at or beneath the vertex. -/
def Gone (v : VertexId) (s : Session σ ι) : Prop :=
  ∀ u ∈ s.standing T i₀, v ∉ T.vertexAncestry u

variable {T J i₀} {p q : Session σ ι → Prop} {s s' : Session σ ι}

omit [Instance ι] in
theorem Deviated.grow (h : s.Deviated T) (es : List Event) (ht : s'.trail = es ++ s.trail) :
    s'.Deviated T := by
  obtain ⟨t, hmem, hout⟩ := h
  exact ⟨t, ht ▸ List.mem_append_right _ hmem, hout⟩

namespace Fading

theorem and (hp : Fading T i₀ p) (hq : Fading T i₀ q) : Fading T i₀ fun s => p s ∧ q s :=
  fun s s' h hpq => ⟨hp s s' h hpq.1, hq s s' h hpq.2⟩

theorem imp {c : Prop} (hp : c → Fading T i₀ p) : Fading T i₀ fun s => c → p s :=
  fun s s' h hps hc => hp hc s s' h (hps hc)

theorem all {α : Type} {c : α → Prop} {p : α → Session σ ι → Prop} (hp : ∀ a, Fading T i₀ (p a)) :
    Fading T i₀ fun s => ∀ a, c a → p a s :=
  fun s s' h hps a ha => hp a s s' h (hps a ha)

theorem vacant (r : RegionId) :
    Fading T i₀ fun s : Session σ ι => Instance.Vacant T i₀ s.trail r :=
  fun _ _ h hv u hu => hv u (h.1 hu)

theorem isActive (v : VertexId) :
    Fading T i₀ fun s : Session σ ι => Instance.isActive T s.inst v :=
  fun _ _ h hv => (h.2.isActive v).trans hv

theorem current (r : RegionId) (v : Option VertexId) :
    Fading T i₀ fun s : Session σ ι => Instance.current T r s.inst = v :=
  fun _ _ h hv => (h.2 r).1.trans hv

theorem clear (r : RegionId) : Fading T i₀ (Clear (σ := σ) T i₀ r) :=
  (isActive _).and (vacant r)

theorem alone (v : VertexId) : Fading T i₀ (Alone (σ := σ) T i₀ v) :=
  fun _ _ h ⟨r, hr, hactive, halone⟩ =>
    ⟨r, hr, (h.2.isActive _).trans hactive, fun u hu => halone u (h.1 hu)⟩

theorem begun (v : VertexId) : Fading T i₀ (Begun (σ := σ) T i₀ v) :=
  (alone v).and (imp fun _ => fun _ _ h hr r hm => clear r _ _ h (hr r hm))

theorem gone (v : VertexId) : Fading T i₀ (Gone (σ := σ) T i₀ v) :=
  fun _ _ h hv u hu => hv u (h.1 hu)

end Fading

omit [Instance ι] in
theorem Deviated.leads [Instance ι] {q : Event → Prop} (h : s.Deviated T) (hs : s.Leads T q s') :
    s'.Deviated T := by
  obtain ⟨es, htrail, -, -⟩ := hs
  exact h.grow _ htrail

variable (i₀) in
theorem standing_of_plain (hs : s.Leads T Event.Plain s') :
    s'.standing T i₀ = s.standing T i₀ := by
  obtain ⟨es, htrail, hes, -⟩ := hs
  rw [standing, htrail]
  exact Instance.standing_append_plain hes _

variable (i₀) in
theorem fades_of_plain (hJ : Instance.Seats T J) (hs : s.Leads T Event.Plain s') :
    s.Fades T i₀ s' := by
  refine ⟨standing_of_plain i₀ hs ▸ List.Subset.refl _, ?_⟩
  obtain ⟨es, -, hes, hinst⟩ := hs
  rw [hinst]
  exact (hJ.shows_replay_plain s.inst hes).1

/-- What does not change which states stand keeps a session tidy. -/
theorem Tidy.plain (hJ : Instance.Seats T J) (h : s.Tidy T J i₀) (hs : s.Leads T Event.Plain s') :
    s'.Tidy T J i₀ := by
  have hstanding := standing_of_plain i₀ hs
  have hshows := (fades_of_plain i₀ hJ hs).2
  refine ⟨?_, fun r v past hpast => ?_, h.tracks.imp (·.leads hs) fun ht => ?_⟩
  · obtain ⟨es, -, hes, hinst⟩ := hs
    exact hinst ▸ (hJ.shows_replay_plain s.inst hes).2 h.lawful
  · obtain ⟨es, htrail, hes, -⟩ := hs
    exact h.vacated r v past (suffix_of_suffix_append (htrail ▸ hpast) fun hm => hes _ hm)
  · refine ⟨?_, ?_, ?_⟩ <;> rw [hstanding]
    · exact ht.listed
    · exact ht.owner
    · exact fun u hu r hr => ⟨(hshows r).1.trans (ht.shown u hu r hr).1,
        (hshows r).2.trans (ht.shown u hu r hr).2⟩

/-- Once a transition has deviated, nothing is asked of what follows. -/
theorem Tidy.after_deviation (h : s.Tidy T J i₀) (hs : s.Deviated T) {es : List Event}
    (ht : s'.trail = es ++ s.trail) (hJ : J s'.inst) : s'.Tidy T J i₀ := by
  refine ⟨hJ, fun r v past hpast => ?_, .inl (hs.grow _ ht)⟩
  rcases List.suffix_or_suffix_of_suffix hpast ⟨es, ht.symm⟩ with hpast | hpast
  · exact h.vacated r v past hpast
  · rcases List.suffix_cons_iff.1 hpast with he | ⟨later, he⟩
    · exact h.vacated r v past ⟨[], he.symm⟩
    · obtain ⟨t, hmem, hout⟩ := hs
      exact .inr ⟨t, he ▸ List.mem_append_right _ hmem, hout⟩

theorem Tidy.steady (hJ : Instance.Seats T J) : Steady T (Tidy (σ := σ) T J i₀) :=
  fun _ _ hs h => h.plain hJ (hs.mono Event.plain_of_mute)

theorem Unless.leads (hJ : Instance.Seats T J) (hp : Fading T i₀ p) (h : s.Unless T p)
    (hs : s.Leads T Event.Plain s') : s'.Unless T p :=
  h.imp (·.leads hs) (hp s s' (fades_of_plain i₀ hJ hs))

theorem Unless.steady (hJ : Instance.Seats T J) (hp : Fading T i₀ p) : Steady T (Unless T p) :=
  fun _ _ hs h => h.leads hJ hp (hs.mono Event.plain_of_mute)

theorem Tracks.mem_of_mem_vertexAncestry (hT : T.WellFormed) (h : s.Tracks T i₀) {u a : VertexId}
    (hu : u ∈ s.standing T i₀) (ha : a ∈ T.vertexAncestry u) : a ∈ s.standing T i₀ := by
  refine Forest.mem_ancestors_induction (F := T.stateTree) (p := (· ∈ s.standing T i₀)) hu ?_ a ha
  intro v w hp hv
  obtain ⟨r, hr, rfl⟩ := hT.parent_of_parentState hp
  exact h.owner v hv r hr

/-- Where the regions of a vertex are vacant, nothing stands beneath it. -/
theorem Tracks.eq_of_vacant (hT : T.WellFormed) (h : s.Tracks T i₀) {u v : VertexId}
    (hv : ∀ r ∈ (T.vertex v).regions, Instance.Vacant T i₀ s.trail r)
    (hu : u ∈ s.standing T i₀) (hvu : v ∈ T.vertexAncestry u) : v = u := by
  refine Classical.byContradiction fun hne => ?_
  obtain ⟨r, hr, a, ha, har⟩ := hT.exists_along (h.listed u hu).1 hvu hne
  exact hv r hr a (h.mem_of_mem_vertexAncestry hT hu ha) har

theorem mem_standing_of_left {u v : VertexId} (ht : s'.trail = .left (.vertex v) :: s.trail) :
    u ∈ s'.standing T i₀ ↔ u ∈ s.standing T i₀ ∧ u ≠ v := by
  rw [standing, ht]
  exact Event.mem_standing_left (T := T)

theorem mem_standing_of_setCurrent {u v : VertexId} {r : RegionId}
    (ht : s'.trail = .setCurrent r v :: s.trail) : u ∈ s'.standing T i₀ ↔ u ∈ s.standing T i₀ ∨
      u = v ∧ T.isState v ∧ (T.region r).parent ∈ s.standing T i₀ := by
  rw [standing, ht]
  exact Event.mem_standing_setCurrent

theorem Tracks.left (hT : T.WellFormed) (h : s.Tracks T i₀) {v : VertexId}
    (hv : ∀ r ∈ (T.vertex v).regions, Instance.Vacant T i₀ s.trail r)
    (ht : s'.trail = .left (.vertex v) :: s.trail) (hi : s'.inst = s.inst) :
    s'.Tracks T i₀ ∧ s'.Gone T i₀ v := by
  have hstood : ∀ u ∈ s'.standing T i₀, u ∈ s.standing T i₀ := fun u hu =>
    ((mem_standing_of_left ht).1 hu).1
  refine ⟨⟨fun u hu => h.listed u (hstood u hu), fun u hu r hr => ?_,
    fun u hu r hr => hi ▸ h.shown u (hstood u hu) r hr⟩, fun u hu hvu => ?_⟩
  · refine (mem_standing_of_left ht).2 ⟨h.owner u (hstood u hu) r hr, fun he => ?_⟩
    have hlisted := (hT.listed_of_parent (h.listed u (hstood u hu)).1 hr).1
    exact hv r (he ▸ (hT.owner_of_mem_regions hlisted).2) u (hstood u hu) hr
  · exact ((mem_standing_of_left ht).1 hu).2 (h.eq_of_vacant hT hv (hstood u hu) hvu).symm

/-- Leaving a vertex whose regions are vacant. -/
theorem Tidy.left (hT : T.WellFormed) (h : s.Tidy T J i₀) (s' : Session σ ι) {v : VertexId}
    (hv : s.Unless T fun s => ∀ r ∈ (T.vertex v).regions, Instance.Vacant T i₀ s.trail r)
    (ht : s'.trail = .left (.vertex v) :: s.trail) (hi : s'.inst = s.inst) :
    s'.Tidy T J i₀ ∧ s.Fades T i₀ s' ∧ s'.Unless T (Gone T i₀ v) := by
  have htracks : s'.Deviated T ∨ s'.Tracks T i₀ ∧ s'.Gone T i₀ v := by
    rcases h.tracks with hs | htracks
    · exact .inl (hs.grow [_] ht)
    rcases hv with hs | hv
    · exact .inl (hs.grow [_] ht)
    exact .inr (htracks.left hT hv ht hi)
  refine ⟨⟨hi ▸ h.lawful, fun r w past hpast => ?_, htracks.imp_right And.left⟩,
    ⟨fun u hu => ((mem_standing_of_left ht).1 hu).1, fun r => ⟨congrArg _ hi, congrArg _ hi⟩⟩,
    htracks.imp_right And.right⟩
  rw [ht] at hpast
  exact h.vacated r w past ((List.suffix_cons_iff.1 hpast).resolve_left fun he =>
    nomatch (List.cons.inj he).1)

section SetCurrent

variable {r : RegionId} {v : VertexId} (hT : T.WellFormed) (hJ : Instance.Seats T J)
  (hlawful : J s.inst) (hv : T.Holds r v) (ht : s'.trail = .setCurrent r v :: s.trail)
  (hi : s'.inst = Instance.setCurrent T r v s.inst)
include hT hJ hlawful hv ht hi

theorem Tracks.setCurrent (h : s.Tracks T i₀) (hvacant : Instance.Vacant T i₀ s.trail r) :
    s'.Tracks T i₀ := by
  have hlisted := (hT.listed_of_parent hv.1 hv.2).1
  refine ⟨fun u hu => ?_, fun u hu q hq => ?_, fun u hu q hq => ?_⟩
  · rcases (mem_standing_of_setCurrent ht).1 hu with hu | ⟨rfl, hstate, -⟩
    · exact h.listed u hu
    · exact ⟨hv.1, hstate⟩
  · refine (mem_standing_of_setCurrent ht).2 (.inl ?_)
    rcases (mem_standing_of_setCurrent ht).1 hu with hu | ⟨rfl, -, hstands⟩
    · exact h.owner u hu q hq
    · obtain rfl : q = r := Option.some.inj (hq.symm.trans hv.2)
      exact hstands
  · rw [hi]
    rcases (mem_standing_of_setCurrent ht).1 hu with hu | ⟨rfl, hstate, -⟩
    -- what stood before is in another region, since this one was vacant
    · have hne : q ≠ r := fun he => hvacant u hu (he ▸ hq)
      have hqlisted := (hT.listed_of_parent (h.listed u hu).1 hq).1
      rw [hJ.current_setCurrent hlawful hv q hqlisted, if_neg hne,
        hJ.lastKnown_setCurrent hlawful hv q hqlisted, if_neg fun h => hne h.1]
      exact h.shown u hu q hq
    · obtain rfl : q = r := Option.some.inj (hq.symm.trans hv.2)
      rw [hJ.current_setCurrent hlawful hv q hlisted, if_pos rfl,
        hJ.lastKnown_setCurrent hlawful hv q hlisted, if_pos ⟨rfl, hstate⟩]
      exact ⟨rfl, rfl⟩

theorem Tracks.begun (h : s.Tracks T i₀) (hr : s.Clear T i₀ r) : s'.Begun T i₀ v := by
  obtain ⟨hactive, hvacant⟩ := hr
  have hlisted := (hT.listed_of_parent hv.1 hv.2).1
  have howner := (hT.owner_of_mem_regions hlisted).1
  have hstood : ∀ u ∈ s'.standing T i₀, u ≠ v → u ∈ s.standing T i₀ := fun u hu hne =>
    ((mem_standing_of_setCurrent ht).1 hu).resolve_right fun h => hne h.1
  have hactive' : Instance.isActive T s'.inst (T.region r).parent := by
    rw [hi]
    exact (isActive_setCurrent hJ.toLaws hT howner hlawful hv fun h =>
      hT.not_along_owner h.2).2 hactive
  refine ⟨⟨r, hv.2, hactive', fun u hu hur => ?_⟩, fun hstate q hq => ⟨?_, fun u hu huq => ?_⟩⟩
  · exact Classical.byContradiction fun hne => hvacant u (hstood u hu hne) hur
  · rw [(hT.mem_regions v q hq).2]
    refine (hT.isActiveIn_of_parent hv.2).2 ⟨hactive', ?_⟩
    rw [hi, hJ.lastKnown_setCurrent hlawful hv r hlisted, if_pos ⟨rfl, hstate⟩]
  · have hqo := (hT.mem_regions v q hq).2
    have hne : u ≠ v := by
      rintro rfl
      exact hT.not_along_owner (hqo ▸ Topology.along_of_parent huq)
    have hv' := h.owner u (hstood u hu hne) q huq
    exact hvacant v (hqo ▸ hv') hv.2

end SetCurrent

/-- Making a vertex current in a region that is clear. -/
theorem Tidy.setCurrent (hT : T.WellFormed) (hJ : Instance.Seats T J) (h : s.Tidy T J i₀)
    (s' : Session σ ι) {r : RegionId} {v : VertexId} (hv : T.Holds r v)
    (hr : s.Unless T (Clear T i₀ r))
    (ht : s'.trail = .setCurrent r v :: s.trail)
    (hi : s'.inst = Instance.setCurrent T r v s.inst) :
    s'.Tidy T J i₀ ∧ s'.Unless T (Begun T i₀ v) := by
  have htracks : s'.Deviated T ∨ s'.Tracks T i₀ ∧ s'.Begun T i₀ v := by
    rcases h.tracks with hs | htracks
    · exact .inl (hs.grow [_] ht)
    rcases hr with hs | hr
    · exact .inl (hs.grow [_] ht)
    exact .inr ⟨htracks.setCurrent hT hJ h.lawful hv ht hi hr.2,
      htracks.begun hT hJ h.lawful hv ht hi hr⟩
  refine ⟨⟨hi ▸ hJ.setCurrent h.lawful hv, fun q w past hpast => ?_, htracks.imp_right And.left⟩,
    htracks.imp_right And.right⟩
  rw [ht] at hpast
  rcases List.suffix_cons_iff.1 hpast with he | hpast
  · obtain ⟨hevent, rfl⟩ := List.cons.inj he
    obtain ⟨rfl, -⟩ := Event.setCurrent.inj hevent
    exact hr.symm.imp_left And.right
  · exact h.vacated q w past hpast

end Session

end

end Hsm
