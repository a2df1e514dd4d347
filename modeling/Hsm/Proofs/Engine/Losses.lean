import Hsm.Proofs.Program.Paths
import Hsm.Proofs.Topology.Way

/-!
# Ways past a completion

A state is offered its completion when a transition ends in it, and when something beneath it has
taken a trigger. A run may make a state active and complete without passing one of these places;
the events in which it does so are few, and whether one is such an event depends on what is last
known at that moment (`Event.Loses`). While a run is under way, a state may wait for its completion
for the time being; `Topology.LooseBefore`, `LooseWithin` and `LooseAfter` say where in an entry
that is, and `LooseFrom`, `LooseThrough` and `LooseBeyond` where along a transition.
-/

namespace Hsm

namespace Topology

variable (T : Topology) (s : VertexId) (t : TransitionId)

/-- The transition leads to a vertex that is not in the model. -/
def LeadsOut : Prop :=
  ∃ x ∈ (T.transition t).target, x ∉ T.vertices

/-- The transition leads beneath `s` from elsewhere. -/
def ReachesInto : Prop :=
  ¬T.isDescendant (T.transition t).source s ∧
    ∃ x ∈ (T.transition t).target, T.isDescendant x s

/-- The transition leads out of `s`, or of a pseudostate beside the way to it. -/
def Departs : Prop :=
  (T.transition t).source = s
    ∨ ¬T.isState (T.transition t).source ∧ T.Beside s (T.transition t).source

/-- Something takes the place of what is on the way to `s`. -/
def Supplants : Prop :=
  (T.transition t).kind ≠ .internal ∧ ∃ x ∈ (T.transition t).target, T.Replaces s x

/-- A history that resumes `s`, or what `s` is nested in, if that is last known in its region. -/
def Restores (v : VertexId) : Prop :=
  T.pseudoKind? v = some .deepHistory
    ∨ T.pseudoKind? v = some .shallowHistory ∧ (T.vertex v).parent = (T.vertex s).parent

instance : Decidable (T.LeadsOut t) :=
  inferInstanceAs (Decidable (∃ x ∈ _, _))

instance : Decidable (T.ReachesInto s t) :=
  inferInstanceAs (Decidable (_ ∧ ∃ x ∈ _, _))

instance : Decidable (T.Departs s t) :=
  inferInstanceAs (Decidable (_ ∨ _))

instance : Decidable (T.Supplants s t) :=
  inferInstanceAs (Decidable (_ ∧ ∃ x ∈ _, _))

instance (v : VertexId) : Decidable (T.Restores s v) :=
  inferInstanceAs (Decidable (_ ∨ _))

end Topology

section

variable {ι : Type} [Instance ι]

/-- The last known state of the region is on the way to `s`. -/
def Instance.Recalls (T : Topology) (s : VertexId) (r : RegionId) (i : ι) : Prop :=
  ∃ v ∈ lastKnown T r i, v ∈ T.vertexAncestry s ∧ (T.vertex v).parent = some r

instance (T : Topology) (s : VertexId) (r : RegionId) (i : ι) :
    Decidable (Instance.Recalls T s r i) :=
  inferInstanceAs (Decidable (∃ v ∈ _, _))

/-- The event may leave `s` waiting, with the instance as it was before. A transition leads out of
the model, or beneath `s` from elsewhere, or departs while `s` is active with nothing taking its
place. Or a region is entered that goes on to `s` itself, or by a history or no entry point to what
it recalls; or a history is entered that resumes what its region recalls. -/
def Event.Loses (T : Topology) (s : VertexId) (i : ι) : Event → Prop
  | .traversed t => T.LeadsOut t ∨ T.ReachesInto s t
      ∨ Instance.isActive T i s ∧ T.Departs s t ∧ ¬T.Supplants s t
  | .entered (.region r) => T.regionInitial r = some s
      ∨ Instance.Recalls T s r i ∧ ∀ v ∈ T.regionInitial r, T.Restores s v
  | .entered (.vertex v) => T.Restores s v ∧ ∃ r ∈ (T.vertex v).parent, Instance.Recalls T s r i
  | _ => False

instance (T : Topology) (s : VertexId) (i : ι) : ∀ e : Event, Decidable (e.Loses T s i)
  | .traversed t => inferInstanceAs (Decidable (T.LeadsOut t ∨ _))
  | .entered (.region r) => inferInstanceAs (Decidable (T.regionInitial r = some s
      ∨ _ ∧ ∀ v ∈ T.regionInitial r, T.Restores s v))
  | .entered (.vertex v) => inferInstanceAs (Decidable (T.Restores s v ∧ ∃ r ∈ _, _))
  | .message .. | .traced _ | .left _ | .setCurrent .. | .terminated | .acted .. | .checked ..
  | .drew .. | .offered .. | .selected .. => inferInstanceAs (Decidable False)

/-- One of the events, of which the first comes to the instance, goes past the completion of `s`. -/
def Instance.GoesPast (T : Topology) (s : VertexId) : ι → List Event → Prop
  | _, [] => False
  | i, e :: es => e.Loses T s i ∨ GoesPast T s (e.replay T i) es

instance Instance.decidableGoesPast (T : Topology) (s : VertexId) :
    ∀ (i : ι) (es : List Event), Decidable (GoesPast T s i es)
  | _, [] => inferInstanceAs (Decidable False)
  | i, e :: es =>
    have := decidableGoesPast T s (e.replay T i) es
    inferInstanceAs (Decidable (e.Loses T s i ∨ GoesPast T s (e.replay T i) es))

variable {T : Topology} {s : VertexId} {r : RegionId} {i j : ι}

theorem Instance.goesPast_append {es' : List Event} : ∀ {es : List Event} {i : ι},
    GoesPast T s i (es ++ es') ↔ GoesPast T s i es ∨ GoesPast T s (replay T es.reverse i) es'
  | [], _ => ⟨.inr, fun h => h.resolve_left id⟩
  | e :: es, i => by
    rw [List.reverse_cons, replay_append]
    exact (or_congr Iff.rfl goesPast_append).trans or_assoc.symm

theorem Instance.Recalls.congr (h : lastKnown T r j = lastKnown T r i) :
    Recalls T s r j ↔ Recalls T s r i := by
  unfold Recalls
  rw [h]

/-- Whether an event goes past the completion rests on last known states alone. -/
theorem Instance.Alike.loses_iff (h : Alike T i j) {e : Event} : e.Loses T s j ↔ e.Loses T s i := by
  cases e with
  | traversed t => rw [Event.Loses, Event.Loses, h.isActive]
  | entered x =>
    cases x with
    | region r => rw [Event.Loses, Event.Loses, Recalls.congr (h.lastKnown r)]
    | vertex v =>
      rw [Event.Loses, Event.Loses]
      simp only [Recalls.congr (h.lastKnown _)]
  | _ => exact Iff.rfl

theorem Instance.not_isActive_of_not_recalls (h : T.Along s r) (hno : ¬Recalls T s r i) :
    ¬isActive T i s := by
  obtain ⟨a, ha, hr⟩ := h
  exact fun hactive => hno ⟨a, Instance.isActive_iff.1 hactive a ha r hr, ha, hr⟩

end

/-! ## Where a state may wait for the time being -/

namespace Topology

variable (T : Topology) (s : VertexId)

/-- A deep entry of the element may resume `s` where an entry that is not deep does not. -/
def Exposed : Element → Prop
  | .region r => T.Along s r
  | .vertex v => v ∈ T.vertexAncestry s
    ∨ (¬T.isState v ∧ T.pseudoKind? v ≠ some .deepHistory) ∧ T.Beside s v

/-- As the vertex begins entry. -/
def LooseBefore (v : VertexId) : Prop :=
  T.isDescendant v s ∨ v ∈ T.vertexAncestry s ∨ T.Beside s v

/-- Between the halves of the entry of an element. -/
def LooseWithin : Element → Prop
  | .region r => T.Inside s r ∨ T.Along s r
  | .vertex v => T.isDescendant v s ∨ v ∈ T.vertexAncestry s
    ∨ (∃ k, T.pseudoKind? v = some k ∧ k ≠ .terminate) ∧ T.Beside s v

/-- Once the element is entered. -/
def LooseAfter : Element → Prop
  | .region r => T.Inside s r
  | .vertex v => T.isDescendant v s ∨ v = s
    ∨ (T.pseudoKind? v = some .choice ∨ T.pseudoKind? v = some .junction) ∧ T.Beside s v

/-- As the transition is taken. -/
def LooseFrom (t : TransitionId) : Prop :=
  T.isDescendant (T.transition t).source s ∨ T.Departs s t

/-- As the steps of the transition begin. -/
def LooseThrough (t : TransitionId) : Prop :=
  T.isDescendant (T.transition t).source s ∨ T.Departs s t ∧ T.Supplants s t

/-- Once the steps of the transition are performed. -/
def LooseBeyond (t : TransitionId) : Prop :=
  T.isDescendant (T.transition t).source s
    ∨ ∃ x ∈ (T.transition t).target, T.LooseAfter s (.vertex x)

/-- The transition is in the model and does not lead out from beneath `s`. -/
def Elsewhere (t : TransitionId) : Prop :=
  t ∈ T.transitions ∧ ¬T.isDescendant (T.transition t).source s

/-- The transition leads neither out of the model nor beneath `s` either. -/
def Clear (t : TransitionId) : Prop :=
  T.Elsewhere s t ∧ ¬T.LeadsOut t ∧ ¬T.ReachesInto s t

variable {T s}

theorem along_of_near {v : VertexId} {r : RegionId} (hr : (T.vertex v).parent = some r)
    (h : v ∈ T.vertexAncestry s ∨ T.Beside s v) : T.Along s r := by
  rcases h with h | ⟨q, hq, h⟩
  · exact ⟨v, h, hr⟩
  · exact Option.some.inj (hr.symm.trans hq) ▸ h

theorem along_of_exposed {v : VertexId} {r : RegionId} (hr : (T.vertex v).parent = some r)
    (h : T.Exposed s (.vertex v)) : T.Along s r :=
  along_of_near hr (h.imp id And.right)

/-- A history that does not resume `s` is a shallow one of another region. -/
theorem shallow_of_isHistory {v : VertexId} (h : T.isHistory v) (hno : ¬T.Restores s v) :
    T.pseudoKind? v ≠ some .deepHistory ∧ (T.vertex v).parent ≠ (T.vertex s).parent := by
  refine ⟨fun hk => hno (.inl hk), fun hp => ?_⟩
  unfold isHistory at h
  cases hk : T.pseudoKind? v with
  | none => rw [hk] at h; cases h
  | some k =>
    rw [hk] at h
    cases k with
    | deepHistory => exact hno (.inl hk)
    | shallowHistory => exact hno (.inr ⟨hk, hp⟩)
    | _ => cases h

/-- What such a history, in a region that is not entered deep, goes on to is not `s`, nor is it
entered deep. -/
theorem apart_of_not_restores {deep : Bool} {r : RegionId} {v w : VertexId} (hdeep : deep = false)
    (hd : deep || T.isHistory w) (hno : ¬T.Restores s w) (hw : (T.vertex w).parent = some r)
    (hv : (T.vertex v).parent = some r) :
    (deep || T.pseudoKind? w = some .deepHistory) = false ∧ v ≠ s := by
  subst hdeep
  rw [Bool.false_or] at hd ⊢
  obtain ⟨hkind, hp⟩ := shallow_of_isHistory hd hno
  refine ⟨decide_eq_false hkind, ?_⟩
  rintro rfl
  exact hp (hw.trans hv.symm)

theorem Restores.not_isState {v : VertexId} (h : T.Restores s v) : ¬T.isState v :=
  h.elim not_isState_of_pseudoKind? fun h => not_isState_of_pseudoKind? h.1

theorem Restores.ne_terminate {v : VertexId} (h : T.Restores s v) {k : PseudoKind}
    (hk : T.pseudoKind? v = some k) : k ≠ .terminate := by
  rintro rfl
  rcases h with h | ⟨h, -⟩ <;> cases hk.symm.trans h

/-! ## Transitions that do not go past a completion -/

namespace Clear

variable {t : TransitionId} (h : T.Clear s t) {x : VertexId}
  (hx : (T.transition t).target = some x)
include h

theorem departs (hloose : T.LooseThrough s t) : T.Departs s t ∧ T.Supplants s t :=
  hloose.resolve_left h.1.2

include hx

theorem mem_vertices : x ∈ T.vertices :=
  Classical.byContradiction fun hno => h.2.1 ⟨x, hx, hno⟩

theorem not_isDescendant_target : ¬T.isDescendant x s :=
  fun hd => h.2.2 ⟨h.1.2, x, hx, hd⟩

theorem looseBeyond_cases (hloose : T.LooseBeyond s t) : x = s
    ∨ (T.pseudoKind? x = some .choice ∨ T.pseudoKind? x = some .junction) ∧ T.Beside s x := by
  obtain hd | ⟨y, hy, hd | hcases⟩ := hloose
  · exact absurd hd h.1.2
  · exact absurd hd (h.not_isDescendant_target hy)
  · exact Option.some.inj (hx.symm.trans hy) ▸ hcases

end Clear

namespace WellFormed

variable (hT : T.WellFormed)
include hT

/-- What leads on from the target of a clear transition does not lead out from beneath `s`. -/
theorem elsewhere_of_clear {t u : TransitionId} {x : VertexId} (h : T.Clear s t)
    (hx : (T.transition t).target = some x) (hu : u ∈ (T.vertex x).outgoing) : T.Elsewhere s u := by
  refine ⟨mem_transitions.2 ⟨x, h.mem_vertices hx, hu⟩, ?_⟩
  rw [(hT.mem_outgoing x u hu).2]
  exact h.not_isDescendant_target hx

/-- A choice or a junction that is loose leads on by a transition that is. -/
theorem looseFrom_of_clear (hstate : T.isState s) {t u : TransitionId} (h : T.Clear s t)
    {x : VertexId} (hx : (T.transition t).target = some x) (hns : ¬T.isState x)
    (hu : u ∈ (T.vertex x).outgoing) (hloose : T.LooseBeyond s t) : T.LooseFrom s u := by
  have hsource := (hT.mem_outgoing x u hu).2
  obtain rfl | ⟨-, hb⟩ := h.looseBeyond_cases hx hloose
  · exact absurd hstate hns
  · exact .inr (.inr ⟨hsource ▸ hns, hsource ▸ hb⟩)

/-! ### Paths to what takes the place of `s` -/

variable (hs : s ∈ T.vertices) {x : VertexId} (hx : x ∈ T.vertices) (h : T.Replaces s x)
include hs hx h

/-- Below vertices of the way, the path to `x` goes on along the way or beside it. -/
theorem looseBefore_of_take {i : Nat} (hi : i < (T.vertexAncestry x).length)
    (htake : ∀ a ∈ (T.vertexAncestry x).take i, a ∈ T.vertexAncestry s) :
    T.LooseBefore s (T.vertexAncestry x)[i] := by
  by_cases hoff : (T.vertexAncestry x)[i] ∈ T.vertexAncestry s
  · exact .inr (.inl hoff)
  · obtain ⟨b, hb, hboff, hbeside⟩ :=
      hT.exists_beside_of_replaces hs hx h (List.getElem_mem hi) hoff
    by_cases he : b = (T.vertexAncestry x)[i]
    · exact .inr (.inr (he ▸ hbeside))
    · exact absurd (htake b (Forest.mem_take_of_mem_ancestors (F := T.stateTree)
        (List.getElem?_eq_getElem hi) hb he)) hboff

/-- The entry side of an external transition begins where `s` may wait. -/
theorem looseBefore_of_split {u : VertexId} (hu : u = s ∨ T.Beside s u)
    (hi : Machine.splitIndex (T.vertexAncestry u) (T.vertexAncestry x)
      < (T.vertexAncestry x).length) :
    T.LooseBefore s (T.vertexAncestry x)[Machine.splitIndex (T.vertexAncestry u)
      (T.vertexAncestry x)] := by
  refine hT.looseBefore_of_take hs hx h hi fun a ha => ?_
  rw [← Machine.take_splitIndex] at ha
  rcases hu with rfl | ⟨r, hr, halong⟩
  · exact List.mem_of_mem_take ha
  · -- the source itself is not among the common vertices
    have hlt : Machine.splitIndex (T.vertexAncestry u) (T.vertexAncestry x)
        < (T.vertexAncestry u).length := Machine.splitIndex_lt_left (vertexAncestry_ne_nil u)
    rw [hT.vertexAncestry_of_parent hr, List.length_append, List.length_singleton] at hlt
    rw [hT.vertexAncestry_of_parent hr, List.take_append_of_le_length (by omega)] at ha
    exact Forest.mem_ancestors_trans (F := T.stateTree) (List.mem_of_mem_take ha)
      (hT.mem_way_of_along halong).1

/-- Below what is active beside `s`, the path to `x` begins where `s` may wait. -/
theorem looseBefore_of_active {lastKnown : RegionId → Option VertexId}
    (hactive : T.isActiveIn lastKnown s) {i : Nat} (hi : i < (T.vertexAncestry x).length)
    (htake : ∀ a ∈ (T.vertexAncestry x).take i, T.isActiveIn lastKnown a) :
    T.LooseBefore s (T.vertexAncestry x)[i] := by
  refine hT.looseBefore_of_take hs hx h hi fun a ha => Classical.byContradiction fun hoff => ?_
  obtain ⟨b, hb, hboff, r, hbr, c, hc, hcr⟩ :=
    hT.exists_beside_of_replaces hs hx h (List.mem_of_mem_take ha) hoff
  have hlast := (hT.isActiveIn_of_parent hbr).1 (isActiveIn_of_mem hb (htake a ha))
  have hway := (hT.isActiveIn_of_parent hcr).1 (isActiveIn_of_mem hc hactive)
  exact hboff (Option.some.inj (hway.2.symm.trans hlast.2) ▸ hc)

end WellFormed

/-! ## Entries that do not go past a completion -/

namespace WellFormed

variable (hT : T.WellFormed)
include hT

/-- Nothing is left loose by an entry point other than `s`. -/
theorem inside_of_initial (hs : s ∈ T.vertices) (hstate : T.isState s) {r : RegionId}
    {v : VertexId} (hne : v ≠ s) (hv : T.regionInitial r = some v)
    (hafter : T.LooseAfter s (.vertex v)) : T.Inside s r := by
  have hr := (hT.mem_vertices r v (regionInitial_mem hv)).2
  rcases hafter with hd | he | ⟨hk, hb⟩
  · exact (hT.isDescendant_of_parent hr).1 hd
  · exact absurd he hne
  · obtain ⟨a, ha, har⟩ := along_of_near hr (.inr hb)
    rcases regionInitial_cases hv with ⟨k, hk', hi⟩ | honly
    · rcases hk with hk | hk <;> rw [hk] at hk' <;> obtain rfl := Option.some.inj hk' <;> cases hi
    · -- the region has no vertex but the one on the way
      have hmem := (hT.listed_of_parent (hT.mem_vertices_of_mem_vertexAncestry hs ha) har).2
      rw [honly] at hmem
      have hway := hT.isState_of_mem_way hs hstate ha
      rw [List.mem_singleton.1 hmem] at hway
      rcases hk with hk | hk <;> exact absurd hway (not_isState_of_pseudoKind? hk)

/-- What is loose within a state above `s` is so by the region along the way. -/
theorem exists_along_of_within (hs : s ∈ T.vertices) {v : VertexId}
    (hnot : s ∉ T.vertexAncestry v) (hv : T.isState v) (h : T.LooseWithin s (.vertex v)) :
    ∃ r ∈ (T.vertex v).regions, T.Along s r := by
  rcases h with h | h | ⟨⟨k, hk, -⟩, -⟩
  · exact absurd (isDescendant_iff.1 h).1 hnot
  · exact hT.exists_along hs h fun he => hnot (he ▸ mem_vertexAncestry_self _)
  · exact absurd hv (not_isState_of_pseudoKind? hk)

/-- What is loose within a pseudostate that is not beneath `s` is so beside `s`. -/
theorem beside_of_within (hs : s ∈ T.vertices) (hstate : T.isState s) {v : VertexId}
    {k : PseudoKind} (hnot : s ∉ T.vertexAncestry v) (hk : T.pseudoKind? v = some k)
    (h : T.LooseWithin s (.vertex v)) : k ≠ .terminate ∧ T.Beside s v := by
  rcases h with h | h | ⟨⟨k', hk', hne⟩, hb⟩
  · exact absurd (isDescendant_iff.1 h).1 hnot
  · exact absurd (hT.isState_of_mem_way hs hstate h) (not_isState_of_pseudoKind? hk)
  · exact ⟨Option.some.inj (hk.symm.trans hk') ▸ hne, hb⟩

/-- A state that is not `s` is entered with nothing left loose. -/
theorem not_looseAfter_of_state {r : RegionId} {v : VertexId} (hr : (T.vertex v).parent = some r)
    (hv : T.isState v) (hnot : ¬T.Inside s r) (hne : v ≠ s) : ¬T.LooseAfter s (.vertex v) := by
  rintro (h | h | ⟨hk, -⟩)
  · exact hnot ((hT.isDescendant_of_parent hr).1 h)
  · exact hne h
  · rcases hk with hk | hk <;> exact absurd hv (not_isState_of_pseudoKind? hk)

end WellFormed

end Topology

end Hsm
