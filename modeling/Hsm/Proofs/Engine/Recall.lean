import Hsm.Proofs.Engine.Spec
import Hsm.Proofs.Instance.Seated
import Hsm.Proofs.Machine.Reachable

/-!
# What deep history recalls

A deep history takes its region back to the last known state, and every region of that state to its
own, down to the bottom (`deepHistory_restores`). Whether the entry of a region was copied
when the model was compiled or is decided when it runs makes no difference: the flag of deep history
goes along with every step, so an initial pseudostate that was copied resumes the last known state
as well.
-/

namespace Hsm

variable {σ ι : Type}

namespace Topology

/-- The regions that are reached from `r` by last known states that are still in their regions. -/
inductive Recorded (T : Topology) (known : RegionId → Option VertexId) : RegionId → RegionId → Prop
  | self (r : RegionId) : Recorded T known r r
  | step {r a q : RegionId} {s : VertexId} : known r = some s → s ∈ (T.region r).vertices →
    a ∈ (T.vertex s).regions → Recorded T known a q → Recorded T known r q

/-- The last known state of the region is a state of its own that was not removed. -/
def KnowsOwn (T : Topology) (known : RegionId → Option VertexId) (q : RegionId) : Prop :=
  ∃ s ∈ known q, T.isState s ∧ T.isAttached (.vertex s) ∧ (T.vertex s).parent = some q

instance (T : Topology) (known : RegionId → Option VertexId) (q : RegionId) :
    Decidable (T.KnowsOwn known q) :=
  inferInstanceAs (Decidable (∃ s ∈ known q, _))

/-- All that is reached from `r` has a last known state to go back to. Of a region that lost its
vertices, no state is known that is still in the model. -/
structure FullUnder (T : Topology) (known : RegionId → Option VertexId) (r : RegionId) : Prop where
  known_of_ne_nil : ∀ q, T.Recorded known r q → (T.region q).vertices ≠ [] → T.KnowsOwn known q
  gone_of_nil : ∀ q, T.Recorded known r q → (T.region q).vertices = [] →
    ∀ s ∈ known q, s ∉ T.vertices

/-- The regions reached from `r` that have vertices. -/
def OnRecord (T : Topology) (known : RegionId → Option VertexId) (r q : RegionId) : Prop :=
  T.Recorded known r q ∧ (T.region q).vertices ≠ []

variable {T : Topology} {known : RegionId → Option VertexId} {r : RegionId} {s : VertexId}

theorem FullUnder.exists_mem (h : T.FullUnder known r) (hT : T.Marked)
    (hne : (T.region r).vertices ≠ []) :
    ∃ s ∈ (T.region r).vertices, known r = some s ∧ T.isState s := by
  obtain ⟨s, hs, hstate, hattached, hp⟩ := h.known_of_ne_nil r (.self r) hne
  exact ⟨s, (hT.mem_vertices_iff (lt_size_of_parent hp) hp).2 hattached, hs, hstate⟩

theorem FullUnder.below (h : T.FullUnder known r) (hs : known r = some s)
    (hmem : s ∈ (T.region r).vertices) {a : RegionId} (ha : a ∈ (T.vertex s).regions) :
    T.FullUnder known a :=
  ⟨fun q hq => h.known_of_ne_nil q (.step hs hmem ha hq),
    fun q hq => h.gone_of_nil q (.step hs hmem ha hq)⟩

theorem Recorded.mem_regions {q : RegionId} (h : T.Recorded known r q) (hT : T.WellFormed)
    (hr : r ∈ T.regions) : q ∈ T.regions := by
  induction h with
  | self => exact hr
  | step _ hmem ha _ ih =>
    exact ih (Topology.mem_regions.2 ⟨_, hT.mem_vertices_of_region hr hmem, ha⟩)

theorem FullUnder.of_regions (hT : T.WellFormed) (hr : r ∈ T.regions)
    (h : ∀ q ∈ T.regions, if (T.region q).vertices = [] then ∀ s ∈ known q, s ∉ T.vertices
      else T.KnowsOwn known q) :
    T.FullUnder known r := by
  refine ⟨fun q hq hne => ?_, fun q hq hnil => ?_⟩ <;>
    have hq := h q (hq.mem_regions hT hr)
  · rwa [if_neg hne] at hq
  · rwa [if_pos hnil] at hq

theorem onRecord_of_nil (hnil : (T.region r).vertices = []) (q : RegionId) :
    ¬T.OnRecord known r q := by
  rintro ⟨_ | ⟨-, hmem, -, -⟩, hne⟩
  · exact hne hnil
  · rw [hnil] at hmem
    cases hmem

theorem onRecord_iff (hs : known r = some s) (hmem : s ∈ (T.region r).vertices) (q : RegionId) :
    T.OnRecord known r q ↔ q = r ∨ ∃ a ∈ (T.vertex s).regions, T.OnRecord known a q := by
  constructor
  · rintro ⟨_ | ⟨hs', hmem', ha, hq⟩, hne⟩
    · exact .inl rfl
    · obtain rfl := Option.some.inj (hs.symm.trans hs')
      exact .inr ⟨_, ha, hq, hne⟩
  · rintro (rfl | ⟨a, ha, hq, hne⟩)
    · exact ⟨.self _, List.ne_nil_of_mem hmem⟩
    · exact ⟨.step hs hmem ha hq, hne⟩

end Topology

/-! ## Instances -/

/-- Of instances of the kind, what is known stays as it is when it becomes current again, or when
a pseudostate becomes current. -/
structure Instance.Retains (T : Topology) (ι : Type) [Instance ι] : Prop where
  lastKnown_setCurrent : ∀ {i : ι} {r v}, (T.isState v → lastKnown T r i = some v) →
    ∀ q, lastKnown T q (setCurrent T r v i) = lastKnown T q i
  current_setCurrent : ∀ {i : ι} {r v}, (T.isState v → lastKnown T r i = some v) →
    ∀ q, current T q (setCurrent T r v i) = if q = r then some v else current T q i
  lastKnown_trace : ∀ (i : ι) (line) (q), lastKnown T q (trace line i) = lastKnown T q i
  current_trace : ∀ (i : ι) (line) (q), current T q (trace line i) = current T q i

theorem TableInstance.retains (T : Topology) : Instance.Retains T TableInstance where
  lastKnown_setCurrent {i r v} h q := by
    show (i.setCurrent T r v).lastKnown.get? q = i.lastKnown.get? q
    rw [lastKnown_setCurrent]
    split
    · rename_i hq
      exact hq.1 ▸ (h hq.2).symm
    · rfl
  current_setCurrent _ q := current_setCurrent _ q _
  lastKnown_trace _ _ _ := rfl
  current_trace _ _ _ := rfl

/-- The name that is written is the one that was there, even where several regions share a node. -/
theorem TreeInstance.lastKnown_setCurrent_again {T : Topology} {i : TreeInstance} {r : RegionId}
    {v : VertexId} (h : T.isState v → i.lastKnown T r = some v) (q : RegionId) :
    (i.setCurrent T r v).lastKnown T q = i.lastKnown T q := by
  unfold setCurrent
  split
  · rename_i hs
    have hr := h hs
    rw [lastKnown_eq_known] at hr
    obtain ⟨name, hname, hv⟩ := Option.bind_eq_some_iff.1 hr
    obtain ⟨-, -, rfl⟩ := Topology.findState_eq_some hv
    rw [lastKnown_eq_known, known_remember, lastKnown_eq_known]
    split
    · rename_i hq
      rw [hq, hname]
      rfl
    · rfl
  · rfl

theorem TreeInstance.retains (T : Topology) : Instance.Retains T TreeInstance where
  lastKnown_setCurrent h q := lastKnown_setCurrent_again h q
  current_setCurrent {i r v} h q := by
    show (i.setCurrent T r v).currentIn T q = if q = r then some v else i.currentIn T q
    unfold currentIn
    rw [current_setCurrent, lastKnown_setCurrent_again h]
    by_cases hq : q = r <;> simp only [hq, if_true, if_false]
  lastKnown_trace _ _ _ := rfl
  current_trace _ _ _ := rfl

section

variable [Instance ι]

/-- What is known in `s` is known in `s'`; it is what is current in the regions `C`, and elsewhere
the same is current. No transition ran in between. -/
structure Session.Recalls (T : Topology) (C : RegionId → Prop) (s s' : Session σ ι) : Prop where
  lastKnown_eq : ∀ q, Instance.lastKnown T q s'.inst = Instance.lastKnown T q s.inst
  current_eq : ∀ q, C q → Instance.current T q s'.inst = Instance.lastKnown T q s.inst
  current_frame : ∀ q, ¬C q → Instance.current T q s'.inst = Instance.current T q s.inst
  untraversed : ∃ es, s'.trail = es ++ s.trail ∧ ∀ t, .traversed t ∉ es

variable {T : Topology} {C D : RegionId → Prop}

theorem Session.Recalls.trans {s s' s'' : Session σ ι} (h : s.Recalls T C s')
    (h' : s'.Recalls T D s'') : s.Recalls T (fun q => C q ∨ D q) s'' where
  lastKnown_eq q := (h'.lastKnown_eq q).trans (h.lastKnown_eq q)
  current_eq q hq := by
    by_cases hD : D q
    · exact (h'.current_eq q hD).trans (h.lastKnown_eq q)
    · exact (h'.current_frame q hD).trans (h.current_eq q (hq.resolve_right hD))
  current_frame q hq :=
    (h'.current_frame q fun hD => hq (.inr hD)).trans (h.current_frame q fun hC => hq (.inl hC))
  untraversed := by
    obtain ⟨es, ht, hes⟩ := h.untraversed
    obtain ⟨es', ht', hes'⟩ := h'.untraversed
    refine ⟨es' ++ es, by rw [ht', ht, List.append_assoc], fun t hm => ?_⟩
    exact (List.mem_append.1 hm).elim (hes' t) (hes t)

/-- What happened in between changes nothing that can be read off the regions. -/
theorem Session.Recalls.of_same {s s' : Session σ ι} (es : List Event)
    (hknown : ∀ q, Instance.lastKnown T q s'.inst = Instance.lastKnown T q s.inst)
    (hcurrent : ∀ q, Instance.current T q s'.inst = Instance.current T q s.inst)
    (ht : s'.trail = es ++ s.trail) (hes : ∀ t, .traversed t ∉ es) :
    s.Recalls T (fun _ => False) s' :=
  ⟨hknown, fun _ h => h.elim, fun q _ => hcurrent q, es, ht, hes⟩

/-- Unless an action fails, the run ends with a value, and with a session of the kind. -/
def Run.Arrives {α : Type} (s : Session σ ι) (x : Run σ ι α) (q : Session σ ι → Prop) : Prop :=
  (∃ message, (x s).1 = .failed (.action message)) ∨ ∃ a, (x s).1 = .value a ∧ q (x s).2

namespace Run.Arrives

variable {α β : Type} {x : Run σ ι α} {f : α → Run σ ι β} {s : Session σ ι}
  {p q : Session σ ι → Prop}

omit [Instance ι] in
theorem mono (h : x.Arrives s p) (hpq : ∀ s', p s' → q s') : x.Arrives s q :=
  h.imp id fun ⟨a, ha, hp⟩ => ⟨a, ha, hpq _ hp⟩

omit [Instance ι] in
theorem bind (hx : x.Arrives s p) (hf : ∀ a s', p s' → (f a).Arrives s' q) :
    (x >>= f).Arrives s q := by
  unfold Arrives at hx ⊢
  rcases hxs : x s with ⟨r, s'⟩
  rw [hxs] at hx
  rcases hx with ⟨message, rfl⟩ | ⟨a, rfl, h⟩
  · rw [bind_of_failed hxs]
    exact .inl ⟨message, rfl⟩
  · rw [bind_of_value hxs]
    exact hf a s' h

end Run.Arrives

/-- From every session where `known` is known, the run recalls what is known of `C`. -/
def Run.Recalls {α : Type} (T : Topology) (known : RegionId → Option VertexId)
    (C : RegionId → Prop) (x : Run σ ι α) : Prop :=
  ∀ s, (∀ q, Instance.lastKnown T q s.inst = known q) → x.Arrives s (s.Recalls T C)

namespace Run.Recalls

variable {known : RegionId → Option VertexId} {α β : Type} {x : Run σ ι α} {f : α → Run σ ι β}

theorem congr (h : x.Recalls T known C) (hC : ∀ q, C q ↔ D q) : x.Recalls T known D :=
  (funext fun q => propext (hC q) : C = D) ▸ h

theorem bind (hx : x.Recalls T known C) (hf : ∀ a, (f a).Recalls T known D) :
    (x >>= f).Recalls T known fun q => C q ∨ D q := by
  intro s hs
  refine (hx s hs).bind fun a s' h => ?_
  exact (hf a s' fun q => (h.lastKnown_eq q).trans (hs q)).mono fun _ h' => h.trans h'

/-- What recalls nothing may come first. -/
theorem bind_quiet (hx : x.Recalls T known fun _ => False) (hf : ∀ a, (f a).Recalls T known C) :
    (x >>= f).Recalls T known C :=
  (hx.bind hf).congr fun _ => iff_of_eq (false_or _)

theorem pure (a : α) : (Pure.pure a : Run σ ι α).Recalls T known fun _ => False := fun _ _ =>
  .inr ⟨a, rfl, .of_same [] (fun _ => rfl) (fun _ => rfl) rfl fun _ => List.not_mem_nil⟩

theorem read (g : Session σ ι → α) : (Run.read g).Recalls T known fun _ => False :=
  fun s => pure (g s) s

theorem record {e : Event} (he : ∀ t, e ≠ .traversed t) :
    (Run.record e : Run σ ι Unit).Recalls T known fun _ => False := fun _ _ =>
  .inr ⟨(), rfl, .of_same [e] (fun _ => rfl) (fun _ => rfl) rfl
    fun t ht => he t (List.mem_singleton.1 ht).symm⟩

theorem act (a : Action σ) (trigger : Trigger) :
    (Run.act a trigger : Run σ ι Unit).Recalls T known fun _ => False := by
  intro s _
  unfold Arrives Run.act
  cases hf : (a trigger s.env).failure with
  | some message => exact .inl ⟨message, by simp only [hf]⟩
  | none =>
    refine .inr ⟨(), by simp only [hf], ?_⟩
    simp only [hf]
    exact .of_same [_] (fun _ => rfl) (fun _ => rfl) rfl
      fun _ ht => nomatch List.mem_singleton.1 ht

theorem lastKnown_bind {r : RegionId} {f : Option VertexId → Run σ ι β}
    (h : (f (known r)).Recalls T known C) : (Run.lastKnown T r >>= f).Recalls T known C :=
  fun s hs => by
    have hr : Run.lastKnown T r s = (.value (known r), s) := congrArg (Result.value ·, s) (hs r)
    simp only [Arrives, Bind.bind, hr]
    exact h s hs

section

variable (hι : Instance.Retains T ι)
include hι

theorem trace (line : String) : (Run.trace line : Run σ ι Unit).Recalls T known fun _ => False :=
  fun s _ => .inr ⟨(), rfl, .of_same [.traced line] (hι.lastKnown_trace s.inst line)
    (hι.current_trace s.inst line) rfl fun _ ht => nomatch List.mem_singleton.1 ht⟩

theorem setCurrent {r : RegionId} {v : VertexId} (hv : known r = some v) :
    (Run.setCurrent T r v : Run σ ι Unit).Recalls T known (· = r) := fun s hs => by
  have hagain : T.isState v → Instance.lastKnown T r s.inst = some v := fun _ => (hs r).trans hv
  refine .inr ⟨(), rfl, hι.lastKnown_setCurrent hagain, ?_, fun q hq => ?_, [.setCurrent r v], rfl,
    fun _ ht => nomatch List.mem_singleton.1 ht⟩
  · rintro q rfl
    exact (hι.current_setCurrent hagain q).trans ((if_pos rfl).trans ((hs q).trans hv).symm)
  · exact (hι.current_setCurrent hagain q).trans (if_neg hq)

/-- A pseudostate may become current in a region that is recalled afterwards. -/
theorem setCurrent_bind {r : RegionId} {v : VertexId} (hv : ¬T.isState v) (hr : C r)
    {f : Unit → Run σ ι β} (hf : ∀ a, (f a).Recalls T known C) :
    (Run.setCurrent T r v >>= f).Recalls T known C := fun s hs => by
  have hpseudo : T.isState v → Instance.lastKnown T r s.inst = some v := fun h => absurd h hv
  have hknown := hι.lastKnown_setCurrent hpseudo
  rcases hf () (Run.setCurrent T r v s).2 fun q => (hknown q).trans (hs q) with
    hfail | ⟨b, hb, h⟩
  · exact .inl hfail
  · refine .inr ⟨b, hb, fun q => (h.lastKnown_eq q).trans (hknown q),
      fun q hq => (h.current_eq q hq).trans (hknown q), fun q hq => ?_, ?_⟩
    · exact (h.current_frame q hq).trans ((hι.current_setCurrent hpseudo q).trans
        (if_neg fun he : q = r => hq (he ▸ hr)))
    · obtain ⟨es, ht, hes⟩ := h.untraversed
      refine ⟨es ++ [.setCurrent r v], ht.trans (by simp [Run.setCurrent]), fun t hm => ?_⟩
      rcases List.mem_append.1 hm with hm | hm
      · exact hes t hm
      · cases List.mem_singleton.1 hm

end

end Run.Recalls

/-! ## Steps -/

namespace Run.Recalls

variable {M : Machine σ} {known : RegionId → Option VertexId} {e : Engine σ ι} {trigger : Trigger}
  {deep : Bool}

theorem nil : (e.performAll trigger deep []).Recalls T known fun _ => False :=
  pure ()

theorem cons_quiet {step : Step σ} {steps : List (Step σ)}
    (h : (e.perform step trigger deep).Recalls T known fun _ => False)
    (hs : (e.performAll trigger deep steps).Recalls T known C) :
    (e.performAll trigger deep (step :: steps)).Recalls T known C :=
  h.bind_quiet fun _ => hs

theorem single {step : Step σ} (h : (e.perform step trigger deep).Recalls T known C) :
    (e.performAll trigger deep [step]).Recalls T known C :=
  (h.bind fun _ => nil).congr fun _ => iff_of_eq (or_false _)

theorem append {xs ys : List (Step σ)} (hx : (e.performAll trigger deep xs).Recalls T known C)
    (hy : (e.performAll trigger deep ys).Recalls T known D) :
    (e.performAll trigger deep (xs ++ ys)).Recalls T known fun q => C q ∨ D q := by
  rw [e.performAll_append]
  exact hx.bind fun _ => hy

theorem flatMap {α : Type} {f : α → List (Step σ)} {C : α → RegionId → Prop} {xs : List α}
    (h : ∀ x ∈ xs, (e.performAll trigger deep (f x)).Recalls T known (C x)) :
    (e.performAll trigger deep (xs.flatMap f)).Recalls T known fun q => ∃ x ∈ xs, C x q := by
  induction xs with
  | nil => exact nil.congr fun q => by simp
  | cons x xs ih =>
    refine (append (h x List.mem_cons_self) (ih fun y hy =>
      h y (List.mem_cons_of_mem _ hy))).congr fun q => ?_
    simp

theorem behaviors (as : List (Action σ)) (n : Nat) :
    ((engine (ι := ι) M M.compile (n + 1)).performAll trigger deep
      (as.map .behavior)).Recalls T known fun _ => False := by
  induction as with
  | nil => exact nil
  | cons a as ih => exact cons_quiet (act a trigger) ih

/-- Under a deep history, or by way of one, history applies and goes on to be deep. -/
theorem deep_of {k : Option PseudoKind} (h : deep ∨ k = some .deepHistory) :
    (deep || k.any PseudoKind.isHistory) = true ∧
      (deep || decide (k = some .deepHistory)) = true := by
  rcases h with h | rfl
  · simp [h]
  · simp [PseudoKind.isHistory]

/-- Whatever kind of region entry decides at run time, it goes to the last known state. -/
theorem enterRegion (n : Nat) {r : RegionId} {s : VertexId} (hs : known r = some s)
    {initial : Option VertexId}
    (hdeep : deep ∨ initial.bind M.topology.pseudoKind? = some .deepHistory)
    (h : ((engine (ι := ι) M M.compile n).performAll trigger true
      (M.compile.enter (.vertex s))).Recalls M.topology known C) :
    ((engine (ι := ι) M M.compile (n + 1)).perform (.enterRegion r initial) trigger deep).Recalls
      M.topology known C := by
  obtain ⟨hhistory, hdeeper⟩ := deep_of hdeep
  rw [← Engine.enterElement_eq] at h
  refine lastKnown_bind ?_
  rw [hs, Option.some_or, if_pos hhistory, hdeeper]
  exact h

variable (hι : Instance.Retains M.topology ι)
include hι

theorem announce (verb : String) (x : Element) :
    (Engine.announce M verb x : Run σ ι Unit).Recalls M.topology known fun _ => False :=
  (read _).bind_quiet fun _ => (record fun _ => Event.noConfusion).bind_quiet fun _ => trace hι _

theorem enter (n : Nat) (x : Element) : ((engine (ι := ι) M M.compile (n + 1)).perform (.enter x)
    trigger deep).Recalls M.topology known fun _ => False :=
  (record fun _ => Event.noConfusion).bind_quiet fun _ => announce hι _ x

theorem leave (n : Nat) (x : Element) : ((engine (ι := ι) M M.compile (n + 1)).perform (.leave x)
    trigger deep).Recalls M.topology known fun _ => False :=
  (record fun _ => Event.noConfusion).bind_quiet fun _ => announce hι _ x

theorem resume (n : Nat) {r : RegionId} {s v : VertexId} (hs : known r = some s)
    (hT : M.topology.WellFormed) (hv : v ∈ M.topology.vertices) {k : PseudoKind}
    (hk : M.topology.kind v = .pseudo k) (hp : (M.topology.vertex v).parent = some r)
    (hdeep : deep ∨ k = .deepHistory)
    (h : ((engine (ι := ι) M M.compile (n + 1)).performAll trigger true
      (M.compile.enter (.vertex s))).Recalls M.topology known C) :
    ((engine (ι := ι) M M.compile (n + 2)).perform (.resume v) trigger deep).Recalls
      M.topology known C := by
  obtain ⟨hhistory, hdeeper⟩ := deep_of (k := M.topology.pseudoKind? v)
    (hdeep.imp_right fun hd => (Topology.pseudoKind?_eq hk).trans (congrArg some hd))
  rw [← Engine.enterElement_eq] at h
  show (Engine.resume M M.compile (engine M M.compile (n + 1)) v trigger deep).Recalls _ _ _
  unfold Engine.resume Engine.historyState
  rw [hp]
  dsimp only
  rw [if_pos hhistory]
  refine lastKnown_bind ?_
  rw [hs]
  dsimp only
  rw [hdeeper, Machine.leave_pseudo hT hv hk]
  exact (single (leave hι n _)).bind_quiet fun _ => h

/-- A state becomes current again, and its regions are entered in order. -/
theorem enterState (n : Nat) {r : RegionId} {s : VertexId} (hs : known r = some s)
    (hT : M.topology.WellFormed) (hv : s ∈ M.topology.vertices) (hstate : M.topology.isState s)
    (hp : (M.topology.vertex s).parent = some r) {C : RegionId → RegionId → Prop}
    (h : ∀ a ∈ (M.topology.vertex s).regions,
      ((engine (ι := ι) M M.compile (n + 1)).performAll trigger deep
        (M.compile.enter (.region a))).Recalls M.topology known (C a)) :
    ((engine (ι := ι) M M.compile (n + 1)).performAll trigger deep
      (M.compile.enter (.vertex s))).Recalls M.topology known
        fun q => q = r ∨ ∃ a ∈ (M.topology.vertex s).regions, C a q := by
  rw [Program.enter, Machine.beginEnter_state hT hv hstate, Machine.endEnter_state hT hv hstate,
    Machine.currentSteps_of_parent hp]
  refine append (cons_quiet (enter hι n _) ?_) (flatMap h)
  exact ((setCurrent hι hs).bind fun _ => behaviors _ n).congr fun _ => iff_of_eq (or_false _)

variable (hT : M.topology.WellFormed)
include hT

/-- Before the entry of an initial pseudostate ends it is current itself. -/
theorem enterPseudo (n : Nat) {r : RegionId} {s v : VertexId} (hs : known r = some s)
    (hv : v ∈ M.topology.vertices) {k : PseudoKind} (hk : M.topology.kind v = .pseudo k)
    (hi : k.isInitial) (hp : (M.topology.vertex v).parent = some r) (hr : C r)
    (h : ((engine (ι := ι) M M.compile (n + 1)).performAll trigger true
      (M.compile.enter (.vertex s))).Recalls M.topology known C) :
    ((engine (ι := ι) M M.compile (n + 2)).performAll trigger true
      (M.compile.enter (.vertex v))).Recalls M.topology known C := by
  have hne : k ≠ .terminate := by
    rintro rfl
    cases hi
  have hpseudo : ¬M.topology.isState v :=
    Topology.not_isState_of_pseudoKind? (Topology.pseudoKind?_eq hk)
  rw [Program.enter, Machine.beginEnter_pseudo hT hv hk, Machine.endEnter_pseudo hT hv hk,
    Machine.currentSteps_of_parent hp, if_neg hne, if_pos hi]
  refine cons_quiet (enter hι _ _) (setCurrent_bind hι hpseudo hr fun _ => ?_)
  exact single (resume hι n hs hT hv hk hp (.inl rfl) h)

omit hι in
/-- A region that lost its vertices is passed over. -/
theorem emptyRegion (n : Nat) {r : RegionId} (hnil : (M.topology.region r).vertices = [])
    (hgone : ∀ s ∈ known r, s ∉ M.topology.vertices) :
    ((engine (ι := ι) M M.compile (n + 1)).perform (.enterRegion r none) trigger true).Recalls
      M.topology known fun _ => False := by
  refine lastKnown_bind ?_
  cases hs : known r with
  | none =>
    rw [hnil]
    exact pure ()
  | some s =>
    have hsteps : M.compile.steps (.vertex s) = {} :=
      Machine.steps_compile_of_not_listed hT (hgone s hs)
    have hb : M.compile.beginEnter (.vertex s) = [] := congrArg ElementSteps.beginEnter hsteps
    have he : M.compile.endEnter (.vertex s) = [] := congrArg ElementSteps.endEnter hsteps
    show (Engine.enterElement M.compile (engine M M.compile n) (.vertex s) trigger true).Recalls
      _ _ _
    unfold Engine.enterElement
    rw [hb, he]
    exact nil.bind_quiet fun _ => nil

end Run.Recalls

namespace Machine

variable {M : Machine σ} {known : RegionId → Option VertexId} {trigger : Trigger}

/-- The entry of a region recalls what the entry of its last known state does, whichever way it was
compiled. -/
theorem enterRegion_recalls (hι : Instance.Retains M.topology ι) (hT : M.topology.Marked)
    {r : RegionId} (hr : r ∈ M.topology.regions) (hfull : M.topology.FullUnder known r)
    (hstate : ∀ s ∈ (M.topology.region r).vertices, known r = some s → M.topology.isState s →
      ∀ n, M.topology.vertexNodes.size ≤ s.index + n →
        ((engine (ι := ι) M M.compile n).performAll trigger true
          (M.compile.enter (.vertex s))).Recalls M.topology known (M.topology.OnRecord known r))
    {n : Nat} (hn : M.topology.vertexNodes.size ≤ (M.topology.region r).parent.index + n) :
    ((engine (ι := ι) M M.compile n).performAll trigger true
      (M.compile.enter (.region r))).Recalls M.topology known (M.topology.OnRecord known r) := by
  obtain ⟨hu, hru⟩ := hT.owner_of_mem_regions hr
  have hlt := hT.lt_size_of_mem_vertices hu
  obtain ⟨m, rfl⟩ : ∃ m, n = m + 1 := ⟨n - 1, by omega⟩
  rw [Program.enter, beginEnter_region hT.toWellFormed hr, endEnter_region hT.toWellFormed hr]
  refine .cons_quiet (.enter hι m _) ?_
  unfold regionEntry
  by_cases hnil : (M.topology.region r).vertices = []
  · have hnone : M.topology.regionInitial r = none := by
      cases hi : M.topology.regionInitial r with
      | none => rfl
      | some v => exact absurd (hnil ▸ Topology.regionInitial_mem hi) List.not_mem_nil
    rw [hnone]
    refine (Run.Recalls.single (.emptyRegion hT.toWellFormed m hnil
      (hfull.gone_of_nil r (.self r) hnil))).congr fun q => ?_
    exact iff_of_false id (Topology.onRecord_of_nil hnil q)
  · obtain ⟨s, hmem, hs, hss⟩ := hfull.exists_mem hT hnil
    have hbelow : ∀ v ∈ (M.topology.region r).vertices,
        (M.topology.region r).parent.index < v.index := fun v hv =>
      (hT.parent_lt v r (hT.mem_vertices r v hv).2).2
    have henter := hstate s hmem hs hss m (by have := hbelow s hmem; omega)
    have hdynamic : ∀ initial, ((engine (ι := ι) M M.compile (m + 1)).performAll trigger true
        [.enterRegion r initial]).Recalls M.topology known (M.topology.OnRecord known r) :=
      fun initial => .single (.enterRegion m hs (.inl rfl) henter)
    cases hi : M.topology.regionInitial r with
    | none => exact hdynamic none
    | some v =>
      dsimp only
      split
      · have hv := Topology.regionInitial_mem hi
        rcases Topology.regionInitial_cases hi with ⟨k, hk, hinitial⟩ | honly
        · have hsize := hT.lt_size_of_mem_vertices (hT.mem_vertices_of_region hr hmem)
          obtain ⟨l, rfl⟩ : ∃ l, m = l + 1 := ⟨m - 1, by have := hbelow s hmem; omega⟩
          exact .enterPseudo hι hT.toWellFormed l hs (hT.mem_vertices_of_region hr hv)
            (Topology.kind_of_pseudoKind? hk) hinitial (hT.mem_vertices r v hv).2 ⟨.self r, hnil⟩
            henter
        · rw [honly, List.mem_singleton] at hmem
          subst hmem
          exact hstate s hv hs hss (m + 1) (by have := hbelow s hv; omega)
      · exact hdynamic _

/-- Entering a last known state recalls what is known of its region and of all below. -/
theorem enterState_recalls (hι : Instance.Retains M.topology ι) (hT : M.topology.Marked) :
    ∀ s ∈ M.topology.vertices, ∀ r, s ∈ (M.topology.region r).vertices → known r = some s →
      M.topology.isState s → M.topology.FullUnder known r →
      ∀ n, M.topology.vertexNodes.size ≤ s.index + n →
        ((engine (ι := ι) M M.compile n).performAll trigger true
          (M.compile.enter (.vertex s))).Recalls M.topology known
            (M.topology.OnRecord known r) := by
  refine hT.owned_induction fun s hv ih r hmem hs hstate hfull n hn => ?_
  have hlt := hT.lt_size_of_mem_vertices hv
  obtain ⟨m, rfl⟩ : ∃ m, n = m + 1 := ⟨n - 1, by omega⟩
  refine (Run.Recalls.enterState hι m hs hT.toWellFormed hv hstate (hT.mem_vertices r s hmem).2
    (C := M.topology.OnRecord known) fun a ha => ?_).congr fun q =>
      (Topology.onRecord_iff hs hmem q).symm
  have hbelow := hfull.below hs hmem ha
  have hparent := (hT.mem_regions s a ha).2
  exact enterRegion_recalls hι hT (Topology.mem_regions.2 ⟨s, hv, ha⟩) hbelow
    (fun w hw hw' hwstate => ih a ha w hw a hw hw' hwstate hbelow) (hparent ▸ hn)

/-- The ends of entry that go by way of a deep history: its own, and that of the region that it is
the entry point of. -/
def DeepEntry (M : Machine σ) (r : RegionId) (h : VertexId) (steps : List (Step σ)) : Prop :=
  steps = M.compile.endEnter (.vertex h) ∨
    M.topology.regionInitial r = some h ∧ steps = M.compile.endEnter (.region r)

theorem deepEntry_recalls (hι : Instance.Retains M.topology ι) (hT : M.topology.Marked)
    {r : RegionId} (hr : r ∈ M.topology.regions) {h : VertexId}
    (hh : h ∈ (M.topology.region r).vertices) (hk : M.topology.kind h = .pseudo .deepHistory)
    (hfull : M.topology.FullUnder known r) {steps : List (Step σ)} (hsteps : M.DeepEntry r h steps)
    {n : Nat} (hn : M.topology.vertexNodes.size ≤ n) (deep : Bool) :
    ((engine (ι := ι) M M.compile n).performAll trigger deep steps).Recalls M.topology known
      (M.topology.OnRecord known r) := by
  obtain ⟨s, hmem, hs, hstate⟩ := hfull.exists_mem hT (List.ne_nil_of_mem hh)
  have hv := hT.mem_vertices_of_region hr hmem
  have hlt := hT.lt_size_of_mem_vertices hv
  have hbelow := (hT.parent_lt s r (hT.mem_vertices r s hmem).2).2
  obtain ⟨m, rfl⟩ : ∃ m, n = m + 2 := ⟨n - 2, by omega⟩
  have henter : ((engine (ι := ι) M M.compile (m + 1)).performAll trigger true
      (M.compile.enter (.vertex s))).Recalls M.topology known (M.topology.OnRecord known r) :=
    enterState_recalls hι hT s hv r hmem hs hstate hfull (m + 1) (by omega)
  rcases hsteps with rfl | ⟨hi, rfl⟩
  · rw [endEnter_pseudo hT.toWellFormed (hT.mem_vertices_of_region hr hh) hk, if_pos (by decide)]
    exact .single (.resume hι m hs hT.toWellFormed (hT.mem_vertices_of_region hr hh) hk
      (hT.mem_vertices r h hh).2 (.inr rfl) henter)
  · have hpseudo := Topology.pseudoKind?_eq hk
    have hentry : M.regionEntry M.compile r = [.enterRegion r (some h)] := by
      unfold regionEntry
      rw [hi]
      simp [Topology.isHistory, hpseudo, PseudoKind.isHistory]
    rw [endEnter_region hT.toWellFormed hr, hentry]
    exact .single (.enterRegion (m + 1) hs (.inr hpseudo) henter)

/-- Unless an action fails, everything that is known under `r` is current again. -/
def Restores (M : Machine σ) (r : RegionId) (x : Run σ ι Unit) : Prop :=
  ∀ s, M.topology.FullUnder (fun q => Instance.lastKnown M.topology q s.inst) r →
    (∀ message, (x s).1 ≠ .failed (.action message)) → (x s).1 = .value () ∧
      s.Recalls M.topology
        (M.topology.OnRecord (fun q => Instance.lastKnown M.topology q s.inst) r) (x s).2

theorem restores_of_recalls {r : RegionId} {x : Run σ ι Unit}
    (h : ∀ known, M.topology.FullUnder known r →
      x.Recalls M.topology known (M.topology.OnRecord known r)) : M.Restores r x := by
  intro s hfull hact
  obtain ⟨message, hfail⟩ | ⟨⟨⟩, hvalue, h⟩ := h _ hfull s fun _ => rfl
  · exact absurd hfail (hact message)
  · exact ⟨hvalue, h⟩

end Machine

end

/-- A deep history restores everything that is recorded under its region, in tables and in trees. -/
theorem deepHistory_restores {M : Machine σ} {allowed : Edit σ → Prop} (hM : M.Reachable allowed)
    {r : RegionId} (hr : r ∈ M.topology.regions) {h : VertexId}
    (hh : h ∈ (M.topology.region r).vertices) (hk : M.topology.kind h = .pseudo .deepHistory)
    {steps : List (Step σ)} (hsteps : M.DeepEntry r h steps) {n : Nat}
    (hn : M.topology.vertexNodes.size ≤ n) (trigger : Trigger) (deep : Bool) :
    M.Restores r ((engine (ι := TableInstance) M M.compile n).performAll trigger deep steps) ∧
      M.Restores r ((engine (ι := TreeInstance) M M.compile n).performAll trigger deep steps) :=
  ⟨Machine.restores_of_recalls fun _ hfull => Machine.deepEntry_recalls
      (TableInstance.retains _) hM.marked hr hh hk hfull hsteps hn deep,
    Machine.restores_of_recalls fun _ hfull => Machine.deepEntry_recalls
      (TreeInstance.retains _) hM.marked hr hh hk hfull hsteps hn deep⟩

/-- A deep history above a plain, a shallow and a bare region, two of them in one state. -/
def layered : Machine Nat := .build "m" {} [
  .addVertex "p" (.state ⟨0⟩) .state,
  .addVertex "s" (.state ⟨1⟩) .state, .addVertex "h" (.state ⟨1⟩) (.pseudo .deepHistory),
  .addRegion "a" ⟨2⟩, .addRegion "b" ⟨2⟩,
  .addVertex "i" (.region ⟨2⟩) (.pseudo .initial), .addVertex "x" (.region ⟨2⟩) .state,
  .addVertex "k" (.region ⟨3⟩) (.pseudo .shallowHistory), .addVertex "y" (.region ⟨3⟩) .state,
  .addVertex "z" (.state ⟨7⟩) .state, .addVertex "w" (.state ⟨7⟩) .state,
  .modifyState ⟨9⟩ fun b => { b with entry := [fun _ env => { env := env + 1 }] }]

/-- Each region was left in a state, and pseudostates became current in some of them since. -/
def visited [Instance ι] (i : ι) : ι :=
  ([(0, 1), (1, 2), (2, 5), (3, 7), (4, 9), (1, 3), (2, 4), (3, 6)] : List (Nat × Nat)).foldl
    (fun i (r, v) => Instance.setCurrent layered.topology ⟨r⟩ ⟨v⟩ i) i

theorem layered_restores :
    let i : TableInstance := visited ⟨"i", {}, {}, false⟩
    let j := TreeInstance.restore "j" (visited ({ name := "j" } : TreeInstance)).snapshot
    let s : Session Nat TableInstance := ⟨0, i, .first, []⟩
    let t : Session Nat TreeInstance := ⟨0, j, .first, []⟩
    let own := (engine layered layered.compile 10).performAll (.message "back") false
      (layered.compile.endEnter (.vertex ⟨3⟩)) s
    let entry := (engine layered layered.compile 10).performAll .initialise true
      (layered.compile.endEnter (.region ⟨1⟩)) t
    own.1 = .value () ∧ s.Recalls layered.topology (layered.topology.OnRecord
        (fun q => Instance.lastKnown layered.topology q i) ⟨1⟩) own.2 ∧
      own.2.inst.current.get? ⟨4⟩ = some ⟨9⟩ ∧ own.2.env = 1 ∧
    entry.1 = .value () ∧ t.Recalls layered.topology (layered.topology.OnRecord
        (fun q => Instance.lastKnown layered.topology q j) ⟨1⟩) entry.2 ∧
      entry.2.inst.current.get? ⟨2⟩ = some ⟨5⟩ := by
  intro i j s t own entry
  have hM : layered.Reachable fun _ => True := .build (by decide +kernel) fun _ _ => trivial
  have hr : ⟨1⟩ ∈ layered.topology.regions := by decide +kernel
  have hi : layered.topology.FullUnder (fun q => Instance.lastKnown layered.topology q i) ⟨1⟩ :=
    .of_regions hM.wellFormed hr (by decide +kernel)
  have hj : layered.topology.FullUnder (fun q => Instance.lastKnown layered.topology q j) ⟨1⟩ :=
    .of_regions hM.wellFormed hr (by decide +kernel)
  have hown : own.1 = .value () := by decide +kernel
  have hentry : entry.1 = .value () := by decide +kernel
  have hs := (deepHistory_restores hM hr (h := ⟨3⟩) (by decide +kernel) (by decide +kernel)
    (.inl rfl) (n := 10) (by decide +kernel) (.message "back") false).1 s hi
    fun _ h => nomatch hown.symm.trans h
  have ht := (deepHistory_restores hM hr (h := ⟨3⟩) (by decide +kernel) (by decide +kernel)
    (.inr ⟨by decide +kernel, rfl⟩) (n := 10) (by decide +kernel) .initialise true).2 t hj
    fun _ h => nomatch hentry.symm.trans h
  exact ⟨hs.1, hs.2, by decide +kernel, by decide +kernel, ht.1, ht.2, by decide +kernel⟩

/-! ## Where regions lost their vertices -/

/-- The regions that are reached from `r` by last known states, wherever those are. -/
inductive Topology.Followed (T : Topology) (known : RegionId → Option VertexId) :
    RegionId → RegionId → Prop
  | self (r : RegionId) : Followed T known r r
  | step {r a q : RegionId} {s : VertexId} : known r = some s → a ∈ (T.vertex s).regions →
    Followed T known a q → Followed T known r q

theorem Topology.knowsOwn_of_lt {T : Topology} {known : RegionId → Option VertexId}
    (h : ∀ k < T.regionNodes.size, (T.region ⟨k⟩).vertices ≠ [] → T.KnowsOwn known ⟨k⟩)
    {q : RegionId} (hne : (T.region q).vertices ≠ []) : T.KnowsOwn known q := by
  refine h q.index ?_ hne
  by_contra hlt
  rw [region, Array.getElem?_eq_none (Nat.not_lt.1 hlt)] at hne
  exact hne rfl

/-- The end of the entry of `h`, from a session with the instance. -/
def Machine.goBack (M : Machine Unit) (h : VertexId) (i : TableInstance) :
    Result Unit × Session Unit TableInstance :=
  (engine M M.compile 30).performAll (.message "back") false (M.compile.endEnter (.vertex h))
    ⟨(), i, .first, []⟩

/-- Going back by `h` restores what is known of every region that can be reached from `r`, if each
of them that has vertices knows a state of its own: whether or not `r` is in the model, and whatever
is known of those without vertices. -/
def Machine.RestoresFollowed (M : Machine Unit) (r : RegionId) (h : VertexId) (i : TableInstance) :
    Prop :=
  (∀ q, M.topology.Followed i.lastKnown.get? r q → (M.topology.region q).vertices ≠ [] →
    M.topology.KnowsOwn i.lastKnown.get? q) →
  (∀ q, (M.goBack h i).2.inst.lastKnown.get? q = i.lastKnown.get? q) ∧
    (∀ q, M.topology.Followed i.lastKnown.get? r q →
      (M.goBack h i).2.inst.current.get? q = i.lastKnown.get? q) ∧
    ∀ t, .traversed t ∉ (M.goBack h i).2.trail

/-- A state with a deep history over a state with a region whose only vertex is a choice, and a
state beside it. -/
def hollow : Machine Unit := .build "m" {} [
  .addVertex "o" (.state ⟨0⟩) (.pseudo .initial), .addVertex "p" (.state ⟨0⟩) .state,
  .addVertex "t" (.state ⟨0⟩) .state, .addRegion "r" ⟨2⟩,
  .addVertex "h" (.region ⟨1⟩) (.pseudo .deepHistory),
  .addVertex "i" (.region ⟨1⟩) (.pseudo .initial), .addVertex "s" (.region ⟨1⟩) .state,
  .addRegion "q" ⟨6⟩, .addVertex "c" (.region ⟨2⟩) (.pseudo .choice),
  .addTransition ⟨1⟩ (some ⟨2⟩), .addTransition ⟨5⟩ (some ⟨6⟩), .addTransition ⟨2⟩ (some ⟨3⟩),
  .addTransition ⟨3⟩ (some ⟨4⟩),
  .modifyTransition ⟨2⟩ fun t => { t with guard := .on "go" },
  .modifyTransition ⟨3⟩ fun t => { t with guard := .on "back" }]

/-- The same without the choice. -/
def hollowed : Machine Unit :=
  (Edit.removeVertex ⟨7⟩).apply hollow

/-- A deep history and a state in a region that was removed before. -/
def relaid : Machine Unit := .build "m" {} [
  .addVertex "o" (.state ⟨0⟩) .state, .addVertex "p" (.state ⟨0⟩) .state, .addRegion "r" ⟨2⟩,
  .removeRegion ⟨1⟩, .addVertex "h" (.region ⟨1⟩) (.pseudo .deepHistory),
  .addVertex "s" (.region ⟨1⟩) .state, .addTransition ⟨1⟩ (some ⟨3⟩),
  .modifyTransition ⟨0⟩ fun t => { t with guard := .on "go" }]

/-- What is current in the region without vertices stays so, as nothing is known of it; where the
state beside is known of it, that state is entered; and a removed region is not entered at all. -/
theorem deepHistory_forgets :
    let i := (hollow.start 30 () (⟨"i", {}, {}, false⟩ : TableInstance)).inst
    let left := (hollowed.evaluate 30 () i "go").inst
    let foreign := i.setCurrent hollowed.topology ⟨2⟩ ⟨3⟩
    let late := ([(⟨0⟩, ⟨1⟩), (⟨1⟩, ⟨4⟩), (⟨1⟩, ⟨3⟩)] : List (RegionId × VertexId)).foldl
      (fun i (r, v) => i.setCurrent relaid.topology r v) (⟨"i", {}, {}, false⟩ : TableInstance)
    (hollowed.Reachable (fun _ => True) ∧ ⟨4⟩ ∈ (hollowed.topology.region ⟨1⟩).vertices ∧
      hollowed.topology.kind ⟨4⟩ = .pseudo .deepHistory) ∧
    ((hollowed.goBack ⟨4⟩ left).1 = .value () ∧ ¬hollowed.RestoresFollowed ⟨1⟩ ⟨4⟩ left) ∧
    ((hollowed.goBack ⟨4⟩ foreign).1 = .value () ∧
      ¬hollowed.RestoresFollowed ⟨1⟩ ⟨4⟩ foreign) ∧
    (relaid.Reachable (fun _ => True) ∧ ⟨3⟩ ∈ (relaid.topology.region ⟨1⟩).vertices ∧
      relaid.topology.kind ⟨3⟩ = .pseudo .deepHistory) ∧
    (relaid.goBack ⟨3⟩ late).1 = .value () ∧ ¬relaid.RestoresFollowed ⟨1⟩ ⟨3⟩ late := by
  intro i left foreign late
  refine ⟨⟨.edit (.build (by decide +kernel) fun _ _ => trivial) (by decide +kernel) trivial,
    by decide +kernel, by decide +kernel⟩, ⟨by decide +kernel, fun h => ?hollowed⟩,
    ⟨by decide +kernel, fun h => ?foreign⟩, ⟨.build (by decide +kernel) fun _ _ => trivial,
    by decide +kernel, by decide +kernel⟩, by decide +kernel, fun h => ?late⟩
  case hollowed =>
    obtain ⟨-, hcurrent, -⟩ := h fun q _ hne => Topology.knowsOwn_of_lt (by decide +kernel) hne
    have hfollowed : hollowed.topology.Followed left.lastKnown.get? ⟨1⟩ ⟨2⟩ :=
      .step (s := ⟨6⟩) (by decide +kernel) (by decide +kernel) (.self _)
    exact absurd (hcurrent ⟨2⟩ hfollowed) (by decide +kernel)
  case foreign =>
    obtain ⟨hknown, -, -⟩ := h fun q _ hne => Topology.knowsOwn_of_lt (by decide +kernel) hne
    exact absurd (hknown ⟨0⟩) (by decide +kernel)
  case late =>
    obtain ⟨-, hcurrent, -⟩ := h fun q _ hne => Topology.knowsOwn_of_lt (by decide +kernel) hne
    exact absurd (hcurrent ⟨1⟩ (.self _)) (by decide +kernel)

end Hsm
