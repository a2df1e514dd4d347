import Hsm.Proofs.Engine.Standing
import Hsm.Proofs.Program.Split

/-!
# Entering what has been left

The operations of the engine that leave let everything cease to stand that they are about
(`Run.Tidies.leave`), and those that enter are about regions that are vacant and leave the entered
vertex alone in its region. From there a transition may be taken that does not deviate: it leaves
what stands in the region that it enters (`Run.Tidies.external`). What is entered in one region lets
nothing stand in the others (`Session.Outside`), so regions that are entered in turn find each other
as they were, and all operations keep sessions tidy (`engine_vacates`).
-/

namespace Hsm

variable {σ ι : Type} [Instance ι]

/-- The run leaves sessions tidy, and leads from `p` to `q` as long as no transition deviates. -/
abbrev Run.Tidies (T : Topology) (J : ι → Prop) (i₀ : ι) (p : Session σ ι → Prop) {α : Type}
    (x : Run σ ι α) (q : Session σ ι → Prop) : Prop :=
  Run.Spec (Session.Tidy T J i₀) (Session.Unless T p) x fun _ => Session.Unless T q

namespace Session

variable {T : Topology} {J : ι → Prop} {i₀ : ι} {p q : Session σ ι → Prop} {s s' : Session σ ι}

theorem Unless.mono (h : s.Unless T p) (hs : s.Tidy T J i₀)
    (hpq : J s.inst → s.Tracks T i₀ → p s → q s) : s.Unless T q :=
  hs.tracks.elim .inl fun ht => h.imp id (hpq hs.lawful ht)

/-- What happens within the region leaves the property as it is. -/
def Outside (T : Topology) (r : RegionId) (p : Session σ ι → Prop) : Prop :=
  ∀ s s', s.Remains T r s' → p s → p s'

namespace Outside

variable {r : RegionId}

theorem and (hp : Outside T r p) (hq : Outside T r q) : Outside T r fun s => p s ∧ q s :=
  fun s s' h hpq => ⟨hp s s' h hpq.1, hq s s' h hpq.2⟩

variable (hT : T.WellFormed)
include hT

theorem isActive {v : VertexId} (hv : v ∈ T.vertices) (hout : ¬T.Along v r) :
    Outside T r fun s : Session σ ι => Instance.isActive T s.inst v :=
  fun _ _ h hactive => (h.2.isActive hT hv hout).2 hactive

omit hT in
/-- Which states stand in another region. -/
theorem standing {q : RegionId} (hout : ∀ u, (T.vertex u).parent = some q → ¬T.Along u r)
    {c : VertexId → Prop} : Outside T r fun s : Session σ ι =>
      ∀ u ∈ s.standing T i₀, (T.vertex u).parent = some q → c u := by
  rintro s s' ⟨⟨es, ht, hes⟩, -⟩ h u hu hq
  exact h u (Instance.mem_standing_of_within hes s.trail (hout u hq) (ht ▸ hu)) hq

end Outside

/-- What holds while some regions of a vertex are still to be left. -/
def Emptying (T : Topology) (i₀ : ι) (v : VertexId) (p : Session σ ι → Prop) (rest : List RegionId)
    (s : Session σ ι) : Prop :=
  p s ∧ ∀ r, r ∈ (T.vertex v).regions ∧ r ∉ rest → Instance.Vacant T i₀ s.trail r

theorem Fading.emptying {v : VertexId} (hp : Fading T i₀ p) (rest : List RegionId) :
    Fading T i₀ (Emptying T i₀ v p rest) :=
  hp.and (.all fun r => .vacant r)

end Session

open Session

namespace Run.Tidies

section

variable {T : Topology} {J : ι → Prop} {i₀ : ι} {p p' q q' : Session σ ι → Prop} {α β : Type}
  {x : Run σ ι α}

theorem conseq (h : x.Tidies T J i₀ p' q') (hp : ∀ s, J s.inst → s.Tracks T i₀ → p s → p' s)
    (hq : ∀ s, J s.inst → s.Tracks T i₀ → q' s → q s) : x.Tidies T J i₀ p q :=
  Spec.conseq h (fun s hs h => h.mono hs (hp s)) fun _ s hs h => h.mono hs (hq s)

theorem pre (h : x.Tidies T J i₀ p' q) (hp : ∀ s, J s.inst → s.Tracks T i₀ → p s → p' s) :
    x.Tidies T J i₀ p q :=
  h.conseq hp fun _ _ _ h => h

theorem post (h : x.Tidies T J i₀ p q') (hq : ∀ s, J s.inst → s.Tracks T i₀ → q' s → q s) :
    x.Tidies T J i₀ p q :=
  h.conseq (fun _ _ _ h => h) hq

theorem nothing {e : Engine σ ι} {trigger : Trigger} {deep : Bool}
    (h : ∀ s, J s.inst → s.Tracks T i₀ → p s → q s) :
    (e.performAll trigger deep []).Tidies T J i₀ p q :=
  Spec.pure fun s hs hp => hp.mono hs (h s)

variable (hJ : Instance.Seats T J)
include hJ

theorem plain (hx : x.Adds T Event.Plain) (hp : Fading T i₀ p) : x.Tidies T J i₀ p p :=
  fun s hs h => ⟨hs.plain hJ (hx s), fun _ _ => h.leads hJ hp (hx s)⟩

end

/-- After a transition has deviated. -/
theorem deviated {T : Topology} {J : ι → Prop} {i₀ : ι} {α : Type} {x : Run σ ι α}
    (hx : x.Tame T J) : Spec (Tidy T J i₀) (Deviated T) x fun _ => Deviated T := fun s hs h => by
  obtain ⟨es, ht, -, -⟩ := hx.2 s
  exact ⟨hs.after_deviation h ht (hx.1 s hs.lawful), fun _ _ => h.grow _ ht⟩

/-- What may be assumed of the region that the vertex is in. -/
theorem of_parent {T : Topology} {J : ι → Prop} {i₀ : ι} {α : Type} {x : Run σ ι α}
    {q : Session σ ι → Prop} (hx : x.Tame T J) {v : VertexId} {p : RegionId → Session σ ι → Prop}
    (h : ∀ r, (T.vertex v).parent = some r → x.Tidies T J i₀ (p r) q) :
    x.Tidies T J i₀ (fun s => ∃ r, (T.vertex v).parent = some r ∧ p r s) q := by
  rintro s hs (hdeviated | ⟨r, hr, hp⟩)
  · have h := deviated hx s hs hdeviated
    exact ⟨h.1, fun a ha => .inl (h.2 a ha)⟩
  · exact h r hr s hs (.inr hp)

/-- What is done about a region that is clear does not concern what rests on the outside of it. -/
theorem frame {T : Topology} {J : ι → Prop} {i₀ : ι} {α : Type} {x : Run σ ι α}
    {p : Session σ ι → Prop} {r : RegionId} (hT : T.WellFormed) (htame : x.Tame T J)
    (hx : ∀ s₀ : Session σ ι, Instance.isActive T s₀.inst (T.region r).parent → x.Stays T r J s₀)
    (h : x.Tidies T J i₀ (Clear T i₀ r) fun _ => True) (hp : Outside T r p) :
    x.Tidies T J i₀ (fun s => p s ∧ Clear T i₀ r s) p := by
  rintro s hs (hdeviated | ⟨hps, hclear⟩)
  · have h := deviated htame s hs hdeviated
    exact ⟨h.1, fun a ha => .inl (h.2 a ha)⟩
  · refine ⟨(h s hs (.inr hclear)).1, fun _ _ => ?_⟩
    rcases (hx s hclear.1 s (.refl hs.lawful) trivial).1.2 with ⟨es, ht, t, hmem, hout⟩ | hremains
    · exact .inl ⟨t, ht ▸ List.mem_append_left _ hmem, hT.deviates_of_escapes hout⟩
    · exact .inr (hp s _ hremains hps)

end Run.Tidies

/-! ## Telling and leaving -/

/-- Steps that change nothing of which states stand. -/
def Step.Tells : Step σ → Prop
  | .enter _ | .leave (.region _) | .behavior _ | .terminate => True
  | _ => False

theorem engine_perform_plain {M : Machine σ} (step : Step σ) (hs : step.Tells) (trigger : Trigger)
    (deep : Bool) : ∀ n, ((engine (ι := ι) M M.compile n).perform step trigger deep).Adds M.topology
      Event.Plain
  | 0 => fun s => .refl s
  | n + 1 => by
    have hannounce := fun verb e => (Run.Adds.announce (ι := ι) (M := M) verb e).mono
      Event.plain_of_mute
    cases step with
    | enter e => exact (Run.Adds.note (e := .entered e) trivial trivial).bind fun _ => hannounce _ e
    | leave e =>
      cases e with
      | region r =>
        exact (Run.Adds.note (e := .left (.region r)) trivial trivial).bind fun _ => hannounce _ _
      | vertex v => exact hs.elim
    | behavior a => exact Run.Adds.act (fun _ _ => trivial) a trigger
    | terminate => exact fun _ => .one (e := .terminated) trivial rfl rfl
    | _ => exact hs.elim

namespace Run.Tidies

variable {M : Machine σ} {J : ι → Prop} {i₀ : ι} {n : Nat} {p : Session σ ι → Prop}
  {trigger : Trigger} {deep : Bool} (hT : M.topology.WellFormed)
  (hJ : Instance.Seats M.topology J)

section

include hJ

theorem tells {steps : List (Step σ)} (hs : ∀ step ∈ steps, step.Tells)
    (hp : Fading M.topology i₀ p) : ((engine M M.compile n).performAll trigger deep steps).Tidies
      M.topology J i₀ p p :=
  plain hJ (Run.Adds.performAll fun step h => engine_perform_plain step (hs step h) _ _ n) hp

theorem behaviors {as : List (Action σ)} (hp : Fading M.topology i₀ p) :
    ((engine M M.compile n).performAll trigger deep (as.map Step.behavior)).Tidies
      M.topology J i₀ p p :=
  tells hJ (fun step hs => by obtain ⟨a, -, rfl⟩ := List.mem_map.1 hs; trivial) hp

end

include hT hJ

theorem performLeave {v : VertexId} (hp : Fading M.topology i₀ p) :
    ((engine M M.compile n).perform (.leave (.vertex v)) trigger deep).Tidies M.topology J i₀
      (fun s => p s ∧ ∀ r ∈ (M.topology.vertex v).regions,
        Instance.Vacant M.topology i₀ s.trail r)
      fun s => p s ∧ s.Gone M.topology i₀ v := by
  cases n with
  | zero => exact .exhausted
  | succ n =>
    refine Spec.bind (r := fun _ => Unless M.topology fun s => p s ∧ s.Gone M.topology i₀ v)
      (fun s hs h => ?_) fun _ => plain hJ ((Run.Adds.announce _ _).mono Event.plain_of_mute)
        (hp.and (.gone v))
    obtain ⟨htidy, hfades, hgone⟩ := hs.left hT
      { s with trail := .left (.vertex v) :: s.trail } (h.imp id And.right) rfl rfl
    exact ⟨htidy, fun _ _ => hgone.elim .inl fun hgone => h.imp (·.grow [_] rfl) fun h =>
      ⟨hp _ _ hfades h.1, hgone⟩⟩

omit hT hJ in
/-- What stands in a region is current there. -/
theorem leaveCurrent {r : RegionId} (hp : Fading M.topology i₀ p)
    (hleave : ∀ (v : VertexId) {p : Session σ ι → Prop}, Fading M.topology i₀ p →
      ((engine M M.compile n).performAll trigger false (M.compile.leave (.vertex v))).Tidies
        M.topology J i₀ p fun s => p s ∧ s.Gone M.topology i₀ v) :
    (Engine.leaveCurrent M M.compile (engine M M.compile n) r trigger).Tidies M.topology J i₀ p
      fun s => p s ∧ Instance.Vacant M.topology i₀ s.trail r := by
  refine Spec.read.bind fun known => ?_
  cases known with
  | none =>
    refine Spec.pure fun s hs h => h.1.mono hs fun _ ht hp => ⟨hp, fun u hu hr => ?_⟩
    exact nomatch h.2.trans (ht.shown u hu r hr).1
  | some w =>
    refine Spec.pre ((hleave w (hp.and (.current r (some w)))).post fun s _ ht h => ?_)
      fun s hs h => h.1.imp id fun hp => ⟨hp, h.2.symm⟩
    obtain ⟨⟨hp, hw⟩, hgone⟩ := h
    refine ⟨hp, fun u hu hr => hgone u hu ?_⟩
    obtain rfl := Option.some.inj (hw.symm.trans (ht.shown u hu r hr).1)
    exact Topology.mem_vertexAncestry_self w

/-- Leaving a vertex leaves all that stands at or beneath it. -/
theorem leave : ∀ (n : Nat) (v : VertexId) (trigger : Trigger) (deep : Bool)
    {p : Session σ ι → Prop}, Fading M.topology i₀ p →
      ((engine M M.compile n).performAll trigger deep (M.compile.leave (.vertex v))).Tidies
        M.topology J i₀ p fun s => p s ∧ s.Gone M.topology i₀ v := by
  intro n v trigger deep p hp
  by_cases hv : v ∈ M.topology.vertices
  swap
  · rw [Program.leave, Machine.steps_compile_of_not_listed (e := .vertex v) hT hv]
    exact .nothing fun s _ ht h => ⟨h, fun u hu hvu =>
      hv (hT.mem_vertices_of_mem_vertexAncestry (ht.listed u hu).1 hvu)⟩
  rw [Machine.leave_vertex hT hv]
  have hregions : ((engine M M.compile n).performAll trigger deep
      ((M.topology.vertex v).regions.flatMap fun r => M.compile.leave (.region r))).Tidies
        M.topology J i₀ (Emptying M.topology i₀ v p (M.topology.vertex v).regions)
          (Emptying M.topology i₀ v p []) := by
    refine Spec.flatMap (p := fun rest => Unless M.topology (Emptying M.topology i₀ v p rest))
      fun r hr rest => ?_
    rw [Machine.leave_region hT (Topology.mem_regions.2 ⟨v, hv, hr⟩)]
    refine .cons (r := Unless M.topology (Emptying M.topology i₀ v p rest)) ?_
      (tells hJ (fun step hs => List.mem_singleton.1 hs ▸ trivial) (hp.emptying rest))
    cases n with
    | zero => exact .exhausted
    | succ n =>
      refine post (leaveCurrent (hp.emptying (r :: rest)) fun w p hp =>
        leave n w trigger false hp) fun s _ _ h => ⟨h.1.1, fun q hq => ?_⟩
      by_cases he : q = r
      · exact he ▸ h.2
      · exact h.1.2 q ⟨hq.1, fun hm => (List.mem_cons.1 hm).elim he hq.2⟩
  refine .append (pre hregions fun _ _ _ h => ⟨h, fun r hr => absurd hr.1 hr.2⟩) (.cons
    (pre (performLeave hT hJ hp) fun _ _ _ h => ⟨h.1, fun r hr => h.2 r ⟨hr, List.not_mem_nil⟩⟩)
    (behaviors hJ (hp.and (.gone v))))

end Run.Tidies

/-! ## Entering -/

namespace Session

variable (T : Topology) (i₀ : ι)

/-- The vertex is in a region that is clear. -/
def Ready (v : VertexId) (s : Session σ ι) : Prop :=
  ∃ r, (T.vertex v).parent = some r ∧ s.Clear T i₀ r

/-- The vertex has been entered. From an initial or history pseudostate entries go on, so nothing is
said of what stands in its region then. -/
def Reached (v : VertexId) (s : Session σ ι) : Prop :=
  ¬(T.pseudoKind? v).any PseudoKind.isInitial → s.Alone T i₀ v

/-- What holds before the end of the entry of an element. -/
def Opened : Element → Session σ ι → Prop
  | .region r => Clear T i₀ r
  | .vertex v => Begun T i₀ v

/-- What holds after it. -/
def Closed : Element → Session σ ι → Prop
  | .region _ => fun _ => True
  | .vertex v => Reached T i₀ v

/-- What holds while some regions of a vertex are still to be entered. -/
def Pending (v : VertexId) (p : Session σ ι → Prop) (rest : List RegionId) (s : Session σ ι) :
    Prop :=
  (rest.Nodup ∧ rest ⊆ (T.vertex v).regions) ∧ p s ∧ ∀ r ∈ rest, s.Clear T i₀ r

variable {T i₀} {r q : RegionId} {v : VertexId}

theorem Fading.pending {p : Session σ ι → Prop} {rest : List RegionId} (hp : Fading T i₀ p) :
    Fading T i₀ (Pending T i₀ v p rest) :=
  fun s s' h hs => ⟨hs.1, hp s s' h hs.2.1, fun r hr => Fading.clear r s s' h (hs.2.2 r hr)⟩

theorem Fading.ready (v : VertexId) : Fading T i₀ (Ready (σ := σ) T i₀ v) :=
  fun s s' h ⟨r, hr, hclear⟩ => ⟨r, hr, Fading.clear r s s' h hclear⟩

theorem Fading.reached (v : VertexId) : Fading T i₀ (Reached (σ := σ) T i₀ v) :=
  fun s s' h hr hk => Fading.alone v s s' h (hr hk)

/-- What is alone in its region is so with all around it. -/
theorem Tracks.alone_of_mem {s : Session σ ι} (hT : T.WellFormed) (ht : s.Tracks T i₀)
    (h : s.Alone T i₀ v) {a : VertexId} (ha : a ∈ T.vertexAncestry v)
    (hq : (T.vertex a).parent = some q) : s.Alone T i₀ a := by
  obtain ⟨r, hr, hactive, halone⟩ := h
  rcases (hT.mem_vertexAncestry_of_parent hr).1 ha with rfl | ha
  · exact ⟨r, hr, hactive, halone⟩
  have haactive := Topology.isActiveIn_of_mem ha hactive
  have hqa := (hT.isActiveIn_of_parent hq).1 haactive
  refine ⟨q, hq, hqa.1, fun u hu huq => ?_⟩
  exact Option.some.inj ((ht.shown u hu q huq).2.symm.trans hqa.2)

theorem Pending.tail {p : Session σ ι → Prop} {rest : List RegionId} {s : Session σ ι}
    (h : s.Pending T i₀ v p (r :: rest)) : s.Pending T i₀ v p rest :=
  ⟨⟨(List.nodup_cons.1 h.1.1).2, (List.cons_subset.1 h.1.2).2⟩, h.2.1,
    fun q hq => h.2.2 q (List.mem_cons_of_mem _ hq)⟩

namespace Outside

variable (hT : T.WellFormed)
include hT

/-- The other regions of the owner are outside of a region. -/
theorem clear (hq : q ∈ T.regions) (h : (T.region q).parent = (T.region r).parent) (hne : q ≠ r) :
    Outside T r (Clear (σ := σ) T i₀ q) :=
  (isActive hT (hT.owner_of_mem_regions hq).1 (h ▸ hT.not_along_owner)).and <|
    standing (c := fun _ => False) fun _ hu hr =>
      hne (hT.eq_of_along (Topology.along_of_parent hu) hr h)

/-- A vertex is outside of its own regions. -/
theorem alone (hv : v ∈ T.vertices) (hr : r ∈ (T.vertex v).regions) :
    Outside T r (Alone (σ := σ) T i₀ v) := by
  rintro s s' h ⟨q, hq, hactive, halone⟩
  have howner := (hT.mem_regions v r hr).2
  have hqv := (hT.owner_of_mem_regions (hT.listed_of_parent hv hq).1).1
  refine ⟨q, hq, isActive hT hqv (fun hin => ?_) s s' h hactive, ?_⟩
  · exact Forest.not_mem_ancestors_of_parent (hT.parentState_eq hq)
      (howner ▸ (hT.mem_way_of_along hin).1) rfl
  · refine standing (fun u hu hin => ?_) s s' h halone
    obtain ⟨hmem, hne⟩ := howner ▸ hT.mem_way_of_along hin
    exact hne (hT.eq_of_mem_way hmem (Topology.mem_vertexAncestry_self u) hq hu rfl)

end Outside

end Session

/-- What the operations of the engine that enter lead to, and what has to hold before. -/
structure Machine.Vacates (M : Machine σ) (J : ι → Prop) (i₀ : ι) (n : Nat) : Prop where
  enterRegion : ∀ r ∈ M.topology.regions, ∀ trigger deep,
    ((engine M M.compile n).perform (.enterRegion r (M.topology.regionInitial r)) trigger
      deep).Tidies M.topology J i₀ (Clear M.topology i₀ r) fun _ => True
  resume : ∀ v ∈ M.topology.vertices, ¬M.topology.isState v → ∀ trigger deep,
    ((engine M M.compile n).perform (.resume v) trigger deep).Tidies M.topology J i₀
      (Alone M.topology i₀ v) fun _ => True
  completeInternal : ∀ v ∈ M.topology.vertices, ∀ trigger deep,
    ((engine M M.compile n).perform (.completeInternal v) trigger deep).Tidies M.topology J i₀
      (Alone M.topology i₀ v) fun _ => True
  traverseWithin : ∀ t, ∀ x ∈ (M.topology.transition t).target, x ∈ M.topology.vertices →
    ∀ trigger deep, ((engine M M.compile n).perform (.traverseWithin t) trigger deep).Tidies
      M.topology J i₀ (fun _ => True) (Reached M.topology i₀ x)
  offer : ∀ v ∈ M.topology.vertices,
    ((engine M M.compile n).offer v (.completion v)).Tidies M.topology J i₀
      (Alone M.topology i₀ v) fun _ => True
  fire : ∀ t ∈ M.topology.transitions, ∀ trigger,
    ((engine M M.compile n).fire t trigger).Tidies M.topology J i₀
      (Alone M.topology i₀ (M.topology.transition t).source) fun _ => True

namespace Run.Tidies

variable {M : Machine σ} {J : ι → Prop} {i₀ : ι} {n : Nat} {p : Session σ ι → Prop}
  {trigger : Trigger} {deep : Bool} {v : VertexId} {r : RegionId}

theorem performSetCurrent (hT : M.topology.WellFormed) (hJ : Instance.Seats M.topology J)
    (hv : M.topology.Holds r v) :
    ((engine M M.compile n).perform (.setCurrent r v) trigger deep).Tidies M.topology J i₀
      (Clear M.topology i₀ r) (Begun M.topology i₀ v) := by
  cases n with
  | zero => exact .exhausted
  | succ n =>
    intro s hs h
    obtain ⟨htidy, hbegun⟩ := hs.setCurrent hT hJ ⟨s.env,
      Instance.setCurrent M.topology r v s.inst, s.source, .setCurrent r v :: s.trail⟩ hv h rfl rfl
    exact ⟨htidy, fun _ _ => hbegun⟩

theorem beginEnter (hT : M.topology.WellFormed) (hJ : Instance.Seats M.topology J)
    (hv : M.topology.Holds r v) :
    ((engine M M.compile n).performAll trigger deep (M.compile.beginEnter (.vertex v))).Tidies
      M.topology J i₀ (Clear M.topology i₀ r) (Begun M.topology i₀ v) := by
  have henter : ((engine M M.compile n).performAll trigger deep
      (.enter (.vertex v) :: M.currentSteps v)).Tidies M.topology J i₀
        (Clear M.topology i₀ r) (Begun M.topology i₀ v) := by
    rw [Machine.currentSteps_of_parent hv.2]
    exact .cons (plain hJ (engine_perform_plain (.enter _) trivial _ _ n) (.clear r))
      (.single (performSetCurrent hT hJ hv))
  obtain ⟨rest, hrest, hend⟩ := Machine.exists_beginEnter_vertex hT hv.1
  rw [hrest]
  refine .append henter ?_
  rcases hend with ⟨as, rfl⟩ | rfl
  · exact behaviors hJ (.begun v)
  · exact tells hJ (fun step hs => List.mem_singleton.1 hs ▸ trivial) (.begun v)

variable (hT : M.topology.WellFormed) (hJ : Instance.Seats M.topology J)
  (hn : M.Vacates J i₀ n)
include hT hJ

/-- Steps that are about a region do not concern what rests on the outside of it. -/
theorem frame_steps (hr : r ∈ M.topology.regions) {steps : List (Step σ)}
    (hsteps : ∀ step ∈ steps, M.Fits step ∧ step.On M.topology (.region r))
    (h : ((engine M M.compile n).performAll trigger deep steps).Tidies M.topology J i₀
      (Clear M.topology i₀ r) fun _ => True) (hp : Outside M.topology r p) :
    ((engine M M.compile n).performAll trigger deep steps).Tidies M.topology J i₀
      (fun s => p s ∧ Clear M.topology i₀ r s) p := by
  refine frame hT (tame_performAll hJ.toLaws hT fun step hs => (hsteps step hs).1)
    (fun s₀ hactive => ?_) h hp
  exact Run.Stays.performAll (engine_confines s₀ hT hJ hactive (hT.owner_of_mem_regions hr).1 n)
    hsteps

/-- A region of a vertex is entered while others are still to be. -/
theorem enterNext {v : VertexId} {r : RegionId} {rest : List RegionId}
    (hv : v ∈ M.topology.vertices) (hr : r ∈ (M.topology.vertex v).regions)
    (h : ((engine M M.compile n).performAll trigger deep (M.compile.endEnter (.region r))).Tidies
      M.topology J i₀ (Clear M.topology i₀ r) fun _ => True)
    (hp : Outside M.topology r p) :
    ((engine M M.compile n).performAll trigger deep (M.compile.enter (.region r))).Tidies
      M.topology J i₀ (Pending M.topology i₀ v p (r :: rest)) (Pending M.topology i₀ v p rest) := by
  have hlisted : r ∈ M.topology.regions := Topology.mem_regions.2 ⟨v, hv, hr⟩
  have houtside : Outside M.topology r fun s =>
      (r ∉ rest ∧ rest ⊆ (M.topology.vertex v).regions) ∧ Pending M.topology i₀ v p rest s := by
    rintro s s' hs ⟨⟨hnot, hsub⟩, hrest, hps, hclear⟩
    refine ⟨⟨hnot, hsub⟩, hrest, hp s s' hs hps, fun q hq => ?_⟩
    have howner : (M.topology.region q).parent = (M.topology.region r).parent := by
      rw [(hT.mem_regions v q (hsub hq)).2, (hT.mem_regions v r hr).2]
    have hne : q ≠ r := fun he => hnot (he ▸ hq)
    exact Outside.clear hT (Topology.mem_regions.2 ⟨v, hv, hsub hq⟩) howner hne s s' hs
      (hclear q hq)
  refine conseq (frame_steps hT hJ hlisted (fun step hs => ?_) (.append ?_ h) houtside)
    (fun s _ _ ⟨⟨hnodup, hsub⟩, hps, hclear⟩ => ?_) fun _ _ _ h => h.2
  · rcases List.mem_append.1 hs with hs | hs
    · exact ⟨(Machine.all_fits hT).beginEnter _ step hs, Machine.on_beginEnter hT step hs⟩
    · exact ⟨(Machine.all_fits hT).endEnter _ step hs, Machine.on_endEnter hT step hs⟩
  · rw [Machine.beginEnter_region hT hlisted]
    exact tells hJ (fun step hs => List.mem_singleton.1 hs ▸ trivial) (.clear r)
  · obtain ⟨hnot, hnodup⟩ := List.nodup_cons.1 hnodup
    obtain ⟨-, hsub⟩ := List.cons_subset.1 hsub
    exact ⟨⟨⟨hnot, hsub⟩, ⟨hnodup, hsub⟩, hps, fun q hq => hclear q (List.mem_cons_of_mem _ hq)⟩,
      hclear r List.mem_cons_self⟩

include hn

/-- The end of an entry, from the last vertices up. -/
theorem endEnter : ∀ e, M.topology.Listed e →
    ((engine M M.compile n).performAll trigger deep (M.compile.endEnter e)).Tidies
      M.topology J i₀ (Opened M.topology i₀ e) (Closed M.topology i₀ e) := by
  refine Machine.endEnter_induction hT (p := fun e steps =>
    ((engine M M.compile n).performAll trigger deep steps).Tidies M.topology J i₀
      (Opened M.topology i₀ e) (Closed M.topology i₀ e)) ?enterRegion ?copy ?state ?resume ?rest
  case enterRegion => exact fun r hr => .single (hn.enterRegion r hr trigger deep)
  case copy =>
    intro r hr v hv ih
    have hmem := Topology.regionInitial_mem hv
    exact .append (beginEnter hT hJ ⟨hT.mem_vertices_of_region hr hmem,
      (hT.mem_vertices r v hmem).2⟩) (ih.post fun _ _ _ _ => trivial)
  case state =>
    intro v hv hstate ih
    have hregions : ((engine M M.compile n).performAll trigger deep
        ((M.topology.vertex v).regions.flatMap fun r => M.compile.enter (.region r))).Tidies
          M.topology J i₀
          (Pending M.topology i₀ v (Alone M.topology i₀ v) (M.topology.vertex v).regions)
          (Pending M.topology i₀ v (Alone M.topology i₀ v) []) :=
      Spec.flatMap (p := fun rest => Unless M.topology (Pending M.topology i₀ v _ rest))
        fun r hr rest => enterNext hT hJ hv hr (ih r hr) (.alone hT hv hr)
    exact hregions.conseq (fun _ _ _ h => ⟨⟨hT.nodup_regions v, fun _ h => h⟩, h.1, h.2 hstate⟩)
      fun _ _ _ h _ => h.2.1
  case resume =>
    intro v hv k hk hi
    have hkind := Topology.pseudoKind?_eq hk
    have hstate := Topology.not_isState_of_pseudoKind? hkind
    refine .single ((hn.resume v hv hstate trigger deep).conseq (fun _ _ _ h => h.1)
      fun _ _ _ _ h => absurd ?_ h)
    rw [hkind]
    exact hi
  case rest => exact fun v _ k _ _ => .nothing fun _ _ _ h _ => h.1

theorem enterElement {v : VertexId} {r : RegionId} (hv : M.topology.Holds r v) :
    (Engine.enterElement M.compile (engine M M.compile n) (.vertex v) trigger deep).Tidies
      M.topology J i₀ (Clear M.topology i₀ r) (Reached M.topology i₀ v) :=
  Spec.enterElement (beginEnter hT hJ hv) (endEnter hT hJ hn (.vertex v) hv.1)

/-- The entry down a path begins in a region that is clear, and each vertex on the path leaves the
region of the next one clear. -/
theorem cascade {x a : VertexId} {rest : List VertexId} (hx : x ∈ M.topology.vertices)
    (h : a :: rest <:+ M.topology.vertexAncestry x) :
    ((engine M M.compile n).performAll trigger deep
      (M.compile.cascade M.topology (a :: rest))).Tidies M.topology J i₀
        (Ready M.topology i₀ a) (Begun M.topology i₀ x) := by
  refine Spec.cascade hT (p := fun v => Unless M.topology (Ready M.topology i₀ v))
    (q := fun v => Unless M.topology (Begun M.topology i₀ v)) hx (fun v hv => ?_)
    (fun w hw v r hr howner hmem hv => ?_) rest a h
  · have hlisted := hT.mem_vertices_of_mem_vertexAncestry hx hv
    exact of_parent (tame_performAll hJ.toLaws hT ((Machine.all_fits hT).beginEnter _))
      fun r hr => beginEnter hT hJ ⟨hlisted, hr⟩
  · have hbeside : ((engine M M.compile n).performAll trigger deep
        (M.compile.enterBeside (some r) (M.topology.vertex v).regions)).Tidies M.topology J i₀
          (Pending M.topology i₀ v (Clear M.topology i₀ r) (M.topology.vertex v).regions)
          (Pending M.topology i₀ v (Clear M.topology i₀ r) []) := by
      refine Spec.enterBeside
        (p := fun rest => Unless M.topology (Pending M.topology i₀ v (Clear M.topology i₀ r) rest))
        (fun q hq hne rest => ?_) fun hr rest => ?_
      · have hlisted := Topology.mem_regions.2 ⟨v, hv, hmem⟩
        refine enterNext hT hJ hv hq (endEnter hT hJ hn (.region q)
          (Topology.mem_regions.2 ⟨v, hv, hq⟩)) (.clear hT hlisted ?_ hne.symm)
        rw [howner, (hT.mem_regions v q hq).2]
      · rw [Machine.beginEnter_region hT (Topology.mem_regions.2 ⟨v, hv, hr⟩)]
        have hpending : Fading M.topology i₀
            (Pending (σ := σ) M.topology i₀ v (Clear M.topology i₀ r) rest) := .pending (.clear r)
        refine pre (tells hJ (fun step hs => ?_) hpending) fun _ _ _ h => h.tail
        exact List.mem_singleton.1 hs ▸ trivial
    have hstate := hT.isState_of_regions v (List.ne_nil_of_mem hmem)
    exact hbeside.conseq (fun _ _ _ h => ⟨⟨hT.nodup_regions v, fun _ h => h⟩, h.2 hstate r hmem,
      h.2 hstate⟩) fun _ _ _ h => ⟨r, hr, h.2.1⟩

/-- An external transition whose ends are not in different regions of one state leaves all that
stands in the region that it enters. -/
theorem external {source x : VertexId} (hs : source ∈ M.topology.vertices)
    (hx : x ∈ M.topology.vertices) (hs₀ : source ≠ Topology.root) (hx₀ : x ≠ Topology.root)
    (hacross : ¬M.topology.Across source x) (effects : List (Action σ)) :
    ((engine M M.compile n).performAll trigger deep
      (M.externalSteps M.compile source x effects)).Tidies M.topology J i₀
        (Alone M.topology i₀ source) (Reached M.topology i₀ x) := by
  obtain ⟨above, a, as, b, bs, q, r, hsource, htarget, hsplit, hq, hr, hsame⟩ :=
    Machine.external_parts hT hs hx hs₀ hx₀
  obtain rfl := hsame.2 hacross
  have ha : a ∈ M.topology.vertexAncestry source :=
    hsource ▸ List.mem_append_right _ List.mem_cons_self
  rw [Machine.externalSteps_eq hsource htarget hsplit]
  refine .append (.append (.append ?_ (behaviors hJ (.ready b)))
    (cascade hT hJ hn hx ⟨above, htarget.symm⟩)) (endEnter hT hJ hn (.vertex x) hx)
  refine conseq (leave hT hJ n a trigger deep (.alone a))
    (fun s _ ht h => ht.alone_of_mem hT h ha hq) fun s _ ht h => ⟨q, hr, ?_⟩
  obtain ⟨⟨q', hq', hactive, halone⟩, hgone⟩ := h
  obtain rfl := Option.some.inj (hq'.symm.trans hq)
  refine ⟨hactive, fun u hu huq => hgone u hu ?_⟩
  exact halone u hu huq ▸ Topology.mem_vertexAncestry_self _

/-- A transition that does not deviate. -/
theorem traversal {t : TransitionId} (ht : t ∈ M.topology.transitions)
    (hattached : ∀ x ∈ (M.topology.transition t).target, x ∈ M.topology.vertices)
    (hdeviates : ¬M.topology.Deviates t) :
    ((engine M M.compile n).performAll trigger deep (M.compile.traversal t)).Tidies M.topology J i₀
      (Alone M.topology i₀ (M.topology.transition t).source)
      fun s => ∀ x ∈ (M.topology.transition t).target, s.Reached M.topology i₀ x := by
  have hs := (hT.source_of_mem_transitions ht).1
  -- the source is in a region, so it is not the root
  suffices h : ∀ r, (M.topology.vertex (M.topology.transition t).source).parent = some r →
      ((engine M M.compile n).performAll trigger deep (M.compile.traversal t)).Tidies M.topology
        J i₀ (Alone M.topology i₀ (M.topology.transition t).source)
        fun s => ∀ x ∈ (M.topology.transition t).target, s.Reached M.topology i₀ x from
    of_parent (tame_performAll hJ.toLaws hT ((Machine.all_fits hT).traversal t)) fun r hr =>
      (h r hr).pre fun _ _ _ h => ⟨r, hr, h⟩
  intro r hr
  have htarget : ∀ x, (M.topology.transition t).target = some x → ∀ s : Session σ ι,
      s.Reached M.topology i₀ x → ∀ y ∈ (M.topology.transition t).target,
        s.Reached M.topology i₀ y := fun x hx s h y hy =>
    Option.some.inj (hx.symm.trans hy) ▸ h
  refine Machine.traversal_cases (p := fun steps =>
    ((engine M M.compile n).performAll trigger deep steps).Tidies M.topology J i₀
      (Alone M.topology i₀ (M.topology.transition t).source)
      fun s => ∀ x ∈ (M.topology.transition t).target, s.Reached M.topology i₀ x) ht
    (fun hno => ?_) (fun x hx _ _ => ?_) fun x hx _ => ?_
  · have hinternal : ((engine M M.compile n).performAll trigger deep (M.internalSteps t)).Tidies
        M.topology J i₀ (Alone M.topology i₀ (M.topology.transition t).source) fun _ => True :=
      Spec.internalSteps (behaviors hJ (.alone _)) (hn.completeInternal _ hs trigger deep)
        fun _ _ h => h.imp id fun _ => trivial
    exact hinternal.post fun _ _ _ _ x hx => absurd ⟨x, hx, .inl (hno x hx)⟩ hdeviates
  · exact .single ((hn.traverseWithin t x hx (hattached x hx) trigger deep).conseq
      (fun _ _ _ _ => trivial) fun s _ _ => htarget x hx s)
  · obtain ⟨hxr, hacross⟩ := hT.not_across_of_not_deviates hdeviates hx hr
    refine (external hT hJ hn hs (hattached x hx) (fun he => ?_) (fun he => ?_) hacross _).post
      fun s _ _ => htarget x hx s
    · rw [he, hT.root_parent] at hr
      cases hr
    · have hup := hT.mem_way_of_along hxr
      rw [he, hT.vertexAncestry_root, List.mem_singleton] at hup
      exact hup.2 hup.1

/-! ### One level up -/

theorem enterRegion (hr : r ∈ M.topology.regions) :
    (Engine.enterRegion M M.compile (engine M M.compile n) r (M.topology.regionInitial r) trigger
      deep).Tidies M.topology J i₀ (Clear M.topology i₀ r) fun _ => True := by
  refine Spec.enterRegion (fun _ v s hs h => ?_) (fun v hv => ?_) fun _ => .ite
    (fun _ => .pure fun _ _ h => h.imp id fun _ => trivial) fun _ => ?_
  · have hv := hJ.holds hs.lawful h.2 hT hr
    exact (enterElement hT hJ hn hv).post (fun _ _ _ _ => trivial) s hs h.1
  · have hmem := Topology.regionInitial_mem hv
    exact (enterElement hT hJ hn ⟨hT.mem_vertices_of_region hr hmem,
      (hT.mem_vertices r v hmem).2⟩).post fun _ _ _ _ => trivial
  · exact (plain hJ ((Run.Adds.say (fun _ _ => trivial) _ _)) (.clear r)).post
      fun _ _ _ _ => trivial

/-- No state stands beside a pseudostate that is alone. -/
theorem resume (hv : v ∈ M.topology.vertices) (hpseudo : ¬M.topology.isState v) :
    (Engine.resume M M.compile (engine M M.compile n) v trigger deep).Tidies M.topology J i₀
      (Alone M.topology i₀ v) fun _ => True := by
  refine Spec.resume_parts (Tidy.steady hJ) (fun _ r hr state s hs h => ?_) fun t ht => ?_
  · have hlisted := (hT.listed_of_parent hv hr).1
    have hstate := hJ.holds hs.lawful h.2 hT hlisted
    have hclear : s.Unless M.topology (Clear M.topology i₀ r) := h.1.mono hs fun _ ht h => by
      obtain ⟨q, hq, hactive, halone⟩ := h
      obtain rfl := Option.some.inj (hq.symm.trans hr)
      exact ⟨hactive, fun u hu huq => hpseudo (halone u hu huq ▸ (ht.listed u hu).2)⟩
    exact Spec.bind ((leave hT hJ n v trigger false (.clear r)).post fun _ _ _ h => h.1)
      (fun _ => (enterElement hT hJ hn hstate).post fun _ _ _ _ => trivial) s hs hclear
  · have hout := hT.mem_outgoing v t ht
    exact hout.2 ▸ hn.fire t (Topology.mem_transitions.2 ⟨v, hv, ht⟩) trigger

theorem traverseWithin {t : TransitionId}
    (hattached : ∀ x ∈ (M.topology.transition t).target, x ∈ M.topology.vertices) :
    (Engine.traverseWithin M M.compile (engine M M.compile n) t trigger).Tidies M.topology J i₀
      (fun _ => True) fun s => ∀ x ∈ (M.topology.transition t).target,
        s.Reached M.topology i₀ x := by
  refine Spec.traverseWithin_parts (Tidy.steady hJ) fun x hx above a rest hsplit r hr => ?_
  have hxv := hattached x hx
  have hup : M.topology.stateTree.parent a = some (M.topology.region r).parent :=
    hT.parentState_eq hr
  have howner : (M.topology.region r).parent ∈ above := by
    have hmem : a ∈ M.topology.vertexAncestry x :=
      hsplit ▸ List.mem_append_right _ List.mem_cons_self
    have hmem : (M.topology.region r).parent ∈ M.topology.vertexAncestry x :=
      Forest.mem_ancestors_trans ((Forest.mem_ancestors_of_parent hup).2
        (.inr (Forest.mem_ancestors_self _))) hmem
    refine (List.mem_append.1 (hsplit ▸ hmem)).resolve_right fun hbelow => ?_
    exact Forest.not_mem_ancestors_of_parent hup
      (Forest.mem_ancestors_of_append (F := M.topology.stateTree) hsplit hbelow) rfl
  have hleave : (Engine.leaveCurrent M M.compile (engine M M.compile n) r trigger).Tidies
      M.topology J i₀ (fun s => Instance.isActive M.topology s.inst (M.topology.region r).parent)
        _ := leaveCurrent (Fading.isActive _) fun v _ hp => leave hT hJ n v trigger false hp
  refine Spec.bind (Spec.pre hleave fun _ _ h => .inr (h.2.1 _ howner)) fun _ => Spec.bind
    (plain hJ ((Run.Adds.actAll _ _).mono Event.plain_of_mute)
      ((Fading.isActive _).and (.vacant r)))
    fun _ => Spec.bind (pre (cascade hT hJ hn hxv ⟨above, hsplit.symm⟩) fun _ _ _ h =>
      ⟨r, hr, h⟩) fun _ => (endEnter hT hJ hn (.vertex x) hxv).post fun s _ _ h y hy => ?_
  exact Option.some.inj (hx.symm.trans hy) ▸ h

omit hT hJ in
/-- A state that is alone is offered its own completion. -/
theorem offerCompletion (hv : v ∈ M.topology.vertices) :
    (Engine.offerCompletion M (engine M M.compile n) v).Tidies M.topology J i₀
      (Alone M.topology i₀ v) fun _ => True :=
  Spec.offerCompletion (Spec.pre (hn.offer v hv) fun _ _ h => h.1) fun _ _ h _ =>
    h.imp id fun _ => trivial

theorem offerState (hv : v ∈ M.topology.vertices) :
    (Engine.offerState M (engine M M.compile n) v (.completion v)).Tidies M.topology J i₀
      (Alone M.topology i₀ v) fun _ => True := by
  refine Spec.offerState (a := fun _ => False) (Tidy.steady hJ) (Unless.steady hJ (.alone v))
    (fun h => absurd (decide_eq_true rfl) h) (fun _ _ h => h.elim) (fun t ht => ?_)
    fun _ _ h => h.imp id fun _ => trivial
  have hout := hT.mem_outgoing v t ht
  refine Spec.bind (plain hJ (Run.Adds.note (e := .selected v t _) trivial trivial) (.alone v))
    fun _ => hout.2 ▸ hn.fire t (Topology.mem_transitions.2 ⟨v, hv, ht⟩) _

variable (hattached : ∀ t ∈ M.topology.transitions, ∀ x ∈ (M.topology.transition t).target,
  x ∈ M.topology.vertices)
include hattached

/-- A leg of a transition. Where it deviates, nothing is asked of its steps. -/
theorem leg (t : TransitionId) (ht : t ∈ M.topology.transitions) :
    (Run.record (.traversed t) >>= fun _ => (engine M M.compile n).performAll trigger false
      (M.compile.traversal t)).Tidies M.topology J i₀
        (Alone M.topology i₀ (M.topology.transition t).source)
        fun s => ∀ x ∈ (M.topology.transition t).target, s.Reached M.topology i₀ x := by
  have hrecord : (Run.record (.traversed t) : Run σ ι Unit).Adds M.topology Event.Plain :=
    Run.Adds.note trivial trivial
  by_cases hdeviates : M.topology.Deviates t
  · have hfits := (Machine.all_fits hT).traversal t
    exact Spec.bind (r := fun _ => Deviated M.topology) (fun s hs _ => ⟨hs.plain hJ (hrecord s),
      fun _ _ => ⟨t, List.mem_cons_self, hdeviates⟩⟩) fun _ =>
        (deviated (tame_performAll hJ.toLaws hT hfits)).post fun _ _ _ h => .inl h
  · exact Spec.bind (plain hJ hrecord (.alone _)) fun _ =>
      traversal hT hJ hn ht (hattached t ht) hdeviates

theorem fireTransition {t : TransitionId} (ht : t ∈ M.topology.transitions) :
    (Engine.fireTransition M M.compile (engine M M.compile n) t trigger).Tidies M.topology J i₀
      (Alone M.topology i₀ (M.topology.transition t).source) fun _ => True := by
  refine Spec.pre (Spec.fireTransition
    (b := fun t s => t ∈ M.topology.transitions ∧
      s.Unless M.topology (Alone M.topology i₀ (M.topology.transition t).source))
    (a := fun t s => t ∈ M.topology.transitions ∧ s.Unless M.topology fun s =>
      ∀ x ∈ (M.topology.transition t).target, s.Reached M.topology i₀ x)
    (Tidy.steady hJ) (fun t s s' hs h => ⟨h.1, Unless.steady hJ (.alone _) s s' hs h.2⟩)
    (fun t => .pull fun ht => Spec.post (leg hT hJ hn hattached t ht) fun _ _ _ h => ⟨ht, h⟩)
    (fun t u x hx hk hu s _ h => ?_) (fun t x hx hk => .pull fun ht => ?_)
    (fun _ _ _ _ h => h.2.imp id fun _ => trivial) t) fun _ _ h => ⟨ht, h⟩
  · have hxv := hattached t h.1 x hx
    refine ⟨Topology.mem_transitions.2 ⟨x, hxv, hu⟩, h.2.imp id fun h => ?_⟩
    rw [(hT.mem_outgoing x u hu).2]
    exact h x hx (by rw [hk]; decide)
  · have hxv := hattached t ht x hx
    have halone : M.topology.pseudoKind? x = some .choice ∨ M.topology.isState x →
        ∀ s : Session σ ι, s.Unless M.topology (Reached M.topology i₀ x) →
          s.Unless M.topology (Alone M.topology i₀ x) := fun h s hs => hs.imp id fun hs => hs <| by
      rcases h with h | h
      · rw [h]; decide
      · rw [Topology.isState_iff_pseudoKind?.1 h]; decide
    refine Spec.pre (Spec.leadOn (p := Unless M.topology (Reached M.topology i₀ x))
      (Tidy.steady hJ) (Unless.steady hJ (.reached x)) (fun hk u hu => ?_) (fun hstate => ?_)
      fun _ _ _ _ h => h.imp id fun _ => trivial) fun _ _ h => h.imp id fun h => h x hx
    · have hout := hT.mem_outgoing x u hu
      exact Spec.pre (hout.2 ▸ hn.fire u (Topology.mem_transitions.2 ⟨x, hxv, hu⟩) trigger)
        fun s _ => halone (.inl hk) s
    · exact Spec.pre (offerCompletion hn hxv) fun s _ => halone (.inr hstate) s

end Run.Tidies

theorem engine_vacates {M : Machine σ} {J : ι → Prop} {i₀ : ι} (hT : M.topology.WellFormed)
    (hJ : Instance.Seats M.topology J)
    (hattached : ∀ t ∈ M.topology.transitions, ∀ x ∈ (M.topology.transition t).target,
      x ∈ M.topology.vertices) : ∀ n, M.Vacates J i₀ n
  | 0 => ⟨fun _ _ _ _ => .exhausted, fun _ _ _ _ _ => .exhausted, fun _ _ _ _ => .exhausted,
      fun _ _ _ _ _ _ => .exhausted, fun _ _ => .exhausted, fun _ _ _ => .exhausted⟩
  | n + 1 => by
    have hn : M.Vacates J i₀ n := engine_vacates hT hJ hattached n
    refine ⟨fun _ hr _ _ => .enterRegion hT hJ hn hr, fun _ hv hp _ _ => .resume hT hJ hn hv hp,
      fun v hv _ _ => .ite (fun _ => Run.Tidies.offerCompletion hn hv) fun _ => .pure fun _ _ h =>
        h.imp id fun _ => trivial, fun t x hx hxv _ _ => ?_, fun _ hv => .offerState hT hJ hn hv,
      fun _ ht _ => .fireTransition hT hJ hn hattached ht⟩
    exact (Run.Tidies.traverseWithin hT hJ hn fun y hy =>
      Option.some.inj (hx.symm.trans hy) ▸ hxv).post fun _ _ _ h => h x hx

end Hsm
