import Hsm.Proofs.Engine.Losses
import Hsm.Proofs.Engine.Rules

/-!
# Settling whether a state waits

A state waits if it is active and complete. What a step, an entry or a transition leaves loose is
what its caller goes on to settle, by an offer to the state or by making another current. The
operations of the engine do so (`Machine.Settles`) for a state whose only way out is its
completion, unless an event of the run was one of the ways past it.
-/

namespace Hsm

variable {σ ι : Type}

section

variable [Instance ι]

/-- The state is active and has finished its work. -/
def Instance.Waits (T : Topology) (s : VertexId) (i : ι) : Prop :=
  isActive T i s ∧ isComplete T i s

instance (T : Topology) (s : VertexId) (i : ι) : Decidable (Instance.Waits T s i) :=
  inferInstanceAs (Decidable (_ ∧ _))

namespace Session

variable (T : Topology) (J : ι → Prop) (i₀ : ι) (s : VertexId)

/-- The instance is lawful, and what the events have made of the one that the run began with. -/
structure Lawful (z : Session σ ι) : Prop where
  lawful : J z.inst
  inst : z.inst = Instance.replay T z.trail i₀

/-- The run has ended, or has gone past the completion of `s`. -/
def Excused (z : Session σ ι) : Prop :=
  Instance.isTerminated z.inst
    ∨ ∃ e past, e :: past <:+ z.trail ∧ e.Loses T s (Instance.replay T past i₀)

def Settled (z : Session σ ι) : Prop :=
  z.Excused T i₀ s ∨ ¬Instance.Waits T s z.inst

/-- If the entry of the element goes past the completion of `s`, the run is excused. -/
def Covers (e : Element) (z : Session σ ι) : Prop :=
  (Event.entered e).Loses T s z.inst → z.Excused T i₀ s

/-- Between the halves of the entry of an element. -/
def Between (e : Element) (z : Session σ ι) : Prop :=
  z.Covers T i₀ s e ∧ (T.LooseWithin s e ∨ z.Settled T i₀ s)

variable {T J i₀ s}

theorem Lawful.leads {z z' : Session σ ι} {q : Event → Prop} (hz : z.Lawful T J i₀)
    (h : z.Leads T q z') (hJ : J z'.inst) : z'.Lawful T J i₀ := by
  obtain ⟨es, ht, -, hi⟩ := h
  exact ⟨hJ, by rw [ht, hi, Instance.replay_append, ← hz.inst]⟩

theorem Lawful.tame {z : Session σ ι} (hz : z.Lawful T J i₀) {α : Type} {x : Run σ ι α}
    (hx : x.Tame T J) : (x z).2.Lawful T J i₀ :=
  hz.leads (hx.2 z) (hx.1 z hz.lawful)

theorem Lawful.record {z : Session σ ι} (hz : z.Lawful T J i₀) {e : Event}
    (he : e.replay T z.inst = z.inst) : Lawful T J i₀ { z with trail := e :: z.trail } :=
  ⟨hz.lawful, he.symm.trans (congrArg _ hz.inst)⟩

theorem Excused.of_loses {z : Session σ ι} (hz : z.Lawful T J i₀) {e : Event}
    (h : e.Loses T s z.inst) : Excused T i₀ s { z with trail := e :: z.trail } :=
  .inr ⟨e, z.trail, List.suffix_refl _, hz.inst ▸ h⟩

theorem Excused.record {z : Session σ ι} (h : z.Excused T i₀ s) (e : Event) :
    Excused T i₀ s { z with trail := e :: z.trail } :=
  h.imp id fun ⟨e', past, hp, hl⟩ => ⟨e', past, hp.trans (List.suffix_cons _ _), hl⟩

theorem Settled.record {z : Session σ ι} (h : z.Settled T i₀ s) (e : Event) :
    Settled T i₀ s { z with trail := e :: z.trail } :=
  h.imp (fun h => h.record e) id

variable (hJ : Instance.Laws T J)
include hJ

theorem stable_lawful : Session.Stable T fun z : Session σ ι => z.Lawful T J i₀ :=
  fun _ _ h hz => hz.leads h (hJ.stable _ _ h hz.lawful)

theorem Excused.leads {z z' : Session σ ι} {q : Event → Prop} (h : z.Leads T q z')
    (hz : z.Excused T i₀ s) : z'.Excused T i₀ s := by
  obtain ⟨es, ht, -, hi⟩ := h
  rcases hz with hz | ⟨e, past, hp, hl⟩
  · exact .inl (hi ▸ hJ.isTerminated_replay es hz)
  · exact .inr ⟨e, past, ht ▸ hp.trans (List.suffix_append _ _), hl⟩

theorem stable_settled : Session.Stable T fun z : Session σ ι => z.Settled T i₀ s := by
  intro z z' h hz
  obtain ⟨halike, -⟩ := hJ.alike_of_quiet h
  refine hz.imp (Excused.leads hJ h) fun hw => ?_
  unfold Instance.Waits
  rw [halike.isActive, halike.isComplete]
  exact hw

theorem stable_loose {p : Prop} :
    Session.Stable T fun z : Session σ ι => p ∨ z.Settled T i₀ s :=
  .or (p := fun _ => p) (fun _ _ _ => id) (stable_settled hJ)

theorem stable_covers {e : Element} : Session.Stable T fun z : Session σ ι => z.Covers T i₀ s e :=
  fun _ _ h hz hl => (hz (((hJ.alike_of_quiet h).1.loses_iff).1 hl)).leads hJ h

theorem stable_between {e : Element} :
    Session.Stable T fun z : Session σ ι => z.Between T i₀ s e :=
  (stable_covers hJ).and (stable_loose hJ)

end Session

/-- From where `b` holds, the run ends where `s` may wait if `q`, and stays lawful. -/
abbrev Run.CalmsFrom (T : Topology) (J : ι → Prop) (i₀ : ι) (s : VertexId) {α : Type}
    (b : Session σ ι → Prop) (x : Run σ ι α) (q : Prop) : Prop :=
  Run.Spec (fun z => z.Lawful T J i₀) b x fun _ z => q ∨ z.Settled T i₀ s

/-- From where `s` may wait if `p`, the run ends where it may wait if `q`, and stays lawful. -/
abbrev Run.Calms (T : Topology) (J : ι → Prop) (i₀ : ι) (s : VertexId) {α : Type} (p : Prop)
    (x : Run σ ι α) (q : Prop) : Prop :=
  Run.CalmsFrom T J i₀ s (fun z => p ∨ z.Settled T i₀ s) x q

namespace Run.Calms

variable {T : Topology} {J : ι → Prop} {i₀ : ι} {s : VertexId} {α : Type} {x : Run σ ι α}
  {p p' q q' : Prop}

theorem mono (h : Calms T J i₀ s p x q) (hp : p' → p) (hq : q → q') : Calms T J i₀ s p' x q' :=
  h.conseq (fun _ _ => Or.imp hp id) fun _ _ _ => Or.imp hq id

theorem of_after {b : Session σ ι → Prop} (hx : x.Tame T J) (hq : q) :
    CalmsFrom T J i₀ s b x q :=
  fun _ hz _ => ⟨hz.tame hx, fun _ _ => .inl hq⟩

theorem excused (hJ : Instance.Laws T J) (hx : x.Tame T J) :
    Spec (fun z => z.Lawful T J i₀) (fun z => z.Excused T i₀ s) x fun _ z => z.Excused T i₀ s :=
  fun z hz he => ⟨hz.tame hx, fun _ _ => he.leads hJ (hx.2 z)⟩

theorem of_excused (hJ : Instance.Laws T J) (hx : x.Tame T J) {b : Session σ ι → Prop}
    (hb : ∀ z, z.Lawful T J i₀ → b z → z.Excused T i₀ s) : CalmsFrom T J i₀ s b x q :=
  (excused hJ hx).conseq hb fun _ _ _ h => .inr (.inl h)

/-- What is excused if it does not fit need only be considered as far as it fits. -/
theorem of_fits (hJ : Instance.Laws T J) (hx : x.Tame T J) {c : Prop}
    (h : c → Calms T J i₀ s p x q) :
    Spec (fun z => z.Lawful T J i₀)
      (fun z => (¬c → z.Excused T i₀ s) ∧ (p ∨ z.Settled T i₀ s)) x
      fun _ z => (¬c → z.Excused T i₀ s) ∧ (q ∨ z.Settled T i₀ s) := by
  by_cases hc : c
  · exact (h hc).conseq (fun _ _ h => h.2) fun _ _ _ h => ⟨absurd hc, h⟩
  · exact (excused hJ hx).conseq (fun _ _ h => h.1 hc) fun _ _ _ h => ⟨fun _ => h, .inr (.inl h)⟩

theorem quiet (hJ : Instance.Laws T J) (h : x.Adds T Event.Quiet) : Calms T J i₀ s p x p :=
  Spec.quiet h (Session.stable_lawful hJ) (Session.stable_loose hJ)

end Run.Calms

/-! ## Steps -/

namespace Step

variable (T : Topology) (i₀ : ι) (s : VertexId)

omit [Instance ι] in
/-- Where `s` is last known the step is not deep, and it leads neither out of the model nor beneath
`s`. -/
def Plain (deep : Bool) : Step σ → Prop
  | .enterRegion r _ => T.Along s r → deep = false
  | .resume v => T.Exposed s (.vertex v) → deep = false
  | .traverseWithin t => ¬T.LeadsOut t ∧ ¬T.ReachesInto s t
  | _ => True

def LooseBefore : Step σ → Prop
  | .setCurrent _ v => T.LooseBefore s v
  | .terminate => True
  | .completeInternal v => T.isDescendant v s ∨ v = s
  | .traverseWithin t => T.LooseThrough s t
  | _ => False

/-- What the step may begin with. -/
def Before : Step σ → Session σ ι → Prop
  | .enterRegion r _, z => z.Between T i₀ s (.region r)
  | .resume v, z => z.Between T i₀ s (.vertex v)
  | step, z => step.LooseBefore T s ∨ z.Settled T i₀ s

def LooseAfter : Step σ → Prop
  | .setCurrent _ v => T.isDescendant v s ∨ v ∈ T.vertexAncestry s ∨ ¬T.isState v ∧ T.Beside s v
  | .enterRegion r _ => T.Inside s r
  | .resume v | .completeInternal v => T.isDescendant v s
  | .traverseWithin t => T.LooseBeyond s t
  | _ => False

end Step

theorem Trigger.eq_of_isCompletionOf {v : VertexId} {trigger : Trigger}
    (h : trigger.isCompletionOf v) : trigger = .completion v := by
  cases trigger with
  | completion w => exact congrArg _ (of_decide_eq_true h)
  | _ => cases h

/-- A transition that waits for a completion passes on that alone. -/
theorem passing_completion {M : Machine σ} {t : TransitionId} {v : VertexId}
    (h : M.guard t = .completion v) {trigger : Trigger} {ts : List TransitionId}
    {z : Session σ ι} (hts : (Engine.passing M trigger [t] z).1 = .value ts) :
    ts = if trigger.isCompletionOf v then [t] else [] := by
  obtain ⟨holds, hholds, hts, -⟩ := Run.bind_value hts
  obtain ⟨others, hothers, hts, -⟩ := Run.bind_value hts
  obtain rfl : [] = others := Result.value.inj hothers
  rw [← Result.value.inj hts, ← Result.value.inj hholds, h]
  rfl

theorem tame_enterElement {M : Machine σ} {J : ι → Prop} (hJ : Instance.Laws M.topology J)
    (hT : M.topology.WellFormed) {n : Nat} {trigger : Trigger} {deep : Bool} (x : Element) :
    (Engine.enterElement (ι := ι) M.compile (engine M M.compile n) x trigger deep).Tame
      M.topology J := by
  rw [Engine.enterElement_eq]
  exact tame_performAll hJ hT fun step h => (List.mem_append.1 h).elim
    ((Machine.all_fits hT).beginEnter _ step) ((Machine.all_fits hT).endEnter _ step)

/-- With calls nested at most `n` deep, the operations settle whether `s` waits, but for what is
beneath it, which an offer to `s` itself settles. -/
structure Machine.Settles (M : Machine σ) (J : ι → Prop) (i₀ : ι) (s : VertexId) (n : Nat) :
    Prop where
  perform : ∀ step trigger deep, M.Fits step → step.Plain M.topology s deep →
    Run.CalmsFrom M.topology J i₀ s (step.Before M.topology i₀ s)
      ((engine M M.compile n).perform step trigger deep) (step.LooseAfter M.topology s)
  offer : ∀ v trigger, v ∈ M.topology.vertices → M.topology.isState v →
    Run.Calms M.topology J i₀ s
      (M.topology.isDescendant v s ∨ v = s ∧ trigger = .completion s)
      ((engine M M.compile n).offer v trigger) (M.topology.isDescendant v s)
  fire : ∀ t trigger, t ∈ M.topology.transitions →
    Run.Calms M.topology J i₀ s (M.topology.LooseFrom s t) ((engine M M.compile n).fire t trigger)
      (M.topology.isDescendant (M.topology.transition t).source s)

namespace Run.Calms

variable {M : Machine σ} {J : ι → Prop} {i₀ : ι} {s : VertexId} {n : Nat} {trigger : Trigger}
  {deep : Bool} {p : Prop} (hJ : Instance.Laws M.topology J) (hT : M.topology.WellFormed)
include hJ hT

theorem inert {steps : List (Step σ)} (h : ∀ step ∈ steps, step.Inert) :
    Calms M.topology J i₀ s p ((engine M M.compile n).performAll trigger deep steps) p :=
  Spec.inert hT (Session.stable_lawful hJ) (Session.stable_loose hJ) h

omit hT in
/-- An entry begins with the event that may go past the completion of `s`. -/
theorem entered (x : Element) :
    Spec (fun z => z.Lawful M.topology J i₀) (fun z => p ∨ z.Settled M.topology i₀ s)
      ((engine M M.compile n).perform (.enter x) trigger deep)
      fun _ z => z.Covers M.topology i₀ s x ∧ (p ∨ z.Settled M.topology i₀ s) := by
  cases n with
  | zero => exact Spec.exhausted
  | succ n =>
    refine Spec.bind
      (r := fun _ z => z.Covers M.topology i₀ s x ∧ (p ∨ z.Settled M.topology i₀ s))
      (fun z hz hp => ⟨hz.record rfl, fun _ _ => ?_⟩)
      fun _ => Spec.quiet ((Run.Adds.announce _ _).mono Event.quiet_of_mute)
        (Session.stable_lawful hJ) ((Session.stable_covers hJ).and (Session.stable_loose hJ))
    exact ⟨Session.Excused.of_loses hz, hp.imp id fun h => h.record _⟩

/-! ### Elements -/

variable (hn : M.Settles J i₀ s n)
include hn

omit hJ hT in
theorem currentSteps {v : VertexId} (hv : v ∈ M.topology.vertices) :
    Calms M.topology J i₀ s (M.topology.LooseBefore s v)
      ((engine M M.compile n).performAll trigger deep (M.currentSteps v))
      (M.topology.isDescendant v s ∨ v ∈ M.topology.vertexAncestry s
        ∨ ¬M.topology.isState v ∧ M.topology.Beside s v) := by
  have hfits := Machine.fits_currentSteps hv
  unfold Machine.currentSteps at hfits ⊢
  split
  · rename_i r hr
    rw [hr] at hfits
    exact Spec.single
      (hn.perform (.setCurrent r v) trigger deep (hfits _ List.mem_cons_self) trivial)
  · rename_i hr
    refine mono (Spec.nil (e := engine M M.compile n)) id fun h => ?_
    rcases h with h | h | ⟨r, hb, -⟩
    · exact .inl h
    · exact .inr (.inl h)
    · exact absurd (hr.symm.trans hb) (Option.some_ne_none r).symm

omit hn in
/-- Making a pseudostate current changes nothing that is last known. -/
theorem currentSteps_covers {v : VertexId} (hv : v ∈ M.topology.vertices)
    (hns : ¬M.topology.isState v) :
    Spec (fun z => z.Lawful M.topology J i₀) (fun z => z.Covers M.topology i₀ s (.vertex v))
      ((engine M M.compile n).performAll trigger deep (M.currentSteps v))
      fun _ z => z.Covers M.topology i₀ s (.vertex v) := by
  unfold Machine.currentSteps
  split
  · rename_i r hr
    refine Spec.single ?_
    cases n with
    | zero => exact Spec.exhausted
    | succ n =>
      have hholds : M.topology.Holds r v := ⟨hv, hr⟩
      have hlisted : r ∈ M.topology.regions := (hT.listed_of_parent hv hr).1
      intro z hz h
      have hreplay : z.Leads M.topology (fun _ => True) (Run.setCurrent M.topology r v z).2 :=
        .one trivial rfl rfl
      refine ⟨hz.leads hreplay (hJ.setCurrent hz.lawful hholds),
        fun _ _ hl => (h ?_).leads hJ hreplay⟩
      obtain ⟨hrestores, q, hq, hrecalls⟩ := hl
      obtain rfl : r = q := Option.some.inj (hr.symm.trans hq)
      refine ⟨hrestores, r, hr, (Instance.Recalls.congr ?_).1 hrecalls⟩
      exact (hJ.lastKnown_setCurrent hz.lawful hholds r hlisted).trans (if_neg fun h => hns h.2)
  · exact Spec.nil

theorem beginEnter_vertex {v : VertexId} (hv : v ∈ M.topology.vertices) :
    Spec (fun z => z.Lawful M.topology J i₀)
      (fun z => M.topology.LooseBefore s v ∨ z.Settled M.topology i₀ s)
      ((engine M M.compile n).performAll trigger deep (M.compile.beginEnter (.vertex v)))
      fun _ z => z.Between M.topology i₀ s (.vertex v) := by
  have hfits := (Machine.all_fits hT).beginEnter (.vertex v)
  obtain ⟨rest, hrest, hloose, hcovers⟩ : ∃ rest, M.compile.beginEnter (.vertex v) =
      .enter (.vertex v) :: rest ∧ Calms M.topology J i₀ s (M.topology.LooseBefore s v)
        ((engine M M.compile n).performAll trigger deep rest)
        (M.topology.LooseWithin s (.vertex v)) ∧
      (M.topology.Restores s v → Spec (fun z => z.Lawful M.topology J i₀)
        (fun z => z.Covers M.topology i₀ s (.vertex v))
        ((engine M M.compile n).performAll trigger deep rest)
        fun _ z => z.Covers M.topology i₀ s (.vertex v)) := by
    have hcurrent : Calms M.topology J i₀ s (M.topology.LooseBefore s v)
        ((engine M M.compile n).performAll trigger deep (M.currentSteps v)) _ :=
      currentSteps hn hv
    by_cases hs : M.topology.isState v
    · refine ⟨_, Machine.beginEnter_state hT hv hs, Spec.append hcurrent (mono (p := _)
        (inert hJ hT (Step.inert_behaviors _)) id fun h => ?_), fun hrestores => ?_⟩
      · rcases h with h | h | h
        · exact .inl h
        · exact .inr (.inl h)
        · exact absurd hs h.1
      · exact absurd hs hrestores.not_isState
    · obtain ⟨k, hk⟩ := Topology.exists_pseudo hs
      refine ⟨_, Machine.beginEnter_pseudo hT hv hk, Spec.append hcurrent ?_, fun hrestores =>
        Spec.append (currentSteps_covers hJ hT hv hs) ?_⟩
      · split
        · exact mono (Spec.single (hn.perform .terminate trigger deep trivial trivial))
            (fun _ => trivial) False.elim
        · rename_i hne
          refine mono (Spec.nil (e := engine M M.compile n)) id fun h => ?_
          rcases h with h | h | h
          · exact .inl h
          · exact .inr (.inl h)
          · exact .inr (.inr ⟨⟨k, Topology.pseudoKind?_eq hk, hne⟩, h.2⟩)
      · rw [if_neg (hrestores.ne_terminate (Topology.pseudoKind?_eq hk))]
        exact Spec.nil
  rw [hrest]
  refine Spec.cons (entered hJ (.vertex v)) ?_
  by_cases hrestores : M.topology.Restores s v
  · exact (hcovers hrestores).and hloose
  · exact hloose.conseq (fun _ _ h => h.2) fun _ _ _ h => ⟨fun hl => absurd hl.1 hrestores, h⟩

omit hn in
theorem enter_region {r : RegionId} (hr : r ∈ M.topology.regions)
    (hend : CalmsFrom M.topology J i₀ s (fun z => z.Between M.topology i₀ s (.region r))
      ((engine M M.compile n).performAll trigger deep (M.compile.endEnter (.region r)))
      (M.topology.LooseAfter s (.region r))) :
    Calms M.topology J i₀ s (M.topology.LooseWithin s (.region r))
      ((engine M M.compile n).performAll trigger deep (M.compile.enter (.region r)))
      (M.topology.LooseAfter s (.region r)) := by
  refine Spec.enter ?_ hend
  rw [Machine.beginEnter_region hT hr]
  exact Spec.single (entered hJ (.region r))

omit hn in
/-- Beside the region along the way, the regions of a state above `s` may be entered. -/
theorem enter_next {v : VertexId} (hv : v ∈ M.topology.vertices)
    (hnot : s ∉ M.topology.vertexAncestry v) {r : RegionId}
    (hr : r ∈ (M.topology.vertex v).regions) (rest : List RegionId)
    (hend : CalmsFrom M.topology J i₀ s (fun z => z.Between M.topology i₀ s (.region r))
      ((engine M M.compile n).performAll trigger deep (M.compile.endEnter (.region r)))
      (M.topology.LooseAfter s (.region r))) :
    Calms M.topology J i₀ s (∃ q ∈ r :: rest, M.topology.Along s q)
      ((engine M M.compile n).performAll trigger deep (M.compile.enter (.region r)))
      (∃ q ∈ rest, M.topology.Along s q) := by
  have hlisted : r ∈ M.topology.regions := Topology.mem_regions.2 ⟨v, hv, hr⟩
  have hout : ¬M.topology.Inside s r := by
    unfold Topology.Inside
    rwa [(hT.mem_regions v r hr).2]
  by_cases hrest : ∃ q ∈ rest, M.topology.Along s q
  · exact of_after (Engine.enterElement_eq .. ▸ tame_enterElement hJ hT (.region r)) hrest
  · refine (enter_region hJ hT hlisted hend).mono (fun ⟨q, hq, ha⟩ => ?_) fun h => absurd h hout
    rcases List.mem_cons.1 hq with rfl | hq
    · exact .inr ha
    · exact absurd ⟨q, hq, ha⟩ hrest

omit hn in
/-- At or beneath `s` nothing is asked of the second half of an entry. -/
theorem of_apart {v : VertexId} {b : Session σ ι → Prop} {steps : List (Step σ)}
    (hfits : ∀ step ∈ steps, M.Fits step)
    (h : s ∉ M.topology.vertexAncestry v → CalmsFrom M.topology J i₀ s b
      ((engine M M.compile n).performAll trigger deep steps)
      (M.topology.LooseAfter s (.vertex v))) :
    CalmsFrom M.topology J i₀ s b ((engine M M.compile n).performAll trigger deep steps)
      (M.topology.LooseAfter s (.vertex v)) := by
  by_cases hmem : s ∈ M.topology.vertexAncestry v
  · refine of_after (tame_performAll hJ hT hfits) ?_
    by_cases he : s = v
    · exact .inr (.inl he.symm)
    · exact .inl (Topology.isDescendant_iff.2 ⟨hmem, he⟩)
  · exact h hmem

variable (hs : s ∈ M.topology.vertices) (hstate : M.topology.isState s)
include hs hstate

/-- What the first half of an entry leaves loose, the second half settles. -/
theorem endEnter {x : Element} (hx : M.topology.Listed x) :
    (M.topology.Exposed s x → deep = false) →
    CalmsFrom M.topology J i₀ s (fun z => z.Between M.topology i₀ s x)
      ((engine M M.compile n).performAll trigger deep (M.compile.endEnter x))
      (M.topology.LooseAfter s x) := by
  refine Machine.endEnter_induction hT (p := fun x steps =>
    (M.topology.Exposed s x → deep = false) →
      CalmsFrom M.topology J i₀ s (fun z => z.Between M.topology i₀ s x)
        ((engine M M.compile n).performAll trigger deep steps) (M.topology.LooseAfter s x))
    ?enterRegion ?copy ?state ?resume ?rest x hx
  case enterRegion =>
    exact fun r hr hdeep => Spec.single
      (hn.perform (.enterRegion r (M.topology.regionInitial r)) trigger deep ⟨hr, rfl⟩ hdeep)
  case copy =>
    intro r hr v hv ih hdeep
    have hvm := Topology.regionInitial_mem hv
    have hvr := (hT.mem_vertices r v hvm).2
    by_cases he : v = s
    · refine of_excused hJ (Engine.enterElement_eq .. ▸ tame_enterElement hJ hT (.vertex v))
        fun z _ h => h.1 (.inl (hv.trans (congrArg some he)))
    · refine (Spec.enter (beginEnter_vertex hJ hT hn (hT.mem_vertices_of_region hr hvm))
        (ih fun h => hdeep (Topology.along_of_exposed hvr h))).conseq (fun z _ h => h.2.imp ?_ id)
          fun _ z _ => Or.imp (hT.inside_of_initial hs hstate he hv) id
      rintro (h | h)
      · exact .inl ((hT.isDescendant_of_parent hvr).2 h)
      · exact .inr (.inr ⟨r, hvr, h⟩)
  case state =>
    intro v hv hvs ih hdeep
    have hfits := (Machine.all_fits hT).endEnter (.vertex v)
    rw [Machine.endEnter_state hT hv hvs] at hfits
    refine of_apart hJ hT hfits fun hnot => ?_
    -- `s` may wait as long as the region on the way to it is still to be entered
    have hregions : Calms M.topology J i₀ s
        (∃ q ∈ (M.topology.vertex v).regions, M.topology.Along s q)
        ((engine M M.compile n).performAll trigger deep
          ((M.topology.vertex v).regions.flatMap fun r => M.compile.enter (.region r)))
        (∃ q ∈ [], M.topology.Along s q) :=
      Spec.flatMap (p := fun rest (z : Session σ ι) =>
          (∃ q ∈ rest, M.topology.Along s q) ∨ z.Settled M.topology i₀ s) fun r hr rest =>
        enter_next hJ hT hv hnot hr rest (ih r hr fun h => hdeep (.inl
          ((hT.mem_regions v r hr).2 ▸ (hT.mem_way_of_along h).1)))
    exact hregions.conseq (fun _ _ h => h.2.imp (hT.exists_along_of_within hs hnot hvs) id)
      fun _ _ _ => Or.imp (fun ⟨q, hq, _⟩ => absurd hq List.not_mem_nil) id
  case resume =>
    intro v hv k hk hi hdeep
    exact (Spec.single (hn.perform (.resume v) trigger deep ⟨hv, k, hk, hi⟩ hdeep)).post
      fun _ _ _ => Or.imp .inl id
  case rest =>
    intro v _ k hk hi _
    have hk' := Topology.pseudoKind?_eq hk
    refine of_apart hJ hT (fun step h => absurd h List.not_mem_nil) fun hnot => ?_
    refine (Spec.nil (e := engine M M.compile n)).post fun _ z _ h => h.2.imp (fun h => ?_) id
    obtain ⟨hne, hb⟩ := hT.beside_of_within hs hstate hnot hk' h
    exact .inr (.inr ⟨(Topology.branches_of_not_isInitial hi hne).imp
      (hk'.trans <| congrArg _ ·) (hk'.trans <| congrArg _ ·), hb⟩)

theorem enterVertex {v : VertexId} (hv : v ∈ M.topology.vertices)
    (hdeep : M.topology.Exposed s (.vertex v) → deep = false) :
    Calms M.topology J i₀ s (M.topology.LooseBefore s v)
      (Engine.enterElement M.compile (engine M M.compile n) (.vertex v) trigger deep)
      (M.topology.LooseAfter s (.vertex v)) :=
  Spec.enterElement (beginEnter_vertex hJ hT hn hv) (endEnter hJ hT hn hs hstate hv hdeep)

/-! ### Paths -/

/-- The entry from an index of an ancestry down to its vertex `x`. -/
theorem enterPath {x : VertexId} (hx : x ∈ M.topology.vertices) {i : Nat}
    (hi : i < (M.topology.vertexAncestry x).length) :
    Spec (fun z => z.Lawful M.topology J i₀)
      (fun z => M.topology.LooseBefore s (M.topology.vertexAncestry x)[i]
        ∨ z.Settled M.topology i₀ s)
      ((engine M M.compile n).performAll trigger false
        (M.compile.cascade M.topology ((M.topology.vertexAncestry x).drop i)))
      fun _ z => z.Between M.topology i₀ s (.vertex x) := by
  refine Spec.cascade_drop hT hx
    (p := fun v z => M.topology.LooseBefore s v ∨ z.Settled M.topology i₀ s)
    (q := fun v z => z.Between M.topology i₀ s (.vertex v))
    (fun v hv => beginEnter_vertex hJ hT hn (hT.mem_vertices_of_mem_vertexAncestry hx hv))
    (fun w hw v next hp ho hr hv => ?_) hi
  refine Spec.pre ?_ fun _ _ h => h.2
  have hfits : ∀ step ∈ M.compile.enterBeside (some next) (M.topology.vertex v).regions,
      M.Fits step := fun step h => by
    obtain ⟨r, -, h⟩ := List.mem_flatMap.1 h
    rcases List.mem_append.1 h with h | h
    · exact (Machine.all_fits hT).beginEnter _ step h
    · split at h
      · exact absurd h List.not_mem_nil
      · exact (Machine.all_fits hT).endEnter _ step h
  by_cases hw : M.topology.LooseBefore s w
  · exact of_after (tame_performAll hJ hT hfits) hw
  · have halong : ¬M.topology.Along s next := fun h => hw (.inr (.inr ⟨next, hp, h⟩))
    have hnot : s ∉ M.topology.vertexAncestry v := fun h =>
      hw (.inl ((hT.isDescendant_of_parent hp).2 (by rwa [Topology.Inside, ho])))
    have hbeside : Calms M.topology J i₀ s
        (∃ q ∈ (M.topology.vertex v).regions, M.topology.Along s q)
        ((engine M M.compile n).performAll trigger false
          (M.compile.enterBeside (some next) (M.topology.vertex v).regions))
        (∃ q ∈ [], M.topology.Along s q) := by
      refine Spec.enterBeside (p := fun rest (z : Session σ ι) =>
          (∃ q ∈ rest, M.topology.Along s q) ∨ z.Settled M.topology i₀ s)
        (fun r hr _ rest => enter_next hJ hT hv hnot hr rest (endEnter hJ hT hn hs hstate
          (x := .region r) (Topology.mem_regions.2 ⟨v, hv, hr⟩) fun _ => rfl))
        fun hnext rest => ?_
      rw [Machine.beginEnter_region hT (Topology.mem_regions.2 ⟨v, hv, hnext⟩)]
      refine mono (inert hJ hT fun step h => List.mem_singleton.1 h ▸ trivial) ?_ id
      rintro ⟨q, hq, h⟩
      rcases List.mem_cons.1 hq with rfl | hq
      · exact absurd h halong
      · exact ⟨q, hq, h⟩
    have hvs := hT.isState_of_regions v (List.ne_nil_of_mem hr)
    exact hbeside.mono (hT.exists_along_of_within hs hnot hvs)
      fun ⟨q, hq, _⟩ => absurd hq List.not_mem_nil

theorem externalSteps {t : TransitionId} {x : VertexId} {effects : List (Action σ)}
    (ht : M.topology.Clear s t) (hx : (M.topology.transition t).target = some x) :
    Calms M.topology J i₀ s (M.topology.LooseThrough s t)
      ((engine M M.compile n).performAll trigger false
        (M.externalSteps M.compile (M.topology.transition t).source x effects))
      (M.topology.LooseBeyond s t) := by
  have hxv := ht.mem_vertices hx
  have hi : Machine.splitIndex (M.topology.vertexAncestry (M.topology.transition t).source)
      (M.topology.vertexAncestry x) < (M.topology.vertexAncestry x).length :=
    Machine.splitIndex_lt (Topology.vertexAncestry_ne_nil x)
  unfold Machine.externalSteps
  refine Spec.append (Spec.append (Spec.append (inert hJ hT (Machine.inert_leave hT _))
    (inert hJ hT (Step.inert_behaviors _)))
    ((enterPath hJ hT hn hs hstate hxv hi).pre fun z _ => Or.imp ?_ id))
    ((endEnter hJ hT hn hs hstate (x := .vertex x) hxv fun _ => rfl).post fun _ z _ =>
      Or.imp (fun h => .inr ⟨x, hx, h⟩) id)
  intro h
  obtain ⟨hdeparts, -, y, hy, hr⟩ := ht.departs h
  obtain rfl : x = y := Option.some.inj (hx.symm.trans hy)
  exact hT.looseBefore_of_split hs hxv hr (hdeparts.imp id And.right) hi

theorem traversal {t : TransitionId} (ht : M.topology.Clear s t) :
    Calms M.topology J i₀ s (M.topology.LooseThrough s t)
      ((engine M M.compile n).performAll trigger false (M.compile.traversal t))
      (M.topology.LooseBeyond s t) := by
  refine Machine.traversal_cases (p := fun steps => Calms M.topology J i₀ s
    (M.topology.LooseThrough s t) ((engine M M.compile n).performAll trigger false steps)
    (M.topology.LooseBeyond s t)) ht.1.1 (fun hno => ?_)
    (fun x hx hkind _ => Spec.single
      (hn.perform (.traverseWithin t) trigger false ⟨ht.1.1, hkind⟩ ht.2))
    fun x hx _ => externalSteps hJ hT hn hs hstate ht hx
  refine mono (p := False) (q := False) (Spec.internalSteps (inert hJ hT (Step.inert_behaviors _))
    (mono (hn.perform (.completeInternal _) trigger false
      (hT.source_of_mem_transitions ht.1.1).1 trivial) False.elim ht.1.2) fun _ _ => id)
    (fun h => ?_) False.elim
  obtain ⟨-, hkind, x, hx, -⟩ := ht.departs h
  exact hkind (hno x hx)

/-! ## Operations -/

omit hT hJ hs hstate in
theorem offerCompletion {v : VertexId} (hv : v ∈ M.topology.vertices) (hvs : M.topology.isState v) :
    Calms M.topology J i₀ s (M.topology.isDescendant v s ∨ v = s)
      (Engine.offerCompletion M (engine M M.compile n) v) (M.topology.isDescendant v s) := by
  refine Spec.offerCompletion ((hn.offer v (.completion v) hv hvs).pre fun _ _ h => ?_)
    fun z _ h hc => ?_
  · exact h.1.imp (Or.imp id fun h => ⟨h, congrArg _ h⟩) id
  · rcases h with (h | rfl) | h
    · exact .inl h
    · exact .inr (.inr fun hw => hc hw.2)
    · exact .inr h

/-- Entering the last known state of a region settles what is loose there, unless it is `s`. -/
theorem enterKnown {r : RegionId} {v : VertexId} (hv : M.topology.Holds r v)
    (hvs : M.topology.isState v) (hnot : ¬M.topology.Inside s r)
    (h : v ∈ M.topology.vertexAncestry s → deep = false ∧ v ≠ s) :
    Calms M.topology J i₀ s (M.topology.Along s r)
      (Engine.enterElement M.compile (engine M M.compile n) (.vertex v) trigger deep) False := by
  refine (enterVertex hJ hT hn hs hstate hv.1 fun hexposed => ?_).mono
    (fun halong => .inr (.inr ⟨r, hv.2, halong⟩)) (hT.not_looseAfter_of_state hv.2 hvs hnot ?_)
  · exact (h (hexposed.resolve_right fun hp => hp.1.1 hvs)).1
  · rintro rfl
    exact (h (Topology.mem_vertexAncestry_self v)).2 rfl

theorem resume {v : VertexId} (hv : v ∈ M.topology.vertices) {k : PseudoKind}
    (hk : M.topology.kind v = .pseudo k)
    (hdeep : M.topology.Exposed s (.vertex v) → deep = false)
    (hnot : ¬M.topology.isDescendant v s) :
    CalmsFrom M.topology J i₀ s (fun z => z.Between M.topology i₀ s (.vertex v))
      (Engine.resume M M.compile (engine M M.compile n) v trigger deep) False := by
  have hpseudo : ¬M.topology.isState v :=
    Topology.not_isState_of_pseudoKind? (Topology.pseudoKind?_eq hk)
  have hbeside : M.topology.LooseWithin s (.vertex v) → M.topology.Beside s v := fun h =>
    (hT.beside_of_within hs hstate (fun hmem => hnot (Topology.isDescendant_iff.2
      ⟨hmem, fun he => hpseudo (he ▸ hstate)⟩)) (Topology.pseudoKind?_eq hk) h).2
  refine Spec.resume hT hJ (Session.stable_lawful hJ) (Session.stable_between hJ)
    (fun hd r hr state z hz h => ?_) fun t ht => ?_
  · have hlisted := (hT.listed_of_parent hv hr).1
    have hholds := hJ.holds hz.lawful h.2 hT hlisted
    have htame : Tame M.topology J (Engine.enterElement (ι := ι) M.compile (engine M M.compile n)
        (.vertex state) trigger (deep || M.topology.pseudoKind? v = some .deepHistory)) :=
      tame_enterElement hJ hT (.vertex state)
    by_cases hpast : M.topology.Restores s v ∧ state ∈ M.topology.vertexAncestry s
    · -- the history resumes what is on the way
      have hexcused := h.1.1 ⟨hpast.1, r, hr, state, h.2, hpast.2, hholds.2⟩
      exact of_excused hJ htame (fun _ _ h => h) z hz hexcused
    · refine enterKnown hJ hT hn hs hstate hholds (hJ.isState hz.lawful h.2)
        (fun hi => hnot ((hT.isDescendant_of_parent hr).2 hi)) (fun hway => ?_) z hz
        (h.1.2.imp (fun h => Topology.along_of_near hr (.inr (hbeside h))) id)
      have hno : ¬M.topology.Restores s v := fun h => hpast ⟨h, hway⟩
      have hfalse := hdeep (.inr ⟨⟨hpseudo, fun h => hno (.inl h)⟩, r, hr, state, hway, hholds.2⟩)
      exact Topology.apart_of_not_restores hfalse hd hno hr hholds.2
  · have hsource := (hT.mem_outgoing v t ht).2
    refine (hn.fire t trigger (Topology.mem_transitions.2 ⟨v, hv, ht⟩)).conseq
      (fun z _ h => h.2.imp (fun h => ?_) id) fun _ _ _ => Or.imp (fun h => hnot (hsource ▸ h)) id
    exact .inr (.inr ⟨hsource ▸ hpseudo, hsource ▸ hbeside h⟩)

theorem enterRegion {r : RegionId} (hr : r ∈ M.topology.regions) {initial : Option VertexId}
    (hinitial : M.topology.regionInitial r = initial)
    (hdeep : M.topology.Along s r → deep = false) (hnot : ¬M.topology.Inside s r) :
    CalmsFrom M.topology J i₀ s (fun z => z.Between M.topology i₀ s (.region r))
      (Engine.enterRegion M M.compile (engine M M.compile n) r initial trigger deep) False := by
  have hparent : ∀ {v}, initial = some v → (M.topology.vertex v).parent = some r := fun hv =>
    (hT.mem_vertices r _ (Topology.regionInitial_mem (hinitial.trans hv))).2
  have htame : ∀ v, Tame (ι := ι) M.topology J (Engine.enterElement M.compile (engine M M.compile n)
      (.vertex v) trigger (deep || initial.bind M.topology.pseudoKind? = some .deepHistory)) :=
    fun v => tame_enterElement hJ hT (.vertex v)
  refine Spec.enterRegion (fun hd v z hz h => ?_) (fun v hv => ?_) fun hnone => ?_
  · have hholds := hJ.holds hz.lawful h.2 hT hr
    by_cases hpast : v ∈ M.topology.vertexAncestry s
        ∧ ∀ w ∈ M.topology.regionInitial r, M.topology.Restores s w
    · -- the entry resumes what is on the way
      have hexcused := h.1.1 (.inr ⟨⟨v, h.2, hpast.1, hholds.2⟩, hpast.2⟩)
      exact of_excused hJ (htame v) (fun _ _ h => h) z hz hexcused
    · refine enterKnown hJ hT hn hs hstate hholds (hJ.isState hz.lawful h.2) hnot
        (fun hway => ?_) z hz (h.1.2.imp (fun h => h.resolve_left hnot) id)
      have hfalse := hdeep ⟨v, hway, hholds.2⟩
      cases initial with
      | none =>
        rw [hfalse] at hd
        cases hd
      | some w =>
        refine Topology.apart_of_not_restores hfalse hd (fun hw => hpast ⟨hway, fun u hu => ?_⟩)
          (hparent rfl) hholds.2
        exact Option.some.inj (hinitial.symm.trans hu) ▸ hw
  · have hi := hinitial.trans hv
    by_cases he : v = s
    · exact of_excused hJ (htame v) fun z _ h => h.1 (.inl (hi.trans (congrArg some he)))
    · refine (enterVertex hJ hT hn hs hstate (hT.mem_vertices_of_region hr
        (Topology.regionInitial_mem hi)) fun hexposed => ?_).conseq (fun z _ h => h.2.imp ?_ id)
          fun _ z _ => Or.imp (fun h => hnot (hT.inside_of_initial hs hstate he hi h)) id
      · rw [hdeep (Topology.along_of_exposed (hparent hv) hexposed), hv, Bool.false_or]
        refine decide_eq_false fun hk => ?_
        rcases hexposed with hway | hp
        · exact Topology.not_isState_of_pseudoKind? hk (hT.isState_of_mem_way hs hstate hway)
        · exact hp.1.2 hk
      · exact fun h => .inr (.inr ⟨r, hparent hv, h.resolve_left hnot⟩)
  · -- nothing is entered, and `s` is active only if the region recalls it
    have htell : Calms M.topology J i₀ s False (if (M.topology.region r).vertices.isEmpty then
        (Pure.pure () : Run σ ι Unit) else Run.say .warn (M.topology.qualifiedName (.region r) ++
          ": region has no initial vertex to enter")) False :=
      Spec.ite (fun _ => Spec.pure fun _ _ => id) fun _ =>
        quiet hJ (Run.Adds.say (fun _ _ => trivial) _ _)
    refine htell.pre fun z _ h => .inr (h.2.elim (fun hloose => ?_) id)
    by_cases hrecalls : Instance.Recalls M.topology s r z.inst
    · exact .inl (h.1 (.inr ⟨hrecalls, fun v hv => by
        rw [hinitial, hnone] at hv
        cases hv⟩))
    · exact .inr fun hw =>
        Instance.not_isActive_of_not_recalls (hloose.resolve_left hnot) hrecalls hw.1

omit hn hstate in
theorem setCurrent {r : RegionId} {v : VertexId} (hv : M.topology.Holds r v) :
    Calms M.topology J i₀ s (M.topology.LooseBefore s v)
      (Run.setCurrent (σ := σ) M.topology r v)
      (M.topology.isDescendant v s ∨ v ∈ M.topology.vertexAncestry s
        ∨ ¬M.topology.isState v ∧ M.topology.Beside s v) := by
  intro z hI hz
  have hreplay : z.Leads M.topology (fun _ => True) (Run.setCurrent M.topology r v z).2 :=
    .one trivial rfl rfl
  refine ⟨hI.leads hreplay (hJ.setCurrent hI.lawful hv), fun _ _ =>
    or_iff_not_imp_left.2 fun hloose => ?_⟩
  obtain ⟨hnd, hoff, hb⟩ := (not_or.1 hloose).imp_right not_or.1
  by_cases halong : M.topology.Along s r
  · have hvs : M.topology.isState v :=
      Classical.byContradiction fun h => hb ⟨h, r, hv.2, halong⟩
    exact .inr fun hw => not_isActive_setCurrent hJ hT hs hI.lawful hv halong hvs hoff hw.1
  · have hz : z.Settled M.topology i₀ s :=
      hz.resolve_left fun h => h.elim hnd fun h => halong (Topology.along_of_near hv.2 h)
    refine hz.imp (Session.Excused.leads hJ hreplay) fun hw hw' => hw ⟨?_, ?_⟩
    · exact (isActive_setCurrent hJ hT hs hI.lawful hv fun h => halong h.2).1 hw'.1
    · refine (isComplete_setCurrent hJ hs hI.lawful hv fun h => hnd ?_).1 hw'.2
      refine (hT.isDescendant_of_parent hv.2).2 ?_
      unfold Topology.Inside
      rw [(hT.mem_regions s r h.2).2]
      exact Topology.mem_vertexAncestry_self s

theorem traverseWithin {t : TransitionId} (ht : M.topology.Clear s t) :
    Calms M.topology J i₀ s (M.topology.LooseThrough s t)
      (Engine.traverseWithin M M.compile (engine M M.compile n) t trigger)
      (M.topology.LooseBeyond s t) := by
  refine Spec.traverseWithin hT hJ (Session.stable_lawful hJ) (Session.stable_loose hJ)
    (r := fun x z => z.Between M.topology i₀ s (.vertex x))
    (fun x hx i hi => ?_) fun x hx => ?_
  · have hxv := ht.mem_vertices hx
    refine (enterPath hJ hT hn hs hstate hxv hi).pre fun z _ h => ?_
    obtain ⟨h | h, htake⟩ := h
    · obtain ⟨-, -, y, hy, hr⟩ := ht.departs h
      obtain rfl : x = y := Option.some.inj (hx.symm.trans hy)
      by_cases hactive : Instance.isActive M.topology z.inst s
      · exact .inl (hT.looseBefore_of_active hs hxv hr hactive hi htake)
      · exact .inr (.inr fun hw => hactive hw.1)
    · exact .inr h
  · exact (endEnter hJ hT hn hs hstate (x := .vertex x) (ht.mem_vertices hx)
      fun _ => rfl).post fun _ _ _ => Or.imp (fun h => .inr ⟨x, hx, h⟩) id

theorem performStep {step : Step σ} (hfits : M.Fits step)
    (hplain : step.Plain M.topology s deep) :
    CalmsFrom M.topology J i₀ s (step.Before M.topology i₀ s)
      (Engine.performStep M M.compile (engine M M.compile n) step trigger deep)
      (step.LooseAfter M.topology s) := by
  have htame : Tame M.topology J
      (Engine.performStep (ι := ι) M M.compile (engine M M.compile n) step trigger deep) := by
    refine (engine_tame hT hJ (n + 1)).perform step trigger deep ?_
    cases step with
    | setCurrent r v => exact hfits
    | _ => trivial
  have hinert : step.Inert → ∀ p, Calms M.topology J i₀ s p
      (Engine.performStep M M.compile (engine M M.compile n) step trigger deep) p :=
    fun h _ => quiet hJ
      (engine_perform_quiet (Machine.inert_leave hT) (n + 1) step trigger deep h)
  cases step with
  | enter | leave | behavior | leaveActive => exact hinert trivial False
  | setCurrent r v => exact setCurrent hJ hT hs hfits
  | enterRegion r initial =>
    by_cases h : M.topology.Inside s r
    · exact of_after htame h
    · exact (enterRegion hJ hT hn hs hstate hfits.1 hfits.2 hplain h).post
        fun _ _ _ => Or.imp False.elim id
  | resume v =>
    obtain ⟨hv, k, hk, -⟩ := hfits
    by_cases h : M.topology.isDescendant v s
    · exact of_after htame h
    · exact (resume hJ hT hn hs hstate hv hk hplain h).post fun _ _ _ => Or.imp False.elim id
  | terminate => exact fun z hz _ => ⟨hz.tame htame, fun _ _ =>
    .inr (.inl (.inl (hJ.isTerminated_terminate z.inst)))⟩
  | completeInternal v =>
    refine Spec.ite (fun hvs => offerCompletion hn hfits hvs) fun hvs =>
      Spec.pure fun z _ h => h.imp (fun h => h.resolve_right ?_) id
    rintro rfl
    exact hvs hstate
  | traverseWithin t =>
    by_cases h : M.topology.isDescendant (M.topology.transition t).source s
    · exact of_after htame (.inl h)
    · exact traverseWithin hJ hT hn hs hstate ⟨⟨hfits.1, h⟩, hplain⟩

omit hs in
/-- At the target of a transition that does not go past the completion of `s`, what is still loose
is settled by going on or by the completion of the target. -/
theorem leadOn {u : TransitionId} {x : VertexId} (hu : M.topology.Clear s u)
    (hx : (M.topology.transition u).target = some x)
    (hk : M.topology.pseudoKind? x ≠ some .junction) :
    Calms M.topology J i₀ s (M.topology.LooseBeyond s u)
      (Engine.leadOn M (engine M M.compile n) trigger x) False := by
  refine Spec.leadOn (Session.stable_lawful hJ).steady (Session.stable_loose hJ).steady
    (fun hc w hw => ?_) (fun hxs => ?_) fun hc hxs z _ h => h.imp (fun h => ?_) id
  · have hns : ¬M.topology.isState x := Topology.not_isState_of_pseudoKind? hc
    have hlead := hT.elsewhere_of_clear hu hx hw
    exact (hn.fire w trigger hlead.1).mono (hT.looseFrom_of_clear hstate hu hx hns hw) hlead.2
  · refine (offerCompletion hn (hu.mem_vertices hx) hxs).mono (fun h => ?_)
      (hu.not_isDescendant_target hx)
    obtain h | ⟨hk, -⟩ := hu.looseBeyond_cases hx h
    · exact .inr h
    · rcases hk with hk | hk <;> exact absurd hxs (Topology.not_isState_of_pseudoKind? hk)
  · obtain rfl | ⟨hk', -⟩ := hu.looseBeyond_cases hx h
    · exact hxs hstate
    · exact hk'.elim hc hk

omit hJ hT hn hs hstate in
/-- A transition that goes past the completion of `s` is excused by the event with which it is
traversed. -/
theorem traversed (u : TransitionId) :
    Spec (fun z => z.Lawful M.topology J i₀)
      (fun z => (¬M.topology.Elsewhere s u → z.Excused M.topology i₀ s)
        ∧ (M.topology.LooseFrom s u ∨ z.Settled M.topology i₀ s))
      (Run.record (.traversed u) : Run σ ι Unit)
      fun _ z => (¬M.topology.Clear s u → z.Excused M.topology i₀ s)
        ∧ (M.topology.LooseThrough s u ∨ z.Settled M.topology i₀ s) := by
  refine fun z hz h => ⟨hz.record rfl, fun _ _ => ⟨fun hno => ?_, ?_⟩⟩
  · by_cases hu : M.topology.Elsewhere s u
    · refine .of_loses hz ?_
      by_cases hout : M.topology.LeadsOut u
      · exact .inl hout
      · exact .inr (.inl (Classical.byContradiction fun h => hno ⟨hu, hout, h⟩))
    · exact (h.1 hu).record _
  · rcases h.2 with (hd | hdeparts) | h
    · exact .inl (.inl hd)
    · by_cases hsupplants : M.topology.Supplants s u
      · exact .inl (.inr ⟨hdeparts, hsupplants⟩)
      · by_cases hactive : Instance.isActive M.topology z.inst s
        · exact .inr (.inl (.of_loses hz (.inr (.inr ⟨hactive, hdeparts, hsupplants⟩))))
        · exact .inr (.inr fun hw => hactive hw.1)
    · exact .inr (h.record _)

theorem fireTransition {t : TransitionId} (ht : M.topology.Elsewhere s t) :
    Calms M.topology J i₀ s (M.topology.LooseFrom s t)
      (Engine.fireTransition M M.compile (engine M M.compile n) t trigger) False := by
  have hstable : ∀ c p : Prop, Session.Stable M.topology fun z : Session σ ι =>
      (c → z.Excused M.topology i₀ s) ∧ (p ∨ z.Settled M.topology i₀ s) := fun c p =>
    .and (fun z z' h hz hc => (hz hc).leads hJ h) (Session.stable_loose hJ)
  refine (Spec.fireTransition (q := fun z => False ∨ z.Settled M.topology i₀ s)
    (b := fun u z => (¬M.topology.Elsewhere s u → z.Excused M.topology i₀ s)
      ∧ (M.topology.LooseFrom s u ∨ z.Settled M.topology i₀ s))
    (a := fun u z => (¬M.topology.Clear s u → z.Excused M.topology i₀ s)
      ∧ (M.topology.LooseBeyond s u ∨ z.Settled M.topology i₀ s))
    (Session.stable_lawful hJ).steady (fun u => (hstable _ _).steady) (fun u => ?_)
    (fun u w v hv hk hw z _ h => ?_) (fun u x hx hk => ?_) (fun u hnone z _ h => ?_) t).pre
      fun z _ h => ⟨absurd ht, h⟩
  · exact (traversed u).bind fun _ => of_fits hJ
      (tame_performAll hJ hT ((Machine.all_fits hT).traversal u))
        fun hu => traversal hJ hT hn hs hstate hu
  · have hns : ¬M.topology.isState v := Topology.not_isState_of_pseudoKind? hk
    by_cases hu : M.topology.Clear s u
    · exact ⟨absurd (hT.elsewhere_of_clear hu hv hw),
        h.2.imp (hT.looseFrom_of_clear hstate hu hv hns hw) id⟩
    · exact ⟨fun _ => h.1 hu, .inr (.inl (h.1 hu))⟩
  · have htame := Engine.Related.leadOn (tame_uniform hJ) (engine_tame hT hJ n) trigger x
    exact (of_fits hJ htame fun hu => leadOn hJ hT hn hstate hu hx hk).post fun _ _ _ h => h.2
  · by_cases hu : M.topology.Clear s u
    · refine h.2.imp (fun h => ?_) id
      obtain hd | ⟨x, hx, -⟩ := h
      · exact hu.1.2 hd
      · exact absurd (hnone.symm.trans hx) (Option.some_ne_none x).symm
    · exact .inr (.inl (h.1 hu))

omit hs hstate in
theorem offerState {v : VertexId} (hv : v ∈ M.topology.vertices) (hvs : M.topology.isState v)
    (hne : v ≠ s) (hnot : ¬M.topology.isDescendant v s) :
    Calms M.topology J i₀ s False (Engine.offerState M (engine M M.compile n) v trigger) False := by
  have hregions : Spec (fun z : Session σ ι => z.Lawful M.topology J i₀)
      (fun z => False ∨ z.Settled M.topology i₀ s)
      (Engine.offerRegions M (engine M M.compile n) v trigger (M.topology.vertex v).regions)
      fun b z => if b then False ∨ z.Settled M.topology i₀ s
        else False ∨ z.Settled M.topology i₀ s := by
    refine Spec.offerRegions (fun r hr w z hI h => ?_) (fun _ _ h _ => h) (fun _ _ h => h) _
      fun _ h => h
    have hr' := Topology.mem_regions.2 ⟨v, hv, hr⟩
    have hw := hJ.holds hI.lawful h.2 hT hr'
    refine Spec.either ((hn.offer w trigger hw.1 (hJ.isState hI.lawful h.2)).mono False.elim ?_)
      z hI h.1
    refine fun hd => hnot (Topology.isDescendant_iff.2 ⟨?_, hne.symm⟩)
    rw [← (hT.mem_regions v r hr).2]
    exact (hT.isDescendant_of_parent hw.2).1 hd
  refine Spec.offerState (Session.stable_lawful hJ).steady (Session.stable_loose hJ).steady
    (fun _ => hregions) ((offerCompletion hn hv hvs).mono False.elim hnot) (fun t ht => ?_)
    fun _ _ h => h
  have hsource := (hT.mem_outgoing v t ht).2
  refine Spec.bind (r := fun _ z => False ∨ z.Settled M.topology i₀ s)
    (fun z hz h => ⟨hz.record rfl, fun _ _ =>
      h.imp id fun h => h.record _⟩) fun _ => ?_
  exact (hn.fire t trigger (Topology.mem_transitions.2 ⟨v, hv, ht⟩)).mono False.elim
    fun h => hnot (hsource ▸ h)

/-- An offer to `s` itself leaves it settled: its completion is taken, and what is beneath it takes
any other trigger or nothing happens. -/
theorem offerSelf {t : TransitionId} (hout : (M.topology.vertex s).outgoing = [t])
    (hguard : M.guard t = .completion s) :
    Calms M.topology J i₀ s (trigger = .completion s)
      (Engine.offerState M (engine M M.compile n) s trigger) False := by
  have hself : ¬M.topology.isDescendant s s := fun h => (Topology.isDescendant_iff.1 h).2 rfl
  have hstable : Session.Stable M.topology fun z : Session σ ι =>
      trigger = .completion s ∨ z.Settled M.topology i₀ s := Session.stable_loose hJ
  have htame : Tame M.topology J
      (Engine.offerBeneath (ι := ι) M (engine M M.compile n) s trigger) :=
    Engine.Related.offerBeneath (tame_uniform hJ) (engine_tame hT hJ n) trivial _ _
  refine Spec.offerState_parts (a := fun _ => True)
    (d := fun z => trigger = .completion s ∨ z.Settled M.topology i₀ s)
    (Session.stable_lawful hJ).steady hstable.steady
    (fun z hz hloose => ⟨hz.tame htame, fun b hb => ?_⟩)
    ((offerCompletion hn hs hstate).conseq (fun _ _ _ => .inl (.inr rfl)) fun _ _ _ =>
      Or.imp hself id) ?_
  · cases b with
    | true => trivial
    | false =>
      have hasks := offerBeneath_declines (fun w => engine_offer_declines n w trigger) z hb
      exact hstable z _ (hasks.leads Event.quiet_of_idle) hloose
  · rw [hout]
    refine .bind (.with_value (quiet hJ ((Run.Adds.passing _ _).mono Event.quiet_of_idle))
      fun _ _ => passing_completion hguard) fun ts => .pull fun hts => ?_
    subst hts
    by_cases hc : trigger = .completion s
    · subst hc
      rw [if_pos (show Trigger.isCompletionOf s (.completion s) from decide_eq_true rfl)]
      have hsource := (hT.mem_outgoing s t (hout ▸ List.mem_cons_self)).2
      refine Spec.bind (r := fun _ z => True)
        (fun z hz _ => ⟨hz.record rfl, fun _ _ => trivial⟩) fun _ => ?_
      exact (hn.fire t _ (Topology.mem_transitions.2 ⟨s, hs, hout ▸ List.mem_cons_self⟩)).conseq
        (fun _ _ _ => .inl (.inr (.inl hsource))) fun _ _ _ =>
          Or.imp (fun h => hself (hsource ▸ h)) id
    · rw [if_neg fun h => hc (Trigger.eq_of_isCompletionOf h)]
      exact Spec.pure fun _ _ h => .inr (h.resolve_left hc)

end Run.Calms

/-! ## The engine -/

variable {M : Machine σ} {J : ι → Prop} {i₀ : ι} {s : VertexId} {t : TransitionId}
  (hJ : Instance.Laws M.topology J) (hs : s ∈ M.topology.vertices) (hstate : M.topology.isState s)
  (hout : (M.topology.vertex s).outgoing = [t]) (hguard : M.guard t = .completion s)
include hJ hs hstate hout hguard

theorem engine_settles (hT : M.topology.WellFormed) : ∀ n, M.Settles J i₀ s n
  | 0 => ⟨fun _ _ _ _ _ => .exhausted, fun _ _ _ _ => .exhausted, fun _ _ _ => .exhausted⟩
  | n + 1 => by
    have hn := engine_settles hT n
    have htame := engine_tame hT hJ (n + 1)
    refine ⟨fun _ _ _ hfits hplain => Run.Calms.performStep hJ hT hn hs hstate hfits hplain,
      fun v trigger hv hvs => ?_, fun u trigger hu => ?_⟩
    · by_cases hd : M.topology.isDescendant v s
      · exact .of_after (htame.offer trivial v trigger) hd
      · by_cases he : v = s
        · subst he
          exact (Run.Calms.offerSelf hJ hT hn hs hstate hout hguard).mono
            (fun h => (h.resolve_left hd).2) False.elim
        · exact (Run.Calms.offerState hJ hT hn hv hvs he hd).mono
            (fun h => h.elim hd fun h => he h.1) False.elim
    · by_cases hd : M.topology.isDescendant (M.topology.transition u).source s
      · exact .of_after (htame.fire u trigger) hd
      · exact (Run.Calms.fireTransition hJ hT hn hs hstate ⟨hu, hd⟩).mono id False.elim

end

end Hsm
