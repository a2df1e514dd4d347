import Hsm.Proofs.Engine.Rules
import Hsm.Proofs.Instance.Agreement

/-!
# When states take transitions

A message is taken by active states only, and the completion of a state by that state alone, when
its work is finished by what the last known states say (`taken_due`). Last known states outlive
their region, so a state may take its completion after it was left (`left_state_completes`).
-/

namespace Hsm

variable {σ ι : Type}

section

variable [Instance ι]

/-- The state is one to take the trigger. -/
def Trigger.Due (T : Topology) (i : ι) (v : VertexId) : Trigger → Prop
  | .initialise => False
  | .message _ => Instance.isActive T i v
  | .completion w => v = w ∧ Instance.isComplete T i v

/-- If a state takes a transition, it is one of its own, and the trigger is due. -/
def Event.Due (T : Topology) (i : ι) : Event → Prop
  | .selected v t trigger => t ∈ (T.vertex v).outgoing ∧ trigger.Due T i v
  | _ => True

/-- Each of the events, of which the newest comes first, was due after those before it. -/
def Instance.AllDue (T : Topology) (i : ι) (events : List Event) : Prop :=
  ∀ e before, e :: before <:+ events → e.Due T (replay T before i)

theorem Trigger.Due.of_alike {T : Topology} {i j : ι} {v : VertexId} :
    ∀ {trigger : Trigger}, trigger.Due T i v → Instance.Alike T i j → trigger.Due T j v
  | .initialise, h, _ => h
  | .message _, h, halike => (halike.isActive v).trans h
  | .completion _, h, halike => ⟨h.1, (halike.isComplete v).trans h.2⟩

namespace Event

variable {T : Topology} {e : Event}

theorem due_of_not_isOffer (h : ¬e.IsOffer) (i : ι) : e.Due T i := by
  cases e with
  | selected v t trigger => exact absurd trivial h
  | _ => trivial

theorem due_of_quiet (h : e.Quiet) (i : ι) : e.Due T i := by
  cases e with
  | selected v t trigger => exact h.elim
  | _ => trivial

end Event

namespace Instance

variable {T : Topology} {i : ι}

theorem allDue_nil : AllDue T i [] := fun _ _ h => nomatch List.suffix_nil.1 h

theorem AllDue.cons {e : Event} {es : List Event} (h : AllDue T i es)
    (he : e.Due T (replay T es i)) : AllDue T i (e :: es) := fun x before hx => by
  rcases List.suffix_cons_iff.1 hx with hx | hx
  · obtain ⟨rfl, rfl⟩ := List.cons.inj hx
    exact he
  · exact h x before hx

/-- However the events are cut, with the oldest first, the next was due after those before. -/
theorem AllDue.of_split {e : Event} {before after events : List Event}
    (h : AllDue T i events.reverse) (hs : events = before ++ e :: after) :
    e.Due T (replay T before.reverse i) :=
  h e before.reverse ⟨after.reverse, by simp [hs]⟩

theorem AllDue.append {es es' : List Event} (h : AllDue T i es)
    (hes : ∀ e ∈ es', ∀ j : ι, e.Due T j) : AllDue T i (es' ++ es) := by
  induction es' with
  | nil => exact h
  | cons e es' ih =>
    exact (ih fun x hx => hes x (List.mem_cons_of_mem _ hx)).cons (hes e List.mem_cons_self _)

end Instance

/-- The instance is what its events made of `i₀`, those on the trail after those in the past, and
each of them was due. -/
structure Session.Faithful (T : Topology) (J : ι → Prop) (i₀ : ι) (past : List Event)
    (s : Session σ ι) : Prop where
  lawful : J s.inst
  inst : s.inst = Instance.replay T (s.trail ++ past) i₀
  due : Instance.AllDue T i₀ (s.trail ++ past)

namespace Session.Faithful

variable {T : Topology} {J : ι → Prop} {i₀ : ι} {past : List Event} {s s' : Session σ ι}

theorem leads {q : Event → Prop} (h : s.Faithful T J i₀ past) (hs : s.Leads T q s')
    (hq : ∀ e : Event, q e → ∀ i : ι, e.Due T i) (hJ : J s'.inst) : s'.Faithful T J i₀ past := by
  obtain ⟨es, htrail, hes, hinst⟩ := hs
  refine ⟨hJ, ?_, ?_⟩
  · rw [hinst, h.inst, htrail, List.append_assoc, Instance.replay_append T es]
  · rw [htrail, List.append_assoc]
    exact h.due.append fun e he => hq e (hes e he)

theorem stable (hJ : Instance.Orderly T J) :
    Stable T (Faithful (σ := σ) T J i₀ past) :=
  fun _ _ hs h => h.leads hs (fun _ => Event.due_of_quiet) (hJ.stable _ _ hs h.lawful)

theorem selected (h : s.Faithful T J i₀ past) {v : VertexId} {t : TransitionId}
    {trigger : Trigger} (ht : t ∈ (T.vertex v).outgoing) (hdue : trigger.Due T s.inst v) :
    Faithful T J i₀ past { s with trail := .selected v t trigger :: s.trail } :=
  ⟨h.lawful, h.inst, h.due.cons ⟨ht, h.inst ▸ hdue⟩⟩

end Session.Faithful

variable {M : Machine σ} {J : ι → Prop} {i₀ : ι} {past : List Event}

/-- Whatever is not an offer is due. -/
theorem faithful_uniform (hJ : Instance.Orderly M.topology J) :
    Run.Uniform (ι := ι) (κ := ι) M M.topology.Holds False fun _ x _ =>
      ∀ s, s.Faithful M.topology J i₀ past → (x s).2.Faithful M.topology J i₀ past :=
  ((keeps_uniform hJ.toKept).and (adds_uniform fun _ h => h)).weaken
    (fun hx s h => h.leads (hx.2 s) (fun _ => Event.due_of_not_isOffer) (hx.1 s h.lawful))
    Run.keeps_bind

/-- The engine keeps sessions faithful, if what is offered is due. -/
structure Machine.Dues (M : Machine σ) (J : ι → Prop) (i₀ : ι) (past : List Event) (n : Nat) :
    Prop where
  related : (engine (ι := ι) M M.compile n).Related M M.topology.Holds False
    (fun _ x (_ : Run σ ι _) => ∀ s,
      s.Faithful M.topology J i₀ past → (x s).2.Faithful M.topology J i₀ past)
    (engine M M.compile n)
  offer : ∀ v trigger, Run.Spec (Session.Faithful M.topology J i₀ past)
    (fun s : Session σ ι => trigger.Due M.topology s.inst v)
      ((engine M M.compile n).offer v trigger) fun _ _ => True

namespace Run.Spec

variable {I p : Session σ ι → Prop} {n : Nat} {v : VertexId} {trigger : Trigger}

omit [Instance ι] in
theorem of_keeps {α : Type} {x : Run σ ι α} (h : ∀ s, I s → I (x s).2) :
    Spec I p x fun _ _ => True :=
  fun s hs _ => ⟨h s hs, fun _ _ => trivial⟩

variable (hJ : Instance.Orderly M.topology J) (hT : M.topology.WellFormed)
  (hn : M.Dues J i₀ past n)
include hJ hT hn

/-- A message comes from an active state to one that is last known in a region of it. After a
negative answer nothing has changed, and after a positive one the state has to be active still. -/
theorem offerRegions_due (hc : ¬trigger.isCompletionOf v) :
    Spec (Session.Faithful M.topology J i₀ past) (fun s => trigger.Due M.topology s.inst v)
      (Engine.offerRegions M (engine M M.compile n) v trigger (M.topology.vertex v).regions)
      fun b s => if b then True else trigger.Due M.topology s.inst v := by
  cases trigger with
  | initialise => exact fun _ _ h => h.elim
  | completion w => exact fun _ _ h => absurd (decide_eq_true h.1.symm) hc
  | message m =>
    refine offerRegions (q := fun _ => True) (fun r hr w s hI h => ?_) (fun _ _ _ h => h)
      (fun _ _ _ => trivial) _ fun _ h => h
    obtain ⟨hactive, hw⟩ := h
    have hparent := (hT.mem_regions v r hr).2
    have hdue : Instance.isActive M.topology s.inst w :=
      (hT.isActiveIn_of_parent (hJ.parent_eq hI.lawful hw hT)).2 ⟨hparent ▸ hactive, hw⟩
    refine ⟨(hn.offer w (.message m) s hI hdue).1, fun b hb => ?_⟩
    cases b with
    | true => trivial
    | false =>
      have hasks := engine_offer_declines n w (.message m) s hb
      exact hasks.inst ▸ hactive

theorem offerState_due :
    Spec (Session.Faithful M.topology J i₀ past) (fun s => trigger.Due M.topology s.inst v)
      (Engine.offerState M (engine M M.compile n) v trigger) fun _ _ => True := by
  refine offerState (a := fun _ => True) (Session.Faithful.stable hJ).steady
    (hJ.stable_of_alike (p := fun i => trigger.Due M.topology i v) fun _ _ h hdue =>
      hdue.of_alike h).steady (offerRegions_due hJ hT hn)
    (of_keeps (hn.related.offerCompletion v)) (fun t ht => ?_) fun _ _ _ => trivial
  refine bind (r := fun _ _ => True) (fun s hI hdue => ⟨hI.selected ht hdue, fun _ _ => trivial⟩)
    fun _ => of_keeps (hn.related.fire t trigger)

end Run.Spec

theorem engine_dues (hJ : Instance.Orderly M.topology J) (hT : M.topology.WellFormed) :
    ∀ n, M.Dues J i₀ past n
  | 0 => ⟨.zero (faithful_uniform hJ), fun _ _ => .exhausted⟩
  | n + 1 => by
    have hn := engine_dues hJ hT n
    have hoffer : ∀ v trigger, Run.Spec (Session.Faithful M.topology J i₀ past)
        (fun s : Session σ ι => trigger.Due M.topology s.inst v)
        ((engine M M.compile (n + 1)).offer v trigger) fun _ _ => True :=
      fun v trigger => Run.Spec.offerState_due hJ hT hn
    refine ⟨.succ (faithful_uniform hJ) (Machine.all_allowed hT) hn.related False.elim
      fun v s hs => ?_, hoffer⟩
    have hcompletion : Run.Spec (Session.Faithful M.topology J i₀ past) (fun _ => True)
        (Engine.offerCompletion M (engine M M.compile (n + 1)) v) fun _ _ => True :=
      .offerCompletion ((hoffer v (.completion v)).pre fun _ _ h => ⟨rfl, h.2⟩)
        fun _ _ _ _ => trivial
    exact (hcompletion s hs trivial).1

theorem startRun_faithful (hJ : Instance.Orderly M.topology J) (hT : M.topology.WellFormed)
    (depth : Nat) {s : Session σ ι} (hs : s.Faithful M.topology J i₀ past) :
    (M.startRun depth M.compile s).2.Faithful M.topology J i₀ past :=
  startRun_related (faithful_uniform hJ) (engine_dues hJ hT depth).related
    (Machine.all_allowed hT).onInitialise s hs

/-- The machine itself is always active. -/
theorem evaluateRun_faithful (hJ : Instance.Orderly M.topology J) (hT : M.topology.WellFormed)
    (depth : Nat) (message : String) {s : Session σ ι} (hs : s.Faithful M.topology J i₀ past) :
    (M.evaluateRun depth message M.compile s).2.Faithful M.topology J i₀ past := by
  have hdues : M.Dues J i₀ past depth := engine_dues hJ hT depth
  exact (Run.Spec.evaluateRun (p := fun _ => True) (q := fun _ => True)
    (Session.Faithful.stable hJ).steady (fun _ _ _ h => h)
    ((hdues.offer Topology.root (.message message)).pre fun _ _ _ => hT.isActiveIn_root)
    (fun _ _ _ _ => trivial) s hs trivial).1

theorem Machine.idle_of_mem_preamble {e : Event} (h : e ∈ M.preamble) : e.Idle := by
  unfold preamble initialiseEvents at h
  split at h
  · exact absurd h List.not_mem_nil
  · rcases List.mem_cons.1 h with rfl | h
    · trivial
    · obtain ⟨f, -, rfl⟩ := List.mem_map.1 h
      trivial

/-- Wherever calls lead, the instance is what the events made of it, and each event was due. -/
theorem faithful_of_visits {allowed : Edit σ → Prop} (hM : M.Reachable allowed)
    (hJ : Instance.Orderly M.topology J) (h₀ : J i₀) {accepted : Result (Option Bool) → Prop}
    {events : List Event} {M' : Machine σ} {i : ι} (h : M.Visits accepted i₀ events M' i) :
    J i ∧ i = Instance.replay M.topology events.reverse i₀ ∧
      Instance.AllDue M.topology i₀ events.reverse := by
  have hT := hM.wellFormed
  have hpast : ∀ {past : List Event} {s : Session σ ι},
      s.Faithful M.topology J i₀ past.reverse →
        J s.inst ∧ s.inst = Instance.replay M.topology (past ++ s.trail.reverse).reverse i₀ ∧
          Instance.AllDue M.topology i₀ (past ++ s.trail.reverse).reverse := fun h => by
    rw [List.reverse_append, List.reverse_reverse]
    exact ⟨h.lawful, h.inst, h.due⟩
  refine h.induction hM (I := fun events i => J i ∧ i = Instance.replay M.topology events.reverse i₀
    ∧ Instance.AllDue M.topology i₀ events.reverse) (fun depth env e he _ => ?_)
    fun source events i depth env message hi e he _ => ?_
  · subst he
    have hidle : ∀ e ∈ M.preamble.reverse, e.Idle := fun e he =>
      M.idle_of_mem_preamble (List.mem_reverse.1 he)
    refine hpast (startRun_faithful (M := M.ready M.settings.source) hJ hT depth ⟨h₀, ?_, ?_⟩)
    · exact (Instance.replay_idle hidle).symm
    · exact List.append_nil M.preamble.reverse ▸ Instance.allDue_nil.append fun e he =>
        Event.due_of_quiet (e.quiet_of_idle (hidle e he))
  · subst he
    obtain ⟨hlawful, hinst, hdue⟩ := hi
    exact hpast (evaluateRun_faithful (M := M.ready source) hJ hT depth message
      ⟨hlawful, hinst, hdue⟩)

end

theorem TreeInstance.orderly (T : Topology) :
    Instance.Orderly T fun _ : TreeInstance => True where
  trace _ := id
  alike_trace _ _ := ⟨fun _ => rfl, rfl⟩
  terminate := id
  setCurrent h _ := h
  listed _ _ _ hv := mem_of_lastKnown hv

/-- However calls end: whenever a state took a message it was active in the instance that the events
before had made, and whenever a state took a completion it was its own and the state complete. -/
theorem taken_due {M : Machine σ} {allowed : Edit σ → Prop} (hM : M.Reachable allowed)
    (name : String) :
    (∀ {events : List Event} {M' : Machine σ} {i : TableInstance},
      M.Visits (fun _ => True) ⟨name, {}, {}, false⟩ events M' i →
        i = Instance.replay M.topology events.reverse ⟨name, {}, {}, false⟩ ∧
        ∀ before e after, events = before ++ e :: after → e.Due M.topology
          (Instance.replay M.topology before.reverse (⟨name, {}, {}, false⟩ : TableInstance))) ∧
    (∀ {events : List Event} {M' : Machine σ} {j : TreeInstance},
      M.Visits (fun _ => True) { name := name } events M' j →
        j = Instance.replay M.topology events.reverse { name := name } ∧
        ∀ before e after, events = before ++ e :: after → e.Due M.topology
          (Instance.replay M.topology before.reverse ({ name := name } : TreeInstance))) := by
  have hT := hM.wellFormed
  refine ⟨fun h => ?_, fun h => ?_⟩
  · obtain ⟨-, hinst, hdue⟩ := faithful_of_visits hM (TableInstance.laws hT).toOrderly
      (TableInstance.sound_new M.topology name) h
    exact ⟨hinst, fun _ _ _ => hdue.of_split⟩
  · obtain ⟨-, hinst, hdue⟩ := faithful_of_visits hM (TreeInstance.orderly M.topology) trivial h
    exact ⟨hinst, fun _ _ _ => hdue.of_split⟩

/-- Work nested three deep, of which the innermost part is left for good by a message, while the
outermost has a completion to take. -/
def abandonedWork : Machine Unit := .build "m" {} [
  .addVertex "i" (.state ⟨0⟩) (.pseudo .initial), .addVertex "o" (.state ⟨0⟩) .state,
  .addVertex "s" (.state ⟨2⟩) .state, .addVertex "a" (.state ⟨3⟩) .state,
  .addVertex "b" (.state ⟨4⟩) .state, .addVertex "d" (.state ⟨0⟩) .state,
  .addVertex "e" (.state ⟨0⟩) .state, .addTransition ⟨1⟩ (some ⟨2⟩),
  .addTransition ⟨5⟩ (some ⟨6⟩), .addTransition ⟨3⟩ (some ⟨7⟩),
  .modifyTransition ⟨1⟩ fun t => { t with guard := .on "go" }]

theorem abandonedWork_due :
    let started := abandonedWork.call (⟨"i", {}, {}, false⟩ : TableInstance) (.start 30 ())
    let evaluated := started.machine.call started.inst (.evaluate 30 () "go")
    let started' := abandonedWork.call ({ name := "i" } : TreeInstance) (.start 30 ())
    let evaluated' := started'.machine.call started'.inst (.evaluate 30 () "go")
    .selected ⟨5⟩ ⟨1⟩ (.message "go") ∈ evaluated.events ∧
    (∀ before v t m after,
      started.events ++ evaluated.events = before ++ .selected v t (.message m) :: after →
        Instance.isActive abandonedWork.topology (Instance.replay abandonedWork.topology
          before.reverse (⟨"i", {}, {}, false⟩ : TableInstance)) v) ∧
    ∀ before v t m after,
      started'.events ++ evaluated'.events = before ++ .selected v t (.message m) :: after →
        Instance.isActive abandonedWork.topology (Instance.replay abandonedWork.topology
          before.reverse ({ name := "i" } : TreeInstance)) v := by
  have hM : abandonedWork.Reachable fun _ => True := .build (by decide +kernel) fun _ _ => trivial
  obtain ⟨htable, htree⟩ := taken_due hM "i"
  have htable := (htable (.evaluate 30 () "go" (.start 30 () trivial) trivial)).2
  have htree := (htree (.evaluate 30 () "go" (.start 30 () trivial) trivial)).2
  exact ⟨by decide +kernel, fun _ _ _ _ _ h => (htable _ _ _ h).2,
    fun _ _ _ _ _ h => (htree _ _ _ h).2⟩

/-- The message leads out of all of it, and then the state in the middle still takes its
completion. -/
theorem left_state_completes :
    let started := abandonedWork.call (⟨"i", {}, {}, false⟩ : TableInstance) (.start 30 ())
    let evaluated := started.machine.call started.inst (.evaluate 30 () "go")
    abandonedWork.Reachable (fun _ => True) ∧
    started.result = .value none ∧ evaluated.result = .value (some true) ∧
    ∃ before after, evaluated.events = before ++ .selected ⟨3⟩ ⟨2⟩ (.completion ⟨3⟩) :: after ∧
      ¬Instance.isActive abandonedWork.topology
        (Instance.replay abandonedWork.topology before.reverse started.inst) ⟨3⟩ := by
  intro started evaluated
  let completes := Event.selected ⟨3⟩ ⟨2⟩ (.completion ⟨3⟩)
  exact ⟨.build (by decide +kernel) fun _ _ => trivial, by decide +kernel, by decide +kernel,
    evaluated.events.takeWhile (· ≠ completes), (evaluated.events.dropWhile (· ≠ completes)).tail,
    by decide +kernel, by decide +kernel⟩

end Hsm
