import Hsm.Proofs.Program.Paths
import Mathlib.Data.List.TakeWhile

/-!
# Rules for the operations of the engine

For every operation of the engine a rule that derives its specification from those of the
operations that it is made of. What quiet events do not touch (`Session.Stable`) needs no care
where the engine tells, leaves, runs behavior, or asks guards; what leaving may touch
(`Session.Steady`) needs none but there.
-/

namespace Hsm

variable {σ ι : Type} [Instance ι]

namespace Session

/-- Quiet events leave the property as it is. -/
def Stable (T : Topology) (p : Session σ ι → Prop) : Prop :=
  ∀ s s', s.Leads T Event.Quiet s' → p s → p s'

/-- Events that are quiet and tell of no leaving leave the property as it is. -/
def Steady (T : Topology) (p : Session σ ι → Prop) : Prop :=
  ∀ s s', s.Leads T Event.Mute s' → p s → p s'

variable {T : Topology} {p q : Session σ ι → Prop}

theorem Stable.steady (hp : Stable T p) : Steady T p :=
  fun s s' h => hp s s' (h.mono Event.quiet_of_mute)

theorem Steady.or (hp : Steady T p) (hq : Steady T q) : Steady T fun s => p s ∨ q s :=
  fun s s' h hpq => hpq.imp (hp s s' h) (hq s s' h)

theorem Stable.and (hp : Stable T p) (hq : Stable T q) : Stable T fun s => p s ∧ q s :=
  fun s s' h hpq => ⟨hp s s' h hpq.1, hq s s' h hpq.2⟩

theorem Stable.or (hp : Stable T p) (hq : Stable T q) : Stable T fun s => p s ∨ q s :=
  fun s s' h hpq => hpq.imp (hp s s' h) (hq s s' h)

end Session

namespace Instance.Orderly

variable {T : Topology} {J : ι → Prop} (hJ : Instance.Orderly T J)
include hJ

theorem alike_of_quiet {s s' : Session σ ι} (h : s.Leads T Event.Quiet s') :
    Alike T s.inst s'.inst ∧ (J s.inst → J s'.inst) := by
  obtain ⟨es, -, hes, hi⟩ := h
  rw [hi]
  exact hJ.alike_replay_quiet s.inst hes

theorem stable : Session.Stable T fun s : Session σ ι => J s.inst :=
  fun _ _ h => (hJ.alike_of_quiet h).2

/-- What alike instances have in common is stable. -/
theorem stable_of_alike {p : ι → Prop} (hp : ∀ i j, Alike T i j → p i → p j) :
    Session.Stable T fun s : Session σ ι => p s.inst :=
  fun s s' h => hp s.inst s'.inst (hJ.alike_of_quiet h).1

end Instance.Orderly

theorem Run.Adds.actAll {T : Topology} (trigger : Trigger) :
    ∀ as, (Run.actAll trigger as : Run σ ι Unit).Adds T Event.Mute
  | [] => pure _
  | _ :: rest => (act (fun _ _ => trivial) _ _).bind fun _ => actAll trigger rest

theorem Machine.Legs.last_target {M : Machine σ} {t : TransitionId} {ts : List TransitionId}
    (h : M.Legs t ts) {v : VertexId}
    (hv : (M.topology.transition (ts.getLast?.getD t)).target = some v) :
    M.topology.pseudoKind? v ≠ some .junction := by
  induction h with
  | last h => exact h v hv
  | @cons t u ts w _ _ _ h ih =>
    refine ih ?_
    cases h with
    | last _ => exact hv
    | cons _ _ _ _ => rwa [List.getLast?_cons_cons] at hv

theorem engine_leave_quiet {M : Machine σ} (hT : M.topology.WellFormed) (n : Nat) (x : Element)
    (trigger : Trigger) (deep : Bool) :
    ((engine (ι := ι) M M.compile n).performAll trigger deep (M.compile.leave x)).Adds
      M.topology Event.Quiet :=
  Run.Adds.performAll fun step hs =>
    engine_perform_quiet (Machine.inert_leave hT) n step trigger deep (Machine.inert_leave hT x step hs)

/-- A list that is not empty has a first entry that fails a test, or else a last one. -/
theorem exists_split_takeWhile {α : Type} {l : List α} (p : α → Bool) (hl : l ≠ []) :
    ∃ above a rest, l = above ++ a :: rest ∧
      min (l.takeWhile p).length (l.length - 1) = above.length ∧
      (∀ b ∈ above, p b) ∧ (rest = [] ∨ ¬p a) := by
  cases hd : l.dropWhile p with
  | nil =>
    have hall : ∀ b ∈ l, p b := List.dropWhile_eq_nil_iff.1 hd
    refine ⟨l.dropLast, l.getLast hl, [], (List.dropLast_append_getLast hl).symm, ?_,
      fun b hb => hall b (List.dropLast_subset l hb), .inl rfl⟩
    rw [List.takeWhile_eq_self_iff.2 hall, List.length_dropLast]
    exact Nat.min_eq_right (Nat.sub_le _ _)
  | cons a rest =>
    have hsplit : l.takeWhile p ++ a :: rest = l := hd ▸ List.takeWhile_append_dropWhile
    have hlength := congrArg List.length hsplit
    rw [List.length_append, List.length_cons] at hlength
    refine ⟨l.takeWhile p, a, rest, hsplit.symm, Nat.min_eq_left (by omega),
      fun b hb => List.mem_takeWhile_imp hb, .inr fun ha => ?_⟩
    have hnot := List.head_dropWhile_not p (l := l) (by rw [hd]; exact List.cons_ne_nil _ _)
    simp only [hd, List.head_cons] at hnot
    exact absurd (hnot.symm.trans ha) Bool.false_ne_true

namespace Run.Spec

variable {M : Machine σ} {n : Nat} {I p q : Session σ ι → Prop} {J : ι → Prop} {trigger : Trigger}
  {deep : Bool}

theorem quiet {T : Topology} {α : Type} {x : Run σ ι α} (hx : x.Adds T Event.Quiet)
    (hI : Session.Stable T I) (hp : Session.Stable T p) : Spec I p x fun _ => p :=
  of_adds hx hI hp

theorem mute {T : Topology} {α : Type} {x : Run σ ι α} (hx : x.Adds T Event.Mute)
    (hI : Session.Steady T I) (hp : Session.Steady T p) : Spec I p x fun _ => p :=
  of_adds hx hI hp

/-- Steps that only tell, run behavior or leave. -/
theorem inert (hT : M.topology.WellFormed) (hI : Session.Stable M.topology I)
    (hp : Session.Stable M.topology p) {steps : List (Step σ)} (h : ∀ step ∈ steps, step.Inert) :
    Spec I p ((engine M M.compile n).performAll trigger deep steps) fun _ => p :=
  quiet (Run.Adds.performAll fun step hs =>
    engine_perform_quiet (Machine.inert_leave hT) n step trigger deep (h step hs)) hI hp

theorem enterRegion {s : RegionId} {initial : Option VertexId}
    (hknown : (deep || (initial.bind M.topology.pseudoKind?).any PseudoKind.isHistory) →
      ∀ v, Spec I (fun x => p x ∧ Instance.lastKnown M.topology s x.inst = some v)
        (Engine.enterElement M.compile (engine M M.compile n) (.vertex v) trigger
          (deep || initial.bind M.topology.pseudoKind? = some .deepHistory)) fun _ => q)
    (hinitial : ∀ v, initial = some v → Spec I p (Engine.enterElement M.compile (engine M M.compile n) (.vertex v) trigger
      (deep || initial.bind M.topology.pseudoKind? = some .deepHistory)) fun _ => q)
    (hnone : initial = none → Spec I p
      (if (M.topology.region s).vertices.isEmpty then Pure.pure () else
        Run.say .warn (M.topology.qualifiedName (.region s) ++
          ": region has no initial vertex to enter")) fun _ => q) :
    Spec I p (Engine.enterRegion M M.compile (engine M M.compile n) s initial trigger deep) fun _ => q := by
  refine read.bind fun known => ?_
  split
  · rename_i v hv
    split at hv
    · rename_i hd
      cases known with
      | some w =>
        obtain rfl : w = v := Option.some.inj hv
        exact (hknown hd w).pre fun _ _ h => ⟨h.1, h.2.symm⟩
      | none => exact (hinitial v hv).pre fun _ _ h => h.1
    · exact (hinitial v hv).pre fun _ _ h => h.1
  · rename_i hv
    refine (hnone ?_).pre fun _ _ h => h.1
    split at hv
    · exact (Option.or_eq_none_iff.1 hv).2
    · exact hv

theorem stop {T : Topology} {α : Type} {f : Fault} {r : α → Session σ ι → Prop}
    (hI : Session.Steady T I) : Spec I p (Engine.stop f) r :=
  (mute (p := fun _ => True) (Run.Adds.say (fun _ _ => trivial) _ _) hI fun _ _ _ h => h).bind
    (fun _ => fail) |>.pre fun _ _ _ => trivial

/-- How the entry of an initial or history pseudostate ends: it is left for a state that is last
known, or along a transition. -/
theorem resume_parts {v : VertexId} (hI : Session.Steady M.topology I)
    (hknown : deep || M.topology.isHistory v → ∀ s, (M.topology.vertex v).parent = some s →
      ∀ state, Spec I (fun x => p x ∧ Instance.lastKnown M.topology s x.inst = some state)
        ((engine M M.compile n).performAll trigger false (M.compile.leave (.vertex v)) >>= fun _ =>
          Engine.enterElement M.compile (engine M M.compile n) (.vertex state) trigger
            (deep || M.topology.pseudoKind? v = some .deepHistory)) fun _ => q)
    (hfire : ∀ t ∈ (M.topology.vertex v).outgoing,
      Spec I p ((engine M M.compile n).fire t trigger) fun _ => q) :
    Spec I p (Engine.resume M M.compile (engine M M.compile n) v trigger deep) fun _ => q := by
  have hstate : Spec I p (Engine.historyState M v deep) fun found x => p x ∧
      ∀ state, found = some state → (deep || M.topology.isHistory v) ∧
        ∃ s, (M.topology.vertex v).parent = some s
          ∧ Instance.lastKnown M.topology s x.inst = some state := by
    unfold Engine.historyState
    split
    · rename_i s hs
      refine ite (fun hd => ?_) fun _ => pure fun _ _ h => ⟨h, fun _ he => nomatch he⟩
      exact read.post fun found x _ h => ⟨h.1, fun state he => ⟨hd, s, hs, h.2.symm.trans he⟩⟩
    · exact pure fun _ _ h => ⟨h, fun _ he => nomatch he⟩
  refine hstate.bind fun found => ?_
  cases found with
  | some state =>
    intro x hIx hx
    obtain ⟨hpx, hx⟩ := hx
    obtain ⟨hd, s, hs, hk⟩ := hx state rfl
    exact hknown hd s hs state x hIx ⟨hpx, hk⟩
  | none =>
    refine (?_ : Spec I p _ _).pre fun _ _ h => h.1
    dsimp only
    split
    · rename_i t ht
      exact (hfire t (List.mem_of_head? ht)).discard
    · exact stop hI

/-- Where leaving the pseudostate is of no consequence. -/
theorem resume {v : VertexId} (hT : M.topology.WellFormed) (hJ : Instance.Laws M.topology J)
    (hI : Session.Stable M.topology I)
    (hp : Session.Stable M.topology p)
    (hknown : deep || M.topology.isHistory v → ∀ s, (M.topology.vertex v).parent = some s →
      ∀ state, Spec I (fun x => p x ∧ Instance.lastKnown M.topology s x.inst = some state)
        (Engine.enterElement M.compile (engine M M.compile n) (.vertex state) trigger
          (deep || M.topology.pseudoKind? v = some .deepHistory)) fun _ => q)
    (hfire : ∀ t ∈ (M.topology.vertex v).outgoing,
      Spec I p ((engine M M.compile n).fire t trigger) fun _ => q) :
    Spec I p (Engine.resume M M.compile (engine M M.compile n) v trigger deep) fun _ => q :=
  resume_parts hI.steady (fun hd s hs state => (quiet (engine_leave_quiet hT n _ _ _) hI
    (hp.and (hJ.stable_of_alike fun _ _ h => (h.lastKnown s).trans))).bind fun _ =>
      hknown hd s hs state) hfire

/-- A local transition leaves what is current beside the first vertex of the target's path that is
not active, or beside the target if all are, and enters from there. -/
theorem traverseWithin_parts {t : TransitionId} (hI : Session.Steady M.topology I)
    (hpath : ∀ x, (M.topology.transition t).target = some x → ∀ above a rest,
      M.topology.vertexAncestry x = above ++ a :: rest →
      ∀ s, (M.topology.vertex a).parent = some s →
        Spec I (fun z => p z ∧ (∀ b ∈ above, Instance.isActive M.topology z.inst b) ∧
            (a = x ∨ ¬Instance.isActive M.topology z.inst a))
          (Engine.leaveCurrent M M.compile (engine M M.compile n) s trigger >>= fun _ =>
            Run.actAll trigger (M.effects t) >>= fun _ =>
              (engine M M.compile n).performAll trigger false
                (M.compile.cascade M.topology (a :: rest)) >>= fun _ =>
                  (engine M M.compile n).performAll trigger false
                    (M.compile.endEnter (.vertex x))) fun _ => q) :
    Spec I p (Engine.traverseWithin M M.compile (engine M M.compile n) t trigger) fun _ => q := by
  unfold Engine.traverseWithin
  dsimp only
  split
  · exact stop hI
  · rename_i x hx
    intro z hIz hz
    obtain ⟨above, a, rest, hsplit, hlength, habove, hend⟩ := exists_split_takeWhile
      (Instance.isActive M.topology z.inst) (Topology.vertexAncestry_ne_nil (T := M.topology) x)
    simp only [Bind.bind, Run.read, hlength]
    rw [hsplit, List.getElem?_append_right (Nat.le_refl _), Nat.sub_self, List.getElem?_cons_zero,
      Option.getD_some, List.drop_left]
    cases hs : (M.topology.vertex a).parent with
    | none => exact stop hI (p := fun _ => True) z hIz trivial
    | some s =>
      refine hpath x hx above a rest hsplit s hs z hIz ⟨hz, habove, hend.imp (fun h => ?_) id⟩
      rw [h] at hsplit
      exact Topology.eq_of_suffix_singleton ⟨above, hsplit.symm⟩

section

variable (hT : M.topology.WellFormed) (hJ : Instance.Laws M.topology J)
  (hI : Session.Stable M.topology I) (hp : Session.Stable M.topology p)
include hT hI hp

theorem leaveCurrent (r : RegionId) : Spec I p
    (Engine.leaveCurrent M M.compile (engine M M.compile n) r trigger) fun _ => p := by
  refine read.bind fun v => ?_
  cases v with
  | none => exact pure fun _ _ h => h.1
  | some v => exact (quiet (engine_leave_quiet hT n _ _ _) hI hp).pre fun _ _ h => h.1

include hJ in
/-- A local transition enters beneath vertices that are active when it begins. -/
theorem traverseWithin {t : TransitionId} {r : VertexId → Session σ ι → Prop}
    (hpath : ∀ x, (M.topology.transition t).target = some x →
      ∀ i < (M.topology.vertexAncestry x).length,
        Spec I (fun s => p s ∧ ∀ a ∈ (M.topology.vertexAncestry x).take i,
            Instance.isActive M.topology s.inst a)
          ((engine M M.compile n).performAll trigger false
            (M.compile.cascade M.topology ((M.topology.vertexAncestry x).drop i))) fun _ => r x)
    (hend : ∀ x, (M.topology.transition t).target = some x →
      Spec I (r x) ((engine M M.compile n).performAll trigger false
        (M.compile.endEnter (.vertex x))) fun _ => q) :
    Spec I p (Engine.traverseWithin M M.compile (engine M M.compile n) t trigger) fun _ => q := by
  refine traverseWithin_parts hI.steady fun x hx above a rest hsplit s _ => ?_
  have hpre : Spec I (fun z => p z ∧ ∀ b ∈ above, Instance.isActive M.topology z.inst b)
      ((engine M M.compile n).performAll trigger false
        (M.compile.cascade M.topology (a :: rest))) fun _ => r x := by
    have h := hpath x hx above.length (by rw [hsplit]; simp)
    rwa [hsplit, List.take_left, List.drop_left] at h
  have hstable := hp.and (hJ.stable_of_alike (p := fun i => ∀ b ∈ above,
    Instance.isActive M.topology i b) fun i j h ha b hb => (h.isActive b).trans (ha b hb))
  exact (Run.Spec.bind (leaveCurrent hT hI hstable s) fun _ => .bind
    (mute (Run.Adds.actAll _ _) hI.steady hstable.steady) fun _ => .bind hpre fun _ =>
      hend x hx).pre fun _ _ h => ⟨h.1, h.2.1⟩

end

/-- A state that is complete is offered its completion. -/
theorem offerCompletion {v : VertexId}
    (hoffer : Spec I (fun s => p s ∧ Instance.isComplete M.topology s.inst v)
      ((engine M M.compile n).offer v (.completion v)) fun _ => q)
    (hnot : ∀ s, I s → p s → ¬Instance.isComplete M.topology s.inst v → q s) :
    Spec I p (Engine.offerCompletion M (engine M M.compile n) v) fun _ => q := by
  refine read.bind fun complete => ?_
  cases complete with
  | true => exact (hoffer.pre fun _ _ h => ⟨h.1, h.2.symm⟩).discard
  | false =>
    exact pure fun s hI h => hnot s hI h.1 fun hc => absurd (h.2.trans hc) Bool.false_ne_true

/-- What holds before something beneath a state takes a trigger has to hold again after it if the
state is still active. -/
theorem offerRegions {state : VertexId}
    (hoffer : ∀ r ∈ (M.topology.vertex state).regions, ∀ v,
      Spec I (fun s => p s ∧ Instance.lastKnown M.topology r s.inst = some v)
        ((engine M M.compile n).offer v trigger) fun b s => if b then q s else p s)
    (hagain : ∀ s, I s → q s → Instance.isActive M.topology s.inst state → p s)
    (hdone : ∀ s, I s → p s → q s) :
    ∀ rs ⊆ (M.topology.vertex state).regions,
      Spec I p (Engine.offerRegions M (engine M M.compile n) state trigger rs)
        fun b s => if b then q s else p s
  | [], _ => pure fun _ _ h => h
  | r :: rest, hrs => by
    obtain ⟨hr, hrest⟩ := List.cons_subset.1 hrs
    have ih := offerRegions hoffer hagain hdone rest hrest
    refine read.bind fun known => ?_
    cases known with
    | none => exact ih.pre fun _ _ h => h.1
    | some v =>
      refine ((hoffer r hr v).pre fun _ _ h => ⟨h.1, h.2.symm⟩).bind fun taken => ?_
      cases taken with
      | false => exact ih
      | true =>
        refine read.bind fun active => ?_
        cases active with
        | false => exact pure fun _ _ h => h.1
        | true =>
          refine .bind (ih.pre fun s hI h => hagain s hI h.1 h.2.symm) fun b => pure ?_
          intro s hI h
          cases b with
          | true => exact h
          | false => exact hdone s hI h

/-- A trigger goes to what is beneath a state first; only if nothing there takes it, the state looks
for a transition itself. -/
theorem offerState_parts {state : VertexId} {a d : Session σ ι → Prop}
    (hI : Session.Steady M.topology I) (hp : Session.Steady M.topology p)
    (hbeneath : Spec I p (Engine.offerBeneath M (engine M M.compile n) state trigger)
      fun b s => if b then a s else d s)
    (hcompletion : Spec I a (Engine.offerCompletion M (engine M M.compile n) state) fun _ => q)
    (htake : Spec I d
      (Engine.passing M trigger (M.topology.vertex state).outgoing >>= fun ts =>
        Engine.takeOnly M (engine M M.compile n) state trigger ts) fun _ => q) :
    Spec I p (Engine.offerState M (engine M M.compile n) state trigger) fun _ => q := by
  refine .bind (mute (Run.Adds.note trivial trivial) hI hp) fun _ => hbeneath.bind fun taken => ?_
  cases taken with
  | true => exact hcompletion.bind fun _ => pure fun _ _ h => h
  | false => exact htake

/-- What is beneath a state is not concerned by its own completion. -/
theorem offerState {state : VertexId} {a : Session σ ι → Prop}
    (hI : Session.Steady M.topology I) (hp : Session.Steady M.topology p)
    (hregions : ¬trigger.isCompletionOf state → Spec I p
      (Engine.offerRegions M (engine M M.compile n) state trigger (M.topology.vertex state).regions)
        fun b s => if b then a s else p s)
    (hcompletion : Spec I a (Engine.offerCompletion M (engine M M.compile n) state) fun _ => q)
    (htake : ∀ t ∈ (M.topology.vertex state).outgoing, Spec I p
      (Run.record (.selected state t trigger) >>= fun _ => (engine M M.compile n).fire t trigger)
        fun _ => q)
    (hdecline : ∀ s, I s → p s → q s) :
    Spec I p (Engine.offerState M (engine M M.compile n) state trigger) fun _ => q := by
  refine offerState_parts hI hp (ite (fun _ => pure fun _ _ h => h) hregions) hcompletion ?_
  refine .bind (with_value (mute ((Run.Adds.passing _ _).mono Event.mute_of_idle) hI hp)
    fun _ _ => passing_sublist) fun ts => pull fun hts => ?_
  match ts with
  | [] => exact pure hdecline
  | [t] => exact htake t (hts.subset (List.mem_singleton.2 rfl))
  | _ :: _ :: _ =>
    exact (mute ((Run.Adds.report _).mono Event.mute_of_idle) hI hp).bind
      fun _ => pure hdecline

/-- A choice leads on at once, and a state may be complete already. -/
theorem leadOn {x : VertexId} (hI : Session.Steady M.topology I)
    (hp : Session.Steady M.topology p)
    (hchoice : M.topology.pseudoKind? x = some .choice → ∀ t ∈ (M.topology.vertex x).outgoing,
      Spec I p ((engine M M.compile n).fire t trigger) fun _ => q)
    (hstate : M.topology.isState x →
      Spec I p (Engine.offerCompletion M (engine M M.compile n) x) fun _ => q)
    (hother : M.topology.pseudoKind? x ≠ some .choice → ¬M.topology.isState x →
      ∀ s, I s → p s → q s) :
    Spec I p (Engine.leadOn M (engine M M.compile n) trigger x) fun _ => q := by
  refine ite (fun hc => ?_) fun hc => ite hstate fun hs => pure (hother hc hs)
  refine .bind (with_value (mute (Run.Adds.branch _ _) hI hp) fun _ _ => branch_mem) fun t =>
    pull fun ht => ?_
  exact (hchoice hc t ht).discard

/-- The legs of a transition are run one after the other: `b` holds as each begins, `a`
as it ends. -/
theorem traverseAll {b a : TransitionId → Session σ ι → Prop}
    (hleg : ∀ t, Spec I (b t) (Run.record (.traversed t) >>= fun _ =>
      (engine M M.compile n).performAll trigger false (M.compile.traversal t)) fun _ => a t)
    (hnext : ∀ t u v, (M.topology.transition t).target = some v →
      M.topology.pseudoKind? v = some .junction → u ∈ (M.topology.vertex v).outgoing →
      ∀ s, I s → a t s → b u s)
    {t : TransitionId} {ts : List TransitionId} (h : M.Legs t ts) :
    Spec I (b t) (Engine.traverseAll M.compile (engine M M.compile n) trigger ts)
      fun _ => a (ts.getLast?.getD t) := by
  have hcons : ∀ (t : TransitionId) (rest : List TransitionId),
      Engine.traverseAll M.compile (engine (ι := ι) M M.compile n) trigger (t :: rest) =
        (Run.record (.traversed t) >>= fun _ =>
          (engine M M.compile n).performAll trigger false (M.compile.traversal t)) >>= fun _ =>
            Engine.traverseAll M.compile (engine M M.compile n) trigger rest :=
    fun _ _ => (Run.bind_assoc _ _ _).symm
  induction h with
  | @last t _ =>
    rw [hcons]
    exact (hleg t).bind fun _ => pure fun _ _ h => h
  | @cons t u ts v ht hv hu h ih =>
    rw [hcons]
    refine (hleg t).bind fun _ => (ih.pre (hnext t u v ht hv hu)).post fun _ s _ hs => ?_
    cases h with
    | last _ => exact hs
    | cons _ _ _ _ => rwa [List.getLast?_cons_cons]

/-- A transition is resolved into its legs, which are run, and leads on from where the last of
them ends. -/
theorem fireTransition {b a : TransitionId → Session σ ι → Prop}
    (hI : Session.Steady M.topology I) (hbefore : ∀ t, Session.Steady M.topology (b t))
    (hleg : ∀ t, Spec I (b t) (Run.record (.traversed t) >>= fun _ =>
      (engine M M.compile n).performAll trigger false (M.compile.traversal t)) fun _ => a t)
    (hnext : ∀ t u v, (M.topology.transition t).target = some v →
      M.topology.pseudoKind? v = some .junction → u ∈ (M.topology.vertex v).outgoing →
      ∀ s, I s → a t s → b u s)
    (hlead : ∀ t x, (M.topology.transition t).target = some x →
      M.topology.pseudoKind? x ≠ some .junction →
      Spec I (a t) (Engine.leadOn M (engine M M.compile n) trigger x) fun _ => q)
    (hend : ∀ t, (M.topology.transition t).target = none → ∀ s, I s → a t s → q s)
    (t : TransitionId) :
    Spec I (b t) (Engine.fireTransition M M.compile (engine M M.compile n) t trigger)
      fun _ => q := by
  refine .bind (with_value (mute (engine_legs_mute _ _ _) hI (hbefore t)) fun _ _ => engine_legs)
    fun ts => pull fun hts => (traverseAll hleg hnext hts).bind fun _ => ?_
  split
  · rename_i hx
    exact pure (hend _ hx)
  · rename_i x hx
    exact (hlead _ x hx (hts.last_target hx)).bind fun _ => pure fun _ _ h => h

/-! ## Whole runs -/

theorem startRun {depth : Nat} (hI : Session.Steady M.topology I)
    (hp : Session.Steady M.topology p)
    (h : Spec I p ((engine M M.compile depth).performAll .initialise false M.compile.onInitialise)
      fun _ => q) : Spec I p (M.startRun depth M.compile) fun _ => q :=
  .bind read fun _ => .bind ((mute (Run.Adds.say (fun _ _ => trivial) _ _) hI hp).pre
    fun _ _ h => h.1) fun _ => h

theorem evaluateRun {depth : Nat} {message : String} (hI : Session.Steady M.topology I)
    (hp : Session.Steady M.topology p)
    (hoffer : Spec I p ((engine M M.compile depth).offer Topology.root (.message message))
      fun _ => q)
    (hended : ∀ s, I s → p s → Instance.isTerminated s.inst → q s) :
    Spec I p (M.evaluateRun depth message M.compile) fun _ => q := by
  refine .bind read fun _ => .bind ((mute (Run.Adds.say (fun _ _ => trivial) _ _) hI hp).pre
    fun _ _ h => h.1) fun _ => .bind (mute (Run.Adds.trace (fun _ => trivial) _) hI hp) fun _ =>
      .bind read fun ended => ite (fun he => pure fun s hI h => ?_) fun _ =>
        hoffer.pre fun _ _ h => h.1
  exact hended s hI h.1 (h.2.symm.trans he)

end Run.Spec

end Hsm
