import Hsm.Proofs.Engine.Uniform

/-!
# What a run adds to its trail

Whatever a run does to an instance stands in the events that it adds to the trail, so the instance
is what those events make of the one before; and offers that are not asked for are not among them
(`adds_uniform`). Leaving, and looking for the legs of a
transition, add only events that leave the configuration as it is. An offer that is answered in
the negative has only asked guards (`engine_offer_declines`).
-/

namespace Hsm

variable {σ ι : Type}

namespace Event

/-- Events that concern no configuration and no transition. -/
def Quiet : Event → Prop
  | setCurrent .. | terminated | selected .. | traversed _ => False
  | _ => True

/-- Quiet events that tell of no leaving. -/
def Mute : Event → Prop
  | setCurrent .. | terminated | selected .. | traversed _ | left _ => False
  | _ => True

/-- Events of an offer that comes to nothing. -/
def Idle : Event → Prop
  | message .. | checked .. | offered .. => True
  | _ => False

end Event

/-- An entry of a list that is not in its first part comes with what follows it in the second. -/
theorem suffix_of_suffix_append {α : Type} {x : α} {past ys : List α} :
    ∀ {xs : List α}, x :: past <:+ xs ++ ys → x ∉ xs → x :: past <:+ ys
  | [], h, _ => h
  | y :: xs, h, hx => by
    rcases List.suffix_cons_iff.1 h with h | h
    · exact absurd (List.cons.inj h).1 (List.ne_of_not_mem_cons hx)
    · exact suffix_of_suffix_append h (List.not_mem_of_not_mem_cons hx)

section

variable [Instance ι]

/-- What an event does to an instance. -/
def Event.replay (T : Topology) (e : Event) (i : ι) : ι :=
  match e with
  | .setCurrent r v => Instance.setCurrent T r v i
  | .terminated => Instance.terminate i
  | .traced line => Instance.trace line i
  | _ => i

/-- The instance after events, of which the newest comes first. -/
def Instance.replay (T : Topology) (events : List Event) (i : ι) : ι :=
  events.foldr (Event.replay T) i

theorem Instance.replay_append (T : Topology) (es es' : List Event) (i : ι) :
    replay T (es ++ es') i = replay T es (replay T es' i) :=
  List.foldr_append

/-- From `s` the session `s'` came about by events with the property. -/
def Session.Leads (T : Topology) (q : Event → Prop) (s s' : Session σ ι) : Prop :=
  ∃ es, s'.trail = es ++ s.trail ∧ (∀ e ∈ es, q e) ∧ s'.inst = Instance.replay T es s.inst

namespace Session.Leads

variable {T : Topology} {q : Event → Prop} {s s' s'' : Session σ ι}

theorem refl (s : Session σ ι) : s.Leads T q s :=
  ⟨[], rfl, fun _ h => absurd h List.not_mem_nil, rfl⟩

theorem trans (h : s.Leads T q s') (h' : s'.Leads T q s'') : s.Leads T q s'' := by
  obtain ⟨es, ht, hq, hi⟩ := h
  obtain ⟨es', ht', hq', hi'⟩ := h'
  refine ⟨es' ++ es, ?_, fun e he => ?_, ?_⟩
  · rw [ht', ht, List.append_assoc]
  · exact (List.mem_append.1 he).elim (hq' e) (hq e)
  · rw [hi', hi, Instance.replay_append]

theorem mono {q' : Event → Prop} (hq : ∀ e, q e → q' e) (h : s.Leads T q s') :
    s.Leads T q' s' := by
  obtain ⟨es, ht, hes, hi⟩ := h
  exact ⟨es, ht, fun e he => hq e (hes e he), hi⟩

/-- One more event, with what it does to the instance. -/
theorem one {e : Event} (he : q e) (ht : s'.trail = e :: s.trail)
    (hi : s'.inst = e.replay T s.inst) : s.Leads T q s' :=
  ⟨[e], ht, fun _ h => (List.mem_singleton.1 h).symm ▸ he, hi⟩

end Session.Leads

namespace Run

variable {T : Topology} {q : Event → Prop} {α β : Type}

/-- The run adds events with the property, and does to the instance what they say. -/
def Adds (T : Topology) (q : Event → Prop) (x : Run σ ι α) : Prop :=
  ∀ s : Session σ ι, s.Leads T q (x s).2

omit [Instance ι] in
theorem bind_of_value {x : Run σ ι α} {f : α → Run σ ι β} {s s' : Session σ ι} {a : α}
    (h : x s = (.value a, s')) : (x >>= f) s = f a s' := by
  simp only [Bind.bind, h]

omit [Instance ι] in
theorem bind_of_failed {x : Run σ ι α} {f : α → Run σ ι β} {s s' : Session σ ι} {e : Failure}
    (h : x s = (.failed e, s')) : (x >>= f) s = (.failed e, s') := by
  simp only [Bind.bind, h]

omit [Instance ι] in
/-- A sequence that ends with a value ends as its second part does, begun with the value of the
first. -/
theorem bind_value {x : Run σ ι α} {f : α → Run σ ι β} {s : Session σ ι} {b : β}
    (h : ((x >>= f) s).1 = .value b) :
    ∃ a, (x s).1 = .value a ∧ (f a (x s).2).1 = .value b
      ∧ ((x >>= f) s).2 = (f a (x s).2).2 := by
  simp only [Bind.bind] at h ⊢
  rcases hx : x s with ⟨r, s'⟩
  rw [hx] at h
  cases r with
  | value a => exact ⟨a, rfl, h, rfl⟩
  | failed e => cases h
  | exhausted => cases h

namespace Adds

theorem pure (a : α) : Adds T q (Pure.pure a : Run σ ι α) :=
  fun s => .refl s

theorem bind {x : Run σ ι α} {f : α → Run σ ι β} (hx : x.Adds T q) (hf : ∀ a, (f a).Adds T q) :
    (x >>= f).Adds T q := by
  intro s
  have h := hx s
  simp only [Bind.bind]
  rcases hxs : x s with ⟨r, s'⟩
  rw [hxs] at h
  cases r with
  | value a => exact h.trans (hf a s')
  | failed e => exact h
  | exhausted => exact h

theorem mono {q' : Event → Prop} (hq : ∀ e, q e → q' e) {x : Run σ ι α} (h : x.Adds T q) :
    x.Adds T q' :=
  fun s => (h s).mono hq

theorem read (f : Session σ ι → α) : (Run.read f).Adds T q :=
  fun s => .refl s

theorem note {e : Event} (he : q e) (hn : e.IsNote) : (Run.record e : Run σ ι Unit).Adds T q :=
  fun s => .one he rfl (by cases e <;> first | rfl | exact hn.elim)

theorem say (hq : ∀ level text, q (.message level text)) (level : Level) (text : String) :
    (Run.say level text : Run σ ι Unit).Adds T q :=
  note (hq level text) trivial

theorem act (hq : ∀ notes failure, q (.acted notes failure)) (a : Action σ) (trigger : Trigger) :
    (Run.act a trigger : Run σ ι Unit).Adds T q := by
  intro s
  unfold Run.act
  dsimp only
  split <;> exact .one (hq _ _) rfl rfl

theorem draw (hq : ∀ count value, q (.drew count value)) (count : Nat) :
    (Run.draw count : Run σ ι Nat).Adds T q := by
  intro s
  unfold Run.draw
  split
  · exact .one (hq _ _) rfl rfl
  · exact ⟨[], rfl, fun _ h => absurd h List.not_mem_nil, rfl⟩

theorem trace (hq : ∀ line, q (.traced line)) (line : String) :
    (Run.trace line : Run σ ι Unit).Adds T q :=
  fun _ => .one (hq line) rfl rfl

theorem check {M : Machine σ} (hq : ∀ t holds notes, q (.checked t holds notes))
    (trigger : Trigger) (t : TransitionId) : (Run.check M trigger t : Run σ ι Bool).Adds T q :=
  fun _ => .one (hq _ _ _) rfl rfl

end Adds

end Run

variable {M : Machine σ} {P : Program σ}

theorem adds_uniform {allowed : RegionId → VertexId → Prop} {offers : Prop} {q : Event → Prop}
    (hq : ∀ e : Event, (e.IsOffer → offers) → q e) :
    Run.Uniform (ι := ι) (κ := ι) M allowed offers (fun _ x _ => x.Adds M.topology q) where
  pure a := .pure a
  bind hx hf := hx.bind hf
  stop _ := (Run.Adds.say (fun _ _ => hq _ False.elim) _ _).bind fun _ s => .refl s
  exhausted := fun s => .refl s
  note _ hn ho := .note (hq _ ho) hn
  act a trigger := .act (fun _ _ => hq _ False.elim) a trigger
  draw count := .draw (fun _ _ => hq _ False.elim) count
  setCurrent r v _ := fun _ => .one (hq (.setCurrent r v) False.elim) rfl rfl
  terminate := fun _ => .one (hq .terminated False.elim) rfl rfl
  trace line := .trace (fun _ => hq _ False.elim) line
  check trigger t := .check (fun _ _ _ => hq _ False.elim) trigger t
  read _ := .read _

/-! ## Quiet runs -/

namespace Run.Adds

theorem announce (verb : String) (e : Element) :
    (Engine.announce M verb e : Run σ ι Unit).Adds M.topology Event.Mute :=
  (read _).bind fun _ => (say (fun _ _ => trivial) _ _).bind fun _ => trace (fun _ => trivial) _

theorem passing (trigger : Trigger) :
    ∀ ts, (Engine.passing M trigger ts : Run σ ι _).Adds M.topology Event.Idle
  | [] => pure _
  | _ :: rest => (check (fun _ _ _ => trivial) _ _).bind fun _ =>
      (passing trigger rest).bind fun _ => pure _

theorem report (f : Fault) :
    (Engine.report M f : Run σ ι Unit).Adds M.topology Event.Idle := by
  refine (say (fun _ _ => trivial) _ _).bind fun _ => ?_
  split
  · exact fun s => .refl s
  · exact pure _

theorem stop {T : Topology} {α : Type} (f : Fault) :
    (Engine.stop f : Run σ ι α).Adds T Event.Idle :=
  (say (fun _ _ => trivial) _ _).bind fun _ s => .refl s

end Run.Adds

theorem Event.mute_of_idle : ∀ e : Event, e.Idle → e.Mute := fun e h => by
  cases e <;> trivial

theorem Event.quiet_of_mute : ∀ e : Event, e.Mute → e.Quiet := fun e h => by
  cases e <;> trivial

theorem Event.quiet_of_idle (e : Event) (h : e.Idle) : e.Quiet :=
  e.quiet_of_mute (e.mute_of_idle h)

namespace Run.Adds

theorem branch (v : VertexId) (trigger : Trigger) :
    (Engine.branch M v trigger : Run σ ι _).Adds M.topology Event.Mute := by
  refine ((passing _ _).mono Event.mute_of_idle).bind fun branches => ?_
  have hpick : (Engine.pick M v trigger branches : Run σ ι _).Adds M.topology Event.Mute := by
    unfold Engine.pick
    split
    · cases branches with
      | nil => exact pure _
      | cons t ts => exact (draw (fun _ _ => trivial) _).bind fun _ => pure _
    · match branches with
      | [] | [_] => exact pure _
      | _ :: _ :: _ => exact ((report _).mono Event.mute_of_idle).bind fun _ => pure _
  refine hpick.bind fun t => ?_
  cases t with
  | some t => exact pure _
  | none =>
    dsimp only
    split
    · exact pure _
    · exact (stop _).mono Event.mute_of_idle

theorem performAll {e : Engine σ ι} {T : Topology} {q : Event → Prop} {steps : List (Step σ)}
    {trigger : Trigger} {deep : Bool}
    (h : ∀ step ∈ steps, (e.perform step trigger deep).Adds T q) :
    (e.performAll trigger deep steps).Adds T q := by
  induction steps with
  | nil => exact pure _
  | cons step rest ih =>
    exact (h step List.mem_cons_self).bind fun _ =>
      ih fun step hs => h step (List.mem_cons_of_mem _ hs)

end Run.Adds

/-- Leaving changes no configuration. -/
theorem engine_perform_quiet (hP : ∀ e, ∀ step ∈ P.leave e, step.Inert) :
    ∀ (n : Nat) (step : Step σ) (trigger : Trigger) (deep : Bool), step.Inert →
      ((engine (ι := ι) M P n).perform step trigger deep).Adds M.topology Event.Quiet
  | 0, _, _, _, _ => fun s => .refl s
  | n + 1, step, trigger, deep, hs => by
    cases step with
    | enter e =>
      exact (Run.Adds.note (e := .entered e) trivial trivial).bind fun _ =>
        (Run.Adds.announce _ _).mono Event.quiet_of_mute
    | leave e =>
      exact (Run.Adds.note (e := .left e) trivial trivial).bind fun _ =>
        (Run.Adds.announce _ _).mono Event.quiet_of_mute
    | behavior a => exact Run.Adds.act (fun _ _ => trivial) a trigger
    | leaveActive r =>
      refine (Run.Adds.read _).bind fun v => ?_
      cases v with
      | none => exact Run.Adds.pure _
      | some v =>
        exact Run.Adds.performAll fun step hs =>
          engine_perform_quiet hP n step trigger false (hP _ step hs)
    | _ => exact hs.elim

/-- Looking for the legs of a transition changes no configuration. -/
theorem engine_legs_mute : ∀ (n : Nat) (t : TransitionId) (trigger : Trigger),
    ((engine (ι := ι) M P n).legs t trigger).Adds M.topology Event.Mute
  | 0, _, _ => fun s => .refl s
  | n + 1, t, trigger => by
    show (Engine.legsFrom M (engine M P n) t trigger).Adds M.topology Event.Mute
    unfold Engine.legsFrom
    split
    · split
      · exact (Run.Adds.branch _ _).bind fun _ =>
          (engine_legs_mute n _ _).bind fun _ => Run.Adds.pure _
      · exact Run.Adds.pure _
    · exact Run.Adds.pure _

end

/-! ## Where branches and legs lead -/

/-- The transitions that `t` consists of: up to the last each ends in a junction, from which the
next leads out. -/
inductive Machine.Legs (M : Machine σ) : TransitionId → List TransitionId → Prop
  | last {t : TransitionId}
    (h : ∀ v, (M.topology.transition t).target = some v → M.topology.pseudoKind? v ≠ some .junction) :
    Legs M t [t]
  | cons {t u : TransitionId} {ts : List TransitionId} {v : VertexId}
    (ht : (M.topology.transition t).target = some v)
    (hv : M.topology.pseudoKind? v = some .junction)
    (hu : u ∈ (M.topology.vertex v).outgoing) (h : Legs M u ts) : Legs M t (t :: ts)

section

variable [Instance ι] {M : Machine σ} {P : Program σ}

theorem passing_sublist {trigger : Trigger} : ∀ {ts ts' : List TransitionId} {s : Session σ ι},
    (Engine.passing M trigger ts s).1 = .value ts' → ts'.Sublist ts
  | [], _, _, h => Result.value.inj h ▸ .refl _
  | t :: ts, ts', s, h => by
    obtain ⟨holds, -, h, -⟩ := Run.bind_value h
    obtain ⟨others, ho, h, -⟩ := Run.bind_value h
    rw [← Result.value.inj h]
    have hrest := passing_sublist ho
    split
    · exact hrest.cons_cons t
    · exact hrest.cons t

omit [Instance ι] in
theorem pick_mem {v : VertexId} {trigger : Trigger} {branches : List TransitionId}
    {t : TransitionId} {s : Session σ ι}
    (h : (Engine.pick M v trigger branches s).1 = .value (some t)) : t ∈ branches := by
  unfold Engine.pick at h
  split at h
  · cases branches with
    | nil => cases h
    | cons b bs =>
      obtain ⟨i, -, h, -⟩ := Run.bind_value h
      exact List.mem_of_getElem? (Result.value.inj h)
  · match branches, h with
    | [b], h => exact List.mem_singleton.2 (Option.some.inj (Result.value.inj h)).symm
    | b :: _ :: _, h =>
      obtain ⟨-, -, h, -⟩ := Run.bind_value h
      exact Option.some.inj (Result.value.inj h) ▸ List.mem_cons_self

/-- A branch leads out of the vertex that it is chosen at. -/
theorem branch_mem {v : VertexId} {trigger : Trigger} {t : TransitionId} {s : Session σ ι}
    (h : (Engine.branch M v trigger s).1 = .value t) : t ∈ (M.topology.vertex v).outgoing := by
  obtain ⟨branches, hb, h, -⟩ := Run.bind_value h
  obtain ⟨picked, hp, h, -⟩ := Run.bind_value h
  cases picked with
  | some u =>
    rw [← Result.value.inj h]
    exact (passing_sublist hb).subset (pick_mem hp)
  | none =>
    cases hf : (M.topology.vertex v).outgoing.find? fun t => (M.guard t).isOtherwise with
    | some u =>
      simp only [hf] at h
      rw [← Result.value.inj h]
      exact List.mem_of_find?_eq_some hf
    | none =>
      simp only [hf] at h
      obtain ⟨-, -, h, -⟩ := Run.bind_value h
      cases h

theorem engine_legs : ∀ {n : Nat} {t : TransitionId} {trigger : Trigger} {ts : List TransitionId}
    {s : Session σ ι}, ((engine M P n).legs t trigger s).1 = .value ts → M.Legs t ts
  | 0, _, _, _, _, h => nomatch h
  | n + 1, t, trigger, ts, s, h => by
    replace h : (Engine.legsFrom M (engine M P n) t trigger s).1 = .value ts := h
    unfold Engine.legsFrom at h
    cases hv : (M.topology.transition t).target with
    | none =>
      simp only [hv] at h
      rw [← Result.value.inj h]
      exact .last fun w hw => absurd (hv.symm.trans hw) (Option.some_ne_none w).symm
    | some v =>
      simp only [hv] at h
      by_cases hk : M.topology.pseudoKind? v = some .junction
      · rw [if_pos hk] at h
        obtain ⟨u, hu, h, -⟩ := Run.bind_value h
        obtain ⟨rest, hr, h, -⟩ := Run.bind_value h
        rw [← Result.value.inj h]
        exact .cons hv hk (branch_mem hu) (engine_legs hr)
      · rw [if_neg hk] at h
        rw [← Result.value.inj h]
        refine .last fun w hw => ?_
        rw [hv] at hw
        exact Option.some.inj hw ▸ hk

end

/-! ## Offers that come to nothing -/

theorem Instance.replay_idle [Instance ι] {T : Topology} {es : List Event} {i : ι}
    (hes : ∀ e ∈ es, e.Idle) : replay T es i = i := by
  induction es with
  | nil => rfl
  | cons e es ih =>
    have he := hes e List.mem_cons_self
    refine Eq.trans ?_ (ih fun e h => hes e (List.mem_cons_of_mem _ h))
    cases e <;> first | rfl | exact he.elim

/-- From `s` to `s'` questions were asked and nothing else happened. -/
structure Session.Asks (s s' : Session σ ι) : Prop where
  env : s'.env = s.env
  inst : s'.inst = s.inst
  source : s'.source = s.source
  trail : ∃ es, s'.trail = es ++ s.trail ∧ ∀ e ∈ es, e.Idle

namespace Session.Asks

variable {s s' s'' : Session σ ι}

theorem refl (s : Session σ ι) : s.Asks s :=
  ⟨rfl, rfl, rfl, [], rfl, fun _ h => absurd h List.not_mem_nil⟩

theorem trans (h : s.Asks s') (h' : s'.Asks s'') : s.Asks s'' := by
  obtain ⟨es, ht, hq⟩ := h.trail
  obtain ⟨es', ht', hq'⟩ := h'.trail
  refine ⟨h'.env.trans h.env, h'.inst.trans h.inst, h'.source.trans h.source, es' ++ es, ?_,
    fun e he => ?_⟩
  · rw [ht', ht, List.append_assoc]
  · exact (List.mem_append.1 he).elim (hq' e) (hq e)

theorem leads [Instance ι] {T : Topology} {q : Event → Prop} (hq : ∀ e : Event, e.Idle → q e)
    (h : s.Asks s') : s.Leads T q s' := by
  obtain ⟨es, ht, hes⟩ := h.trail
  exact ⟨es, ht, fun e he => hq e (hes e he), h.inst.trans (Instance.replay_idle hes).symm⟩

end Session.Asks

namespace Run

variable {α β : Type}

def Asks (x : Run σ ι α) : Prop :=
  ∀ s : Session σ ι, s.Asks (x s).2

/-- A negative answer is given after questions alone. -/
def Declines (x : Run σ ι Bool) : Prop :=
  ∀ s : Session σ ι, (x s).1 = .value false → s.Asks (x s).2

/-- A positive answer is the only one. -/
def Affirms (x : Run σ ι Bool) : Prop :=
  ∀ s b, (x s).1 = .value b → b = true

namespace Asks

theorem pure (a : α) : Asks (Pure.pure a : Run σ ι α) :=
  fun s => .refl s

theorem read (f : Session σ ι → α) : (Run.read f).Asks :=
  fun s => .refl s

theorem record {e : Event} (he : e.Idle) : (Run.record e : Run σ ι Unit).Asks :=
  fun _ => ⟨rfl, rfl, rfl, [e], rfl, fun _ h => (List.mem_singleton.1 h).symm ▸ he⟩

theorem bind {x : Run σ ι α} {f : α → Run σ ι β} (hx : x.Asks) (hf : ∀ a, (f a).Asks) :
    (x >>= f).Asks := by
  intro s
  have h := hx s
  simp only [Bind.bind]
  rcases hxs : x s with ⟨r, s'⟩
  rw [hxs] at h
  cases r with
  | value a => exact h.trans (hf a s')
  | failed e => exact h
  | exhausted => exact h

variable [Instance ι] {M : Machine σ}

theorem passing (trigger : Trigger) : ∀ ts, (Engine.passing M trigger ts : Run σ ι _).Asks
  | [] => pure _
  | t :: rest => by
    have hcheck : (Run.check M trigger t : Run σ ι Bool).Asks := fun _ =>
      ⟨rfl, rfl, rfl, [.checked t _ _], rfl, fun _ h => (List.mem_singleton.1 h).symm ▸ trivial⟩
    exact hcheck.bind fun _ => (passing trigger rest).bind fun _ => pure _

omit [Instance ι] in
theorem report (f : Fault) : (Engine.report M f : Run σ ι Unit).Asks := by
  refine (record (e := .message .error f.message) trivial).bind fun _ => ?_
  split
  · exact fun s => .refl s
  · exact pure _

end Asks

theorem Affirms.bind {x : Run σ ι α} {f : α → Run σ ι Bool} (hf : ∀ a, (f a).Affirms) :
    (x >>= f).Affirms := fun s b h => by
  obtain ⟨a, -, hb, -⟩ := bind_value h
  exact hf a _ b hb

theorem Affirms.pure_true : (Pure.pure true : Run σ ι Bool).Affirms :=
  fun _ _ h => (Result.value.inj h).symm

theorem Affirms.declines {x : Run σ ι Bool} (hx : x.Affirms) : x.Declines :=
  fun s h => absurd (hx s false h) Bool.false_ne_true

theorem Asks.declines {x : Run σ ι Bool} (hx : x.Asks) : x.Declines :=
  fun s _ => hx s

namespace Declines

theorem bind {x : Run σ ι α} {f : α → Run σ ι Bool} (hx : x.Asks) (hf : ∀ a, (f a).Declines) :
    (x >>= f).Declines := fun s h => by
  obtain ⟨a, -, hb, hs⟩ := bind_value h
  rw [hs]
  exact (hx s).trans (hf a _ hb)

/-- After a positive answer another must follow, after a negative one not. -/
theorem bind_ite {x y z : Run σ ι Bool} (hx : x.Declines) (hy : y.Affirms) (hz : z.Declines) :
    (x >>= fun b => if b then y else z).Declines := fun s h => by
  obtain ⟨b, ha, hb, hs⟩ := bind_value h
  rw [hs]
  cases b with
  | true => exact absurd (hy _ _ hb) Bool.false_ne_true
  | false => exact (hx s ha).trans (hz _ hb)

end Declines

end Run

section

variable [Instance ι] {M : Machine σ} {P : Program σ}

theorem engine_fire_affirms : ∀ (n : Nat) (t : TransitionId) (trigger : Trigger),
    ((engine (ι := ι) M P n).fire t trigger).Affirms
  | 0, _, _ => fun _ _ h => by cases h
  | n + 1, t, trigger => by
    show (Engine.fireTransition M P (engine M P n) t trigger).Affirms
    refine .bind fun _ => .bind fun _ => ?_
    split
    · exact .pure_true
    · exact .bind fun _ => .pure_true

theorem offerRegions_declines {e : Engine σ ι} {state : VertexId} {trigger : Trigger}
    (h : ∀ v, (e.offer v trigger).Declines) :
    ∀ rs, (Engine.offerRegions M e state trigger rs).Declines
  | [] => (Run.Asks.pure _).declines
  | r :: rest => by
    refine .bind (.read _) fun w => ?_
    cases w with
    | none => exact offerRegions_declines h rest
    | some w =>
      refine .bind_ite (h w) (.bind fun b => ?_) (offerRegions_declines h rest)
      split
      · exact .bind fun _ => .pure_true
      · exact .pure_true

theorem offerBeneath_declines {e : Engine σ ι} {state : VertexId} {trigger : Trigger}
    (h : ∀ v, (e.offer v trigger).Declines) :
    (Engine.offerBeneath M e state trigger).Declines := by
  unfold Engine.offerBeneath
  split
  · exact (Run.Asks.pure _).declines
  · exact offerRegions_declines h _

/-- An offer that is answered in the negative has only asked guards. -/
theorem engine_offer_declines : ∀ (n : Nat) (v : VertexId) (trigger : Trigger),
    ((engine (ι := ι) M P n).offer v trigger).Declines
  | 0, _, _ => fun _ h => by cases h
  | n + 1, v, trigger => by
    refine .bind (.record trivial) fun _ => .bind_ite
      (offerBeneath_declines fun w => engine_offer_declines n w trigger)
      (.bind fun _ => .pure_true) ?_
    refine .bind (.passing _ _) fun ts => ?_
    match ts with
    | [] => exact (Run.Asks.pure _).declines
    | [t] => exact (Run.Affirms.bind fun _ => engine_fire_affirms n t trigger).declines
    | _ :: _ :: _ => exact .bind (.report _) fun _ => (Run.Asks.pure _).declines

end

end Hsm
