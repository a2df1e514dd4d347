import Hsm.Proofs.Engine.Answers
import Hsm.Proofs.Machine.Lives

/-!
# Internal transitions

A message that states take with internal transitions runs the effects of these in the order in
which they were taken, and does nothing else, unless it makes the engine look again at a state that
is complete already: the target that an internal transition has kept, or a state that the message
went through on its way down. If such a state has a transition to take on its completion, it takes
it now (`evaluateCompiled_internal`); the setting that keeps internal transitions from completing
states has no say there.
-/

namespace Hsm

variable {σ ι : Type}

/-! ## Effects in order -/

/-- The actions, one after the other, take the environment from `env` to `env'`, and leave the
events, of which the oldest comes first. -/
inductive Performs (trigger : Trigger) : List (Action σ) → σ → List Event → σ → Prop
  | nil (env : σ) : Performs trigger [] env [] env
  | cons {a : Action σ} {as : List (Action σ)} {env env' : σ} {es : List Event}
      (ha : (a trigger env).failure = none) (h : Performs trigger as (a trigger env).env es env') :
      Performs trigger (a :: as) env (.acted (a trigger env).notes none :: es) env'

namespace Performs

variable {trigger : Trigger} {as bs : List (Action σ)} {env env' env'' : σ} {es es' : List Event}

theorem append (h : Performs trigger as env es env') (h' : Performs trigger bs env' es' env'') :
    Performs trigger (as ++ bs) env (es ++ es') env'' := by
  induction h with
  | nil _ => exact h'
  | cons ha _ ih => exact .cons ha (ih h')

end Performs

namespace Event

def isAct : Event → Bool
  | acted .. => true
  | _ => false

/-- The transition with which a state took the message. -/
def taken? (message : String) : Event → Option TransitionId
  | selected _ t (.message m) => if m = message then some t else none
  | _ => none

/-- The transitions with which states took the message, in order. -/
def taken (message : String) (events : List Event) : List TransitionId :=
  events.filterMap (taken? message)

theorem taken_eq_nil {message : String} {es : List Event}
    (h : ∀ e ∈ es, e.taken? message = none) : taken message es = [] :=
  List.filterMap_eq_nil_iff.2 h

theorem taken_append (message : String) (es es' : List Event) :
    taken message (es ++ es') = taken message es ++ taken message es' :=
  List.filterMap_append

theorem taken_selected (message : String) (v : VertexId) (t : TransitionId) (es : List Event) :
    taken message (selected v t (.message message) :: es) = t :: taken message es :=
  List.filterMap_cons_some (if_pos rfl)

theorem mem_taken {message : String} {v : VertexId} {t : TransitionId} {events : List Event}
    (h : selected v t (.message message) ∈ events) : t ∈ taken message events :=
  List.mem_filterMap.2 ⟨_, h, if_pos rfl⟩

/-- Events of a state that takes the message without being left. -/
def Inner (message : String) : Event → Prop
  | entered _ | left _ | setCurrent .. | terminated | drew .. => False
  | selected _ _ trigger => trigger = .message message
  | _ => True

instance (message : String) : DecidablePred (Inner message) := fun e => by
  cases e <;> unfold Inner <;> infer_instance

theorem taken?_of_idle {message : String} (e : Event) (h : e.Idle) : e.taken? message = none := by
  cases e <;> first | rfl | exact h.elim

theorem not_isAct_of_idle (e : Event) (h : e.Idle) : ¬e.isAct := by
  cases e <;> first | exact Bool.false_ne_true | exact h.elim

theorem inner_of_idle {message : String} (e : Event) (h : e.Idle) : e.Inner message := by
  cases e <;> first | exact h.elim | trivial

theorem taken?_of_isAct {message : String} (e : Event) (h : e.isAct) :
    e.taken? message = none := by
  cases e <;> first | rfl | exact absurd h Bool.false_ne_true

theorem inner_of_isAct {message : String} (e : Event) (h : e.isAct) : e.Inner message := by
  cases e with
  | acted notes failure => trivial
  | _ => cases h

end Event

theorem Performs.events {trigger : Trigger} {as : List (Action σ)} {env env' : σ}
    {es : List Event} (h : Performs trigger as env es env') : ∀ e ∈ es, e.isAct = true := by
  induction h with
  | nil _ => exact fun _ h => nomatch h
  | cons _ _ ih => exact List.forall_mem_cons.2 ⟨rfl, ih⟩

/-- The steps of effects perform them. -/
theorem Run.actAll_value {trigger : Trigger} : ∀ {as : List (Action σ)} {s : Session σ ι},
    (Run.actAll trigger as s).1 = .value () → ∃ es env',
      Performs trigger as s.env es env' ∧
        (Run.actAll trigger as s).2 = { s with env := env', trail := es.reverse ++ s.trail }
  | [], s, _ => ⟨[], s.env, .nil _, rfl⟩
  | a :: as, s, h => by
    obtain ⟨u, ha, hrest, hs⟩ := Run.bind_value h
    cases hfail : (a trigger s.env).failure with
    | some e =>
      simp only [Run.act, hfail] at ha
      cases ha
    | none =>
      have hact : (Run.act a trigger s).2 = { s with
          env := (a trigger s.env).env
          trail := .acted (a trigger s.env).notes none :: s.trail } := by
        simp only [Run.act, hfail]
      rw [hact] at hrest hs
      obtain ⟨es, env', hes, hall⟩ := actAll_value hrest
      refine ⟨_, env', .cons hfail hes, hs.trans (hall.trans ?_)⟩
      simp

/-! ## What a run tells of -/

/-- From `s` to `s'` the event happened. -/
def Session.Tells (e : Event) (s s' : Session σ ι) : Prop :=
  ∃ es, s'.trail = es ++ s.trail ∧ e ∈ es

namespace Session

variable {s s' s'' : Session σ ι} {e : Event}

theorem tells_cons (e : Event) (s : Session σ ι) : s.Tells e { s with trail := e :: s.trail } :=
  ⟨[e], rfl, List.mem_singleton.2 rfl⟩

theorem Tells.before (hs : s.trail <:+ s'.trail) (h : s'.Tells e s'') : s.Tells e s'' := by
  obtain ⟨es, hs⟩ := hs
  obtain ⟨es', ht, he⟩ := h
  exact ⟨es' ++ es, by rw [ht, ← hs, List.append_assoc], List.mem_append_left es he⟩

theorem Tells.after (h : s.Tells e s') (hs : s'.trail <:+ s''.trail) : s.Tells e s'' := by
  obtain ⟨es, ht, he⟩ := h
  obtain ⟨es', hs⟩ := hs
  exact ⟨es' ++ es, by rw [← hs, ht, List.append_assoc], List.mem_append_right es' he⟩

theorem Leads.suffix [Instance ι] {T : Topology} {q : Event → Prop} (h : s.Leads T q s') :
    s.trail <:+ s'.trail := by
  obtain ⟨es, ht, -, -⟩ := h
  exact ⟨es, ht.symm⟩

theorem Asks.suffix (h : s.Asks s') : s.trail <:+ s'.trail := by
  obtain ⟨es, ht, -⟩ := h.trail
  exact ⟨es, ht.symm⟩

end Session

section

variable [Instance ι] {M : Machine σ} {P : Program σ}

/-- The completion of a state is asked of its own transitions at once. -/
theorem engine_offer_completion_eq (n : Nat) (v : VertexId) (s : Session σ ι) :
    (engine M P (n + 1)).offer v (.completion v) s =
      (Engine.passing M (.completion v) (M.topology.vertex v).outgoing >>=
        Engine.takeOnly M (engine M P n) v (.completion v))
          { s with trail := .offered v (.completion v) :: s.trail } := by
  have hbeneath : Engine.offerBeneath M (engine (ι := ι) M P n) v (.completion v) = pure false :=
    if_pos (decide_eq_true rfl)
  show Engine.offerState M (engine M P n) v (.completion v) s = _
  unfold Engine.offerState
  rw [hbeneath]
  rfl

/-- If the completion of a state is answered with yes, the state has taken it. -/
theorem engine_offer_completion : ∀ {n : Nat} {v : VertexId} {s : Session σ ι},
    ((engine M P n).offer v (.completion v) s).1 = .value true → ∃ t,
      s.Tells (.selected v t (.completion v)) ((engine M P n).offer v (.completion v) s).2
  | 0, _, _, h => nomatch h
  | n + 1, v, s, h => by
    have hn := engine_grows (ι := ι) (M := M) (P := P) n
    rw [engine_offer_completion_eq] at h ⊢
    obtain ⟨ts, -, h, hs⟩ := Run.bind_value h
    rw [hs]
    have hasks := Run.Asks.passing (M := M) (.completion v) (M.topology.vertex v).outgoing
      { s with trail := .offered v (.completion v) :: s.trail }
    have hbefore : s.trail <:+ (Engine.passing M (.completion v) (M.topology.vertex v).outgoing
        { s with trail := .offered v (.completion v) :: s.trail }).2.trail :=
      (List.suffix_cons _ _).trans hasks.suffix
    match ts, h with
    | [], h => cases h
    | [t], h =>
      refine ⟨t, .before hbefore ((Session.tells_cons _ _).after ?_)⟩
      exact (hn.fire t (.completion v) _).suffix
    | _ :: _ :: _, h =>
      obtain ⟨-, -, h, -⟩ := Run.bind_value h
      cases h

omit [Instance ι] in
theorem Run.discard_value {α : Type} {x : Run σ ι α} {s : Session σ ι} {u : Unit}
    (h : (discard x s).1 = .value u) :
    ∃ a, (x s).1 = .value a ∧ (discard x s).2 = (x s).2 := by
  obtain ⟨a, ha, -, hs⟩ := Run.bind_value (f := fun _ => pure ()) h
  exact ⟨a, ha, hs⟩

/-- Where the completion of a state is offered, the state takes it, or questions were asked. -/
theorem offerCompletion_cases {n : Nat} {v : VertexId} {s : Session σ ι}
    (h : (Engine.offerCompletion M (engine M P n) v s).1 = .value ()) :
    s.Asks (Engine.offerCompletion M (engine M P n) v s).2 ∨
      Instance.isComplete M.topology s.inst v ∧ ∃ t, s.Tells (.selected v t (.completion v))
        (Engine.offerCompletion M (engine M P n) v s).2 := by
  unfold Engine.offerCompletion at h ⊢
  obtain ⟨b, hb, h, hs⟩ := Run.bind_value h
  obtain rfl : Instance.isComplete M.topology s.inst v = b := Result.value.inj hb
  rw [hs]
  split at h
  case isFalse hc =>
    rw [if_neg hc]
    exact .inl (.refl s)
  case isTrue hc =>
    rw [if_pos hc]
    obtain ⟨taken, htaken, hs'⟩ := Run.discard_value h
    rw [hs']
    cases taken with
    | false => exact .inl (engine_offer_declines n v _ _ htaken)
    | true => exact .inr ⟨hc, engine_offer_completion htaken⟩

end

/-! ## Working on a message within states -/

/-- The transition is internal, and leads to no junction and no choice. -/
def Topology.StaysPut (T : Topology) (t : TransitionId) : Prop :=
  (T.transition t).kind = .internal ∧ ∀ v ∈ (T.transition t).target,
    T.pseudoKind? v ≠ some .junction ∧ T.pseudoKind? v ≠ some .choice

instance (T : Topology) : DecidablePred T.StaysPut :=
  fun _ => inferInstanceAs (Decidable (_ ∧ _))

/-- The effects of a transition, unless it is in the model no longer. -/
def Machine.presentEffects (M : Machine σ) (t : TransitionId) : List (Action σ) :=
  if t ∈ M.topology.transitions then M.effects t else []

/-- From `s` to `s'` states took the message with transitions of which the effects ran, and nothing
else happened. -/
structure Session.Works (M : Machine σ) (message : String) (s s' : Session σ ι) : Prop where
  inst : s'.inst = s.inst
  source : s'.source = s.source
  trail : ∃ es : List Event, s'.trail = es.reverse ++ s.trail ∧ (∀ e ∈ es, e.Inner message) ∧
    Performs (.message message) ((Event.taken message es).flatMap M.presentEffects) s.env
      (es.filter Event.isAct) s'.env

section

variable [Instance ι] {M : Machine σ} {message : String}

/-- From `s` to `s'` the completion of `u` may be looked at again: a transition that took the
message has `u` for a target, or the message went through `u` to what is last known in it. -/
def Session.Revisits (M : Machine σ) (message : String) (u : VertexId) (s s' : Session σ ι) :
    Prop :=
  (∃ v t, s.Tells (.selected v t (.message message)) s' ∧
    (M.topology.transition t).target = some u) ∨
  s.Tells (.offered u (.message message)) s' ∧
    ∃ r ∈ (M.topology.vertex u).regions, Instance.lastKnown M.topology r s.inst ≠ none

/-- From `s` to `s'` a state that was complete before took its completion. -/
def Session.Finishes (M : Machine σ) (message : String) (s s' : Session σ ι) : Prop :=
  ∃ u t, s.Tells (.selected u t (.completion u)) s' ∧ Instance.isComplete M.topology s.inst u ∧
    s.Revisits M message u s'

/-- From `s` to `s'` the message was worked on within states, or a completion was taken. -/
def Session.Inward (M : Machine σ) (message : String) (s s' : Session σ ι) : Prop :=
  s.Works M message s' ∨ s.Finishes M message s'

/-- On the trail of the session the message was taken by transitions that stay put only. -/
def Session.PutOnly (M : Machine σ) (message : String) (s : Session σ ι) : Prop :=
  ∀ t ∈ Event.taken message s.trail, M.topology.StaysPut t

namespace Session

variable {s s' s'' : Session σ ι}

omit [Instance ι] in
theorem Works.suffix (h : s.Works M message s') : s.trail <:+ s'.trail := by
  obtain ⟨es, ht, -, -⟩ := h.trail
  exact ⟨es.reverse, ht.symm⟩

omit [Instance ι] in
theorem Works.trans (h : s.Works M message s') (h' : s'.Works M message s'') :
    s.Works M message s'' := by
  obtain ⟨es, ht, hes, hp⟩ := h.trail
  obtain ⟨es', ht', hes', hp'⟩ := h'.trail
  refine ⟨h'.inst.trans h.inst, h'.source.trans h.source, es ++ es', ?_, ?_, ?_⟩
  · rw [ht', ht, List.reverse_append, List.append_assoc]
  · exact fun e he => (List.mem_append.1 he).elim (hes e) (hes' e)
  · rw [Event.taken_append, List.flatMap_append, List.filter_append]
    exact hp.append hp'

omit [Instance ι] in
theorem Asks.works (h : s.Asks s') : s.Works M message s' := by
  obtain ⟨es, ht, hes⟩ := h.trail
  replace hes : ∀ e ∈ es.reverse, e.Idle := fun e he => hes e (List.mem_reverse.1 he)
  have htaken : Event.taken message es.reverse = [] :=
    Event.taken_eq_nil fun e he => e.taken?_of_idle (hes e he)
  have hacts : es.reverse.filter Event.isAct = [] := List.filter_eq_nil_iff.2 fun e he =>
    e.not_isAct_of_idle (hes e he)
  refine ⟨h.inst, h.source, es.reverse, by rw [List.reverse_reverse, ht],
    fun e he => e.inner_of_idle (hes e he), ?_⟩
  rw [htaken, hacts, h.env]
  exact .nil _

theorem Revisits.after {u : VertexId} (h : s.Revisits M message u s')
    (hs : s'.trail <:+ s''.trail) : s.Revisits M message u s'' :=
  h.imp (fun ⟨v, t, hv, hu⟩ => ⟨v, t, hv.after hs, hu⟩) fun ⟨hu, hr⟩ => ⟨hu.after hs, hr⟩

theorem Revisits.before {u : VertexId} (h : s.Works M message s')
    (h' : s'.Revisits M message u s'') : s.Revisits M message u s'' :=
  h'.imp (fun ⟨v, t, hv, hu⟩ => ⟨v, t, hv.before h.suffix, hu⟩)
    fun ⟨hu, hr⟩ => ⟨hu.before h.suffix, h.inst ▸ hr⟩

theorem Finishes.after (h : s.Finishes M message s') (hs : s'.trail <:+ s''.trail) :
    s.Finishes M message s'' := by
  obtain ⟨u, t, htaken, hcomplete, hwhy⟩ := h
  exact ⟨u, t, htaken.after hs, hcomplete, hwhy.after hs⟩

theorem Finishes.before (h : s.Works M message s') (h' : s'.Finishes M message s'') :
    s.Finishes M message s'' := by
  obtain ⟨u, t, htaken, hcomplete, hwhy⟩ := h'
  exact ⟨u, t, htaken.before h.suffix, h.inst ▸ hcomplete, hwhy.before h⟩

theorem Inward.trans (h : s.Inward M message s') (hs : s'.trail <:+ s''.trail)
    (h' : s'.Inward M message s'') : s.Inward M message s'' := by
  obtain h | h := h
  · exact h'.imp h.trans (.before h)
  · exact .inr (h.after hs)

omit [Instance ι] in
theorem PutOnly.before (h : s'.PutOnly M message) (hs : s.trail <:+ s'.trail) :
    s.PutOnly M message :=
  fun t ht => h t ((hs.filterMap _).subset ht)

end Session

/-- If the run ends with a value and the message was taken by transitions that stay put only, it
was worked on within states. -/
structure Run.Inward (M : Machine σ) (message : String) {α : Type} (x : Run σ ι α) : Prop where
  suffix : ∀ s, s.trail <:+ (x s).2.trail
  inward : ∀ s a, (x s).1 = .value a → (x s).2.PutOnly M message → s.Inward M message (x s).2

namespace Run.Inward

variable {α β : Type} {x : Run σ ι α} {f : α → Run σ ι β}

theorem of_asks (h : x.Asks) : x.Inward M message :=
  ⟨fun s => (h s).suffix, fun s _ _ _ => .inl (h s).works⟩

theorem pure (a : α) : Inward M message (Pure.pure a : Run σ ι α) :=
  .of_asks (.pure a)

theorem bind (hx : x.Inward M message) (hf : ∀ a, (f a).Inward M message) :
    (x >>= f).Inward M message where
  suffix s := by
    have h := hx.suffix s
    simp only [Bind.bind]
    rcases hxs : x s with ⟨r, s'⟩
    rw [hxs] at h
    cases r with
    | value a => exact h.trans ((hf a).suffix s')
    | failed e => exact h
    | exhausted => exact h
  inward s b h hput := by
    obtain ⟨a, ha, hb, hs⟩ := bind_value h
    rw [hs] at hput ⊢
    -- which transitions were taken is said of the trail at the end, so it has to reach back
    have hgrow := (hf a).suffix (x s).2
    exact (hx.inward s a ha (hput.before hgrow)).trans hgrow ((hf a).inward _ b hb hput)

end Run.Inward

/-! ## Layers of the engine -/

section

variable {P : Program σ}

/-- The steps of actions run the actions. -/
theorem performAll_behaviors (n : Nat) (trigger : Trigger) (deep : Bool) :
    ∀ as : List (Action σ), (engine (ι := ι) M P (n + 1)).performAll trigger deep
      (as.map .behavior) = Run.actAll trigger as
  | [] => rfl
  | _ :: as => congrArg (Run.act _ trigger >>= fun _ => ·) (performAll_behaviors n trigger deep as)

theorem legs_of_staysPut {t : TransitionId} (h : M.topology.StaysPut t) (n : Nat)
    (trigger : Trigger) : (engine (ι := ι) M P (n + 1)).legs t trigger = pure [t] := by
  show Engine.legsFrom M (engine M P n) t trigger = _
  unfold Engine.legsFrom
  split
  case h_1 v hv => exact if_neg (h.2 v hv).1
  case h_2 => rfl

end

/-- From its end a transition that stays put leads on to the completion of a state only. -/
theorem fire_of_staysPut {P : Program σ} {t : TransitionId} (h : M.topology.StaysPut t) (n : Nat)
    (trigger : Trigger) : (engine (ι := ι) M P (n + 2)).fire t trigger =
      Engine.traverseAll P (engine M P (n + 1)) trigger [t] >>= fun _ =>
        match (M.topology.transition t).target with
        | none => pure true
        | some u =>
          (if M.topology.isState u then Engine.offerCompletion M (engine M P (n + 1)) u
            else pure ()) >>= fun _ => pure true := by
  show Engine.fireTransition M P (engine M P (n + 1)) t trigger = _
  unfold Engine.fireTransition
  rw [legs_of_staysPut h]
  refine congrArg (Engine.traverseAll P (engine M P (n + 1)) trigger [t] >>= fun _ => ·) ?_
  dsimp only [List.getLast?_singleton, Option.getD_some]
  cases htarget : (M.topology.transition t).target with
  | none => rfl
  | some u =>
    have hlead : Engine.leadOn M (engine (ι := ι) M P (n + 1)) trigger u =
        if M.topology.isState u then Engine.offerCompletion M (engine M P (n + 1)) u else pure () :=
      if_neg (h.2 u htarget).2
    exact congrArg (· >>= fun _ => pure true) hlead

theorem traversal_of_staysPut (hflag : M.settings.completeInternal = false) {t : TransitionId}
    (h : M.topology.StaysPut t) : M.compile.traversal t = (M.presentEffects t).map .behavior := by
  unfold Machine.presentEffects
  split
  case isTrue ht =>
    rw [Machine.traversal_compile ht, Machine.traversalSteps, h.1, hflag]
    simp
  case isFalse ht => rw [Machine.traversal_compile_of_not_mem ht, List.map_nil]

section

variable (hflag : M.settings.completeInternal = false) {t : TransitionId}
  (hput : M.topology.StaysPut t)
include hflag hput

/-- Of a transition that stays put the effects run. -/
theorem traverseAll_works {n : Nat} {v : VertexId} {s : Session σ ι}
    (h : (Engine.traverseAll M.compile (engine M M.compile (n + 1)) (.message message) [t]
      { s with trail := .selected v t (.message message) :: s.trail }).1 = .value ()) :
    s.Works M message (Engine.traverseAll M.compile (engine M M.compile (n + 1))
      (.message message) [t]
        { s with trail := .selected v t (.message message) :: s.trail }).2 := by
  have heq : Engine.traverseAll M.compile (engine (ι := ι) M M.compile (n + 1)) (.message message)
      [t] = Run.record (.traversed t) >>= fun _ =>
        Run.actAll (.message message) (M.presentEffects t) >>= fun _ => pure () := by
    unfold Engine.traverseAll
    rw [traversal_of_staysPut hflag hput, performAll_behaviors]
    rfl
  rw [heq] at h ⊢
  obtain ⟨-, -, h, hs⟩ := Run.bind_value h
  obtain ⟨u, hacts, -, hs'⟩ := Run.bind_value h
  obtain ⟨es, env', hperforms, hend⟩ := Run.actAll_value hacts
  rw [hs, hs', hend]
  have hes := hperforms.events
  refine ⟨rfl, rfl, .selected v t (.message message) :: .traversed t :: es, ?_, ?_, ?_⟩
  · show es.reverse ++ .traversed t :: .selected v t (.message message) :: s.trail = _
    simp
  · simpa [Event.Inner] using fun e he => e.inner_of_isAct (hes e he)
  · have htaken : Event.taken message (.traversed t :: es) = [] :=
      Event.taken_eq_nil (List.forall_mem_cons.2 ⟨rfl, fun e he => e.taken?_of_isAct (hes e he)⟩)
    have hacted : (.selected v t (.message message) :: .traversed t :: es).filter Event.isAct =
        es := by
      simp [Event.isAct, List.filter_eq_self.2 hes]
    rw [Event.taken_selected, htaken, hacted, List.flatMap_singleton]
    exact hperforms

end

/-- Where the completion of a state is looked at again, it is taken, or nothing more happens. -/
theorem Session.Inward.completion {P : Program σ} {n : Nat} {u : VertexId} {s s' : Session σ ι}
    (h : s.Inward M message s') (hwhy : s.Revisits M message u s')
    (hc : (Engine.offerCompletion M (engine M P n) u s').1 = .value ()) :
    s.Inward M message (Engine.offerCompletion M (engine M P n) u s').2 := by
  have hgrow := ((engine_grows (ι := ι) (M := M) (P := P) n).offerCompletion u s').suffix
  obtain hworks | hfinishes := h
  · obtain hasks | ⟨hcomplete, t, htaken⟩ := offerCompletion_cases hc
    · exact .inl (hworks.trans hasks.works)
    · -- the instance is as before, so the state was complete from the beginning
      exact .inr ⟨u, t, htaken.before hworks.suffix, hworks.inst ▸ hcomplete, hwhy.after hgrow⟩
  · exact .inr (hfinishes.after hgrow)

section

variable {P : Program σ} {n : Nat}
  (hoffer : ∀ w, ((engine (ι := ι) M P n).offer w (.message message)).Inward M message)
  (v : VertexId)
include hoffer

theorem offerRegions_inward : ∀ rs,
    (Engine.offerRegions M (engine (ι := ι) M P n) v (.message message) rs).Inward M message
  | [] => .pure _
  | r :: rest => by
    refine .bind (.of_asks (.read _)) fun o => ?_
    cases o with
    | none => exact offerRegions_inward rest
    | some w =>
      refine .bind (hoffer w) fun b => ?_
      split
      · refine .bind (.of_asks (.read _)) fun active => ?_
        split
        · exact .bind (offerRegions_inward rest) fun _ => .pure _
        · exact .pure _
      · exact offerRegions_inward rest

end

/-- A message is taken beneath a state only by way of what is last known in it. -/
theorem lastKnown_of_offerRegions {e : Engine σ ι} {v : VertexId} {trigger : Trigger} :
    ∀ {rs : List RegionId} {s : Session σ ι},
      (Engine.offerRegions M e v trigger rs s).1 = .value true →
        ∃ r ∈ rs, Instance.lastKnown M.topology r s.inst ≠ none
  | [], _, h => nomatch h
  | r :: rest, s, h => by
    obtain ⟨o, ho, h, -⟩ := Run.bind_value h
    obtain rfl : Instance.lastKnown M.topology r s.inst = o := Result.value.inj ho
    cases hlast : Instance.lastKnown M.topology r s.inst with
    | none =>
      rw [hlast] at h
      obtain ⟨r', hr', hw⟩ := lastKnown_of_offerRegions (s := s) h
      exact ⟨r', List.mem_cons_of_mem r hr', hw⟩
    | some w => exact ⟨r, List.mem_cons_self, hlast ▸ Option.some_ne_none w⟩

/-- What takes the message beneath a state, and the state itself, work on it. -/
theorem offerState_inward {P : Program σ} {n : Nat} {v : VertexId}
    (hbeneath : (Engine.offerRegions M (engine (ι := ι) M P n) v (.message message)
      (M.topology.vertex v).regions).Inward M message)
    (hown : (Engine.passing M (.message message) (M.topology.vertex v).outgoing >>=
      Engine.takeOnly M (engine (ι := ι) M P n) v (.message message)).Inward M message) :
    ((engine (ι := ι) M P (n + 1)).offer v (.message message)).Inward M message := by
  have hn := engine_grows (ι := ι) (M := M) (P := P) n
  refine ⟨fun s => ((engine_grows (M := M) (P := P) (n + 1)).offer trivial v _ s).suffix,
    fun s b h hput => ?_⟩
  have heq : (engine M P (n + 1)).offer v (.message message) s =
      (Engine.offerRegions M (engine (ι := ι) M P n) v (.message message)
          (M.topology.vertex v).regions >>= fun taken =>
        if taken then Engine.offerCompletion M (engine M P n) v >>= fun _ => pure true
        else Engine.passing M (.message message) (M.topology.vertex v).outgoing >>=
          Engine.takeOnly M (engine M P n) v (.message message))
        { s with trail := .offered v (.message message) :: s.trail } := rfl
  rw [heq] at h hput ⊢
  generalize hs₀ : ({ s with trail := .offered v (.message message) :: s.trail } :
    Session σ ι) = s₀ at h hput ⊢
  have hoffered : s.Works M message s₀ :=
    hs₀ ▸ (Run.Asks.record (e := .offered v (.message message)) trivial s).works
  have htold : s.Tells (.offered v (.message message)) s₀ := hs₀ ▸ s.tells_cons _
  obtain ⟨taken, hbelow, h, hs⟩ := Run.bind_value h
  have hgrow := hbeneath.suffix s₀
  rw [hs] at hput ⊢
  generalize hs₁ : (Engine.offerRegions M (engine (ι := ι) M P n) v (.message message)
    (M.topology.vertex v).regions s₀).2 = s₁ at h hput hgrow ⊢
  have hinward : s₁.PutOnly M message → s.Inward M message s₁ := fun hput =>
    .trans (.inl hoffered) hgrow (hs₁ ▸ hbeneath.inward s₀ taken hbelow (hs₁ ▸ hput))
  cases taken with
  | false =>
    rw [if_neg Bool.false_ne_true] at h hput ⊢
    have hgrow' := hown.suffix s₁
    exact (hinward (hput.before hgrow')).trans hgrow' (hown.inward s₁ b h hput)
  | true =>
    rw [if_pos rfl] at h hput ⊢
    obtain ⟨u, hcompletion, -, hs'⟩ := Run.bind_value h
    rw [hs'] at hput ⊢
    obtain ⟨r, hr, hlast⟩ := lastKnown_of_offerRegions hbelow
    exact (hinward (hput.before (hn.offerCompletion v s₁).suffix)).completion
      (.inr ⟨htold.after hgrow, r, hr, hoffered.inst ▸ hlast⟩) hcompletion

section

variable (hflag : M.settings.completeInternal = false)
include hflag

/-- A state that takes the message with a transition that stays put works on it. -/
theorem fire_inward : ∀ (n : Nat) (v : VertexId) (t : TransitionId) {s : Session σ ι} {b : Bool},
    ((engine M M.compile n).fire t (.message message)
      { s with trail := .selected v t (.message message) :: s.trail }).1 = .value b →
    M.topology.StaysPut t → s.Inward M message ((engine M M.compile n).fire t (.message message)
      { s with trail := .selected v t (.message message) :: s.trail }).2
  | 0, _, _, _, _, h, _ => nomatch h
  | 1, _, _, _, _, h, _ => by
    -- the engine below cannot even tell the legs of the transition
    obtain ⟨legs, hl, -⟩ := Run.bind_value h
    cases hl
  | n + 2, v, t, s, b, h, hput => by
    have hn := engine_grows (ι := ι) (M := M) (P := M.compile) (n + 1)
    rw [fire_of_staysPut hput] at h ⊢
    obtain ⟨u, htraverse, h, hend⟩ := Run.bind_value h
    have hworks := traverseAll_works hflag hput htraverse
    have htold := (Session.tells_cons (.selected v t (.message message)) s).after
      ((Engine.Related.traverseAll grows_uniform M.compile.all_allowed hn
        (.message message) [t]) _).suffix
    rw [hend]
    cases htarget : (M.topology.transition t).target with
    | none => exact .inl hworks
    | some w =>
      simp only [htarget] at h ⊢
      obtain ⟨x, hlead, -, hend⟩ := Run.bind_value h
      rw [hend]
      by_cases hstate : M.topology.isState w = true
      · rw [if_pos hstate] at hlead ⊢
        exact Session.Inward.completion (.inl hworks) (.inl ⟨v, t, htold, htarget⟩) hlead
      · rw [if_neg hstate]
        exact .inl hworks

theorem takeOnly_inward (n : Nat) (v : VertexId) : ∀ ts : List TransitionId,
    (Engine.takeOnly M (engine (ι := ι) M M.compile n) v (.message message) ts).Inward M message
  | [] => .pure _
  | [t] => by
    have hn := engine_grows (ι := ι) (M := M) (P := M.compile) n
    have hsuffix : ∀ s : Session σ ι, .selected v t (.message message) :: s.trail <:+
        (Engine.takeOnly M (engine M M.compile n) v (.message message) [t] s).2.trail := fun s =>
      (hn.fire t _ { s with trail := .selected v t (.message message) :: s.trail }).suffix
    refine ⟨fun s => (List.suffix_cons _ _).trans (hsuffix s), fun s b h hputs => ?_⟩
    have hput := hputs t (Event.mem_taken ((hsuffix s).subset List.mem_cons_self))
    obtain ⟨-, -, h, -⟩ := Run.bind_value h
    exact fire_inward hflag n v t h hput
  | _ :: _ :: _ => .bind (.of_asks (.report _)) fun _ => .pure _

/-- A state that is offered the message works on it, or a completion is taken. -/
theorem engine_inward : ∀ (n : Nat) (v : VertexId),
    ((engine (ι := ι) M M.compile n).offer v (.message message)).Inward M message
  | 0, _ => ⟨fun _ => List.suffix_rfl, fun _ _ h _ => nomatch h⟩
  | n + 1, v => offerState_inward (offerRegions_inward (engine_inward n) v _)
      (.bind (.of_asks (.passing _ _)) (takeOnly_inward hflag n v))

theorem evaluateRun_inward (depth : Nat) (s : Session σ ι) {b : Bool}
    (h : (M.evaluateRun depth message M.compile s).1 = .value b)
    (hput : (M.evaluateRun depth message M.compile s).2.PutOnly M message) :
    (s.announced ("evaluate " ++ Text.quoted message)).Inward M message
      (M.evaluateRun depth message M.compile s).2 := by
  rw [evaluateRun_eq] at h hput ⊢
  split at h <;> rename_i hterm
  · rw [if_pos hterm]
    exact .inl (Session.Asks.refl _).works
  · rw [if_neg hterm] at hput ⊢
    exact (engine_inward hflag depth Topology.root).inward _ b h hput

end

end

/-! ## Evaluations -/

section

variable [Instance ι] {M : Machine σ} {message : String}

/-- The outcome of an evaluation that leaves nothing but the effects of the transitions that took
the message, run in the order in which they were taken, and the line that it traces. -/
structure Outcome.OnlyEffects (M : Machine σ) (env : σ) (i : ι) (message : String)
    (o : Outcome σ ι Bool) : Prop where
  machine : o.machine = M
  inst : o.inst = Instance.trace ("evaluate " ++ Text.quoted message) i
  agree : Instance.Agree M.topology o.inst i
  inner : ∀ e ∈ o.events, e.Inner message
  performs : Performs (.message message) ((Event.taken message o.events).flatMap M.presentEffects)
    env (o.events.filter Event.isAct) o.env

/-- A state that was complete before took its completion, after it had been the target of a
transition that took the message or the message had gone through it to what is beneath it. -/
def Outcome.Finishes (M : Machine σ) (i : ι) (message : String) (o : Outcome σ ι Bool) : Prop :=
  ∃ u t, .selected u t (.completion u) ∈ o.events ∧ Instance.isComplete M.topology i u ∧
    ((∃ v t', .selected v t' (.message message) ∈ o.events ∧
      (M.topology.transition t').target = some u) ∨
    .offered u (.message message) ∈ o.events ∧
      ∃ r ∈ (M.topology.vertex u).regions, Instance.lastKnown M.topology r i ≠ none)

/-- An evaluation that succeeds runs the program of the model as it is. -/
theorem Machine.Reachable.evaluateCompiled_eq {allowed : Edit σ → Prop} (hM : M.Reachable allowed)
    {depth : Nat} {env : σ} {i : ι}
    (hok : (M.evaluateCompiled depth env i message).result.Succeeds) :
    M.evaluateCompiled depth env i message =
      M.execute env i (M.evaluateRun depth message M.compile) := by
  obtain ⟨b, hb⟩ := hok
  unfold Machine.evaluateCompiled Machine.executeCompiled at hb ⊢
  split at hb
  case h_2 => cases hb
  case h_1 P hc hP =>
    obtain rfl : P = M.compile := Option.some.inj (hP.symm.trans (hM.program_eq hc))
    rfl

theorem Session.Works.onlyEffects [Instance.Tracing ι] {env : σ} {i : ι}
    {x : Run σ ι Bool} (h : (Session.announced ⟨env, i, M.settings.source, []⟩
      ("evaluate " ++ Text.quoted message)).Works M message
        (x ⟨env, i, M.settings.source, []⟩).2) :
    (M.execute env i x).OnlyEffects M env i message := by
  obtain ⟨es, ht, hes, hperforms⟩ := h.trail
  have hevents : (M.execute env i x).events = [.message .debug (Instance.name i ++ " " ++
      ("evaluate " ++ Text.quoted message)), .traced ("evaluate " ++ Text.quoted message)] ++ es :=
    (congrArg List.reverse ht).trans (by simp [Session.announced])
  have hinst : (M.execute env i x).inst =
      Instance.trace ("evaluate " ++ Text.quoted message) i := h.inst
  refine ⟨congrArg (fun source => { M with settings.source := source }) h.source, hinst,
    hinst ▸ Instance.Tracing.agree M.topology _ i, ?_, ?_⟩
  · rw [hevents]
    exact List.forall_mem_append.2 ⟨by simp [Event.Inner], hes⟩
  · rw [hevents]
    exact hperforms

omit [Instance ι] in
/-- What the session tells of from its beginning is among the events. -/
theorem Session.Tells.mem_events {env : σ} {i : ι} {x : Run σ ι Bool} {s : Session σ ι} {e : Event}
    (h : s.Tells e (x ⟨env, i, M.settings.source, []⟩).2) : e ∈ (M.execute env i x).events := by
  obtain ⟨es, ht, he⟩ := h
  exact List.mem_reverse.2 (ht ▸ List.mem_append_left _ he)

theorem Session.Finishes.outcome [Instance.Tracing ι] {env : σ} {i : ι} {line : String}
    {x : Run σ ι Bool} (h : (Session.announced ⟨env, i, M.settings.source, []⟩ line).Finishes M
      message (x ⟨env, i, M.settings.source, []⟩).2) :
    (M.execute env i x).Finishes M i message := by
  obtain ⟨u, t, htaken, hcomplete, hwhy⟩ := h
  have hagree := Instance.Tracing.agree M.topology line i
  refine ⟨u, t, htaken.mem_events, (hagree.isComplete u).symm.trans hcomplete, ?_⟩
  obtain ⟨v, t', ht', htarget⟩ | ⟨hu, r, hr, hlast⟩ := hwhy
  · exact .inl ⟨v, t', ht'.mem_events, htarget⟩
  · exact .inr ⟨hu.mem_events, r, hr, hagree.lastKnown r ▸ hlast⟩

/-- In a model that does not let internal transitions complete states, a message that internal
transitions take has their effects and no other, except where it makes the engine look again at a
state that is complete already and has a transition to take on its completion. -/
theorem evaluateCompiled_internal [Instance.Tracing ι] {allowed : Edit σ → Prop}
    (hM : M.Reachable allowed) (hflag : M.settings.completeInternal = false) (depth : Nat)
    (env : σ) (i : ι) (hok : (M.evaluateCompiled depth env i message).result.Succeeds)
    (hput : ∀ t ∈ Event.taken message (M.evaluateCompiled depth env i message).events,
      M.topology.StaysPut t) :
    (M.evaluateCompiled depth env i message).OnlyEffects M env i message ∨
      (M.evaluateCompiled depth env i message).Finishes M i message := by
  have heq := hM.evaluateCompiled_eq hok
  rw [heq] at hok hput ⊢
  obtain ⟨b, hb⟩ := hok
  have hputs : (M.evaluateRun depth message M.compile
      ⟨env, i, M.settings.source, []⟩).2.PutOnly M message := by
    intro t ht
    refine hput t ?_
    show t ∈ Event.taken message (List.reverse _)
    rw [Event.taken, List.filterMap_reverse]
    exact List.mem_reverse.2 ht
  exact (evaluateRun_inward hflag depth _ hb hputs).imp Session.Works.onlyEffects
    Session.Finishes.outcome

/-- The machine counts ticks in one region and doubles the count in the other. -/
def counting : Machine Nat := .build "m" {} [
  .addVertex "i" (.state ⟨0⟩) (.pseudo .initial), .addVertex "s" (.state ⟨0⟩) .state,
  .addTransition ⟨1⟩ (some ⟨2⟩),
  .addRegion "p" ⟨2⟩, .addRegion "q" ⟨2⟩,
  .addVertex "i" (.region ⟨1⟩) (.pseudo .initial), .addVertex "a" (.region ⟨1⟩) .state,
  .addTransition ⟨3⟩ (some ⟨4⟩),
  .addVertex "i" (.region ⟨2⟩) (.pseudo .initial), .addVertex "b" (.region ⟨2⟩) .state,
  .addTransition ⟨5⟩ (some ⟨6⟩),
  .addTransition ⟨4⟩ none, .addTransition ⟨6⟩ (some ⟨6⟩),
  .modifyTransition ⟨3⟩ fun t => { t with
    guard := .on "tick", effects := [fun _ env => { env := env + 1 }] },
  .setTransitionKind ⟨4⟩ .internal,
  .modifyTransition ⟨4⟩ fun t => { t with
    guard := .on "tick", effects := [fun _ env => { env := 2 * env }] }]

theorem counting_tick :
    let started := counting.call (⟨"i", {}, {}, false⟩ : TableInstance) (.start 9 0)
    let tick := started.machine.evaluateCompiled 9 20 started.inst "tick"
    tick.OnlyEffects started.machine 20 started.inst "tick" ∧ tick.env = 42 := by
  intro started tick
  have hM : counting.Reachable fun _ => True := .build (by decide +kernel) fun _ _ => trivial
  obtain ⟨source, hsource⟩ := hM.call_machine (⟨"i", {}, {}, false⟩ : TableInstance) (.start 9 0)
  have hinner : ∀ e ∈ tick.events, e.Inner "tick" := by decide +kernel
  refine ⟨(evaluateCompiled_internal (hsource ▸ hM.ready source) (by decide +kernel) 9 20
    started.inst ⟨true, by decide +kernel⟩ (by decide +kernel)).resolve_right ?_,
    by decide +kernel⟩
  rintro ⟨u, t, htaken, -⟩
  exact nomatch hinner _ htaken

end

/-- At a tick the machine stays in its state by an internal transition that has kept its target,
which has nothing to wait for. -/
def straying : Machine Nat := .build "m" {} [
  .addVertex "i" (.state ⟨0⟩) (.pseudo .initial), .addVertex "a" (.state ⟨0⟩) .state,
  .addVertex "b" (.state ⟨0⟩) .state, .addVertex "c" (.state ⟨0⟩) .state,
  .addTransition ⟨1⟩ (some ⟨2⟩), .addTransition ⟨2⟩ (some ⟨3⟩), .addTransition ⟨3⟩ (some ⟨4⟩),
  .setTransitionKind ⟨1⟩ .internal,
  .modifyTransition ⟨1⟩ fun t => { t with
    guard := .on "tick", effects := [fun _ env => { env := env + 1 }] }]

/-- The tick is taken by the internal transition only, yet the machine is in another state
afterwards. -/
theorem straying_tick :
    let started := straying.call (⟨"i", {}, {}, false⟩ : TableInstance) (.start 9 0)
    let tick := started.machine.evaluateCompiled 9 0 started.inst "tick"
    started.machine.settings.completeInternal = false ∧ tick.result = .value true ∧
      (∀ t ∈ Event.taken "tick" tick.events,
        (started.machine.topology.transition t).kind = .internal) ∧
      .selected ⟨3⟩ ⟨2⟩ (.completion ⟨3⟩) ∈ tick.events ∧
      Instance.current started.machine.topology ⟨0⟩ started.inst = some ⟨2⟩ ∧
      Instance.current started.machine.topology ⟨0⟩ tick.inst = some ⟨4⟩ := by
  decide +kernel

end Hsm
