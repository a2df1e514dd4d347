import Hsm.Proofs.Engine.Internal
import Hsm.Proofs.Engine.Junctions
import Hsm.Proofs.Engine.Offers

/-!
# What a run enacts

A run enacts a list of actions if it ends with a value and these actions, in this order, are the
only ones that it runs (`Run.Enacts`). Which instance it starts from and which one it leads to is
part of the statement, and nothing else is: neither the environment nor what has happened before
has a say in how the run goes. Runs one after the other enact their actions one after the other.
-/

namespace Hsm

variable {σ : Type}

/-- The action fails in no environment. -/
def Action.Succeeds (a : Action σ) : Prop :=
  ∀ trigger env, (a trigger env).failure = none

namespace Run

variable {α β : Type}

/-- From the instance `i` the run ends with `a` and leads to the instance `j`, and the actions that
it runs are `as`. -/
def Enacts (x : Run σ TableInstance α) (trigger : Trigger) (as : List (Action σ))
    (i j : TableInstance) (a : α) : Prop :=
  ∀ s, s.inst = i → ∃ s', x s = (.value a, s') ∧ s'.inst = j ∧ s'.source = s.source ∧
    ∃ es : List Event, s'.trail = es.reverse ++ s.trail ∧
      Performs trigger as s.env (es.filter Event.isAct) s'.env

namespace Enacts

variable {x : Run σ TableInstance α} {f : α → Run σ TableInstance β} {trigger : Trigger}
  {as bs : List (Action σ)} {i j k : TableInstance} {a : α} {b : β}

theorem bind (hx : x.Enacts trigger as i j a) (hf : (f a).Enacts trigger bs j k b) :
    (x >>= f).Enacts trigger (as ++ bs) i k b := by
  intro s hs
  obtain ⟨s', hxs, hj, hsource, es, ht, hes⟩ := hx s hs
  obtain ⟨s'', hfs, hk, hsource', es', ht', hes'⟩ := hf s' hj
  refine ⟨s'', (bind_of_value hxs).trans hfs, hk, hsource'.trans hsource, es ++ es', ?_, ?_⟩
  · rw [ht', ht, List.reverse_append, List.append_assoc]
  · rw [List.filter_append]
    exact hes.append hes'

/-- What comes first enacts nothing. -/
theorem after (hx : x.Enacts trigger [] i j a) (hf : (f a).Enacts trigger bs j k b) :
    (x >>= f).Enacts trigger bs i k b :=
  hx.bind hf

/-- What follows enacts nothing. -/
theorem before (hx : x.Enacts trigger as i j a) (hf : (f a).Enacts trigger [] j k b) :
    (x >>= f).Enacts trigger as i k b :=
  List.append_nil as ▸ hx.bind hf

/-- A run that only asks enacts nothing. -/
theorem of_asks (hx : x.Asks) (ha : ∀ s, s.inst = i → (x s).1 = .value a) :
    x.Enacts trigger [] i i a := by
  intro s hs
  obtain ⟨henv, hinst, hsource, es, ht, hes⟩ := hx s
  refine ⟨(x s).2, Prod.ext (ha s hs) rfl, hinst.trans hs, hsource, es.reverse, ?_, ?_⟩
  · rw [ht, List.reverse_reverse]
  · have hnone : es.reverse.filter Event.isAct = [] := List.filter_eq_nil_iff.2 fun e he =>
      Event.not_isAct_of_idle e (hes e (List.mem_reverse.1 he))
    rw [hnone, henv]
    exact .nil _

theorem pure : (Pure.pure a : Run σ TableInstance α).Enacts trigger [] i i a :=
  of_asks (.pure a) fun _ _ => rfl

theorem read {g : Session σ TableInstance → α} (h : ∀ s, s.inst = i → g s = a) :
    (Run.read g).Enacts trigger [] i i a :=
  of_asks (.read g) fun s hs => congrArg Result.value (h s hs)

theorem record {e : Event} (he : e.isAct = false) :
    (Run.record e : Run σ TableInstance Unit).Enacts trigger [] i i () := by
  refine fun s hs => ⟨_, rfl, hs, rfl, [e], rfl, ?_⟩
  rw [List.filter_singleton, he]
  exact .nil _

theorem say (level : Level) (text : String) :
    (Run.say level text : Run σ TableInstance Unit).Enacts trigger [] i i () :=
  record rfl

theorem trace (line : String) :
    (Run.trace line : Run σ TableInstance Unit).Enacts trigger [] i i () :=
  fun _ hs => ⟨_, rfl, hs, rfl, [.traced line], rfl, .nil _⟩

theorem actAll : ∀ {as : List (Action σ)}, (∀ a ∈ as, a.Succeeds) →
    (Run.actAll trigger as : Run σ TableInstance Unit).Enacts trigger as i i ()
  | [], _ => pure
  | a :: as, h => by
    have ha : (Run.act a trigger : Run σ TableInstance Unit).Enacts trigger [a] i i () := by
      intro s hs
      have hok := h a List.mem_cons_self trigger s.env
      refine ⟨{ s with
        env := (a trigger s.env).env
        trail := .acted (a trigger s.env).notes none :: s.trail }, ?_, hs, rfl,
        [.acted (a trigger s.env).notes none], rfl, .cons hok (.nil _)⟩
      simp only [Run.act, hok]
    exact ha.bind (actAll fun b hb => h b (List.mem_cons_of_mem _ hb))

/-! ## Parts of the engine -/

variable {M : Machine σ} {P : Program σ}

theorem passing {asked : Trigger} {ts : List TransitionId} {q : TransitionId → Bool}
    (h : ∀ t ∈ ts, ∀ context, ((M.guard t).check asked context).holds = q t) :
    (Engine.passing M asked ts).Enacts trigger [] i i (ts.filter q) :=
  of_asks (.passing asked ts) fun s _ => by
    rw [passing_eq asked ts s, List.filter_congr fun t ht => h t ht _]

theorem report (h : M.settings.onError = .ignoreAndLog) (f : Fault) :
    (Engine.report M f : Run σ TableInstance Unit).Enacts trigger [] i i () :=
  of_asks (.report f) fun s _ => by
    unfold Engine.report
    rw [h]
    rfl

theorem announce (verb : String) (e : Element) :
    (Engine.announce M verb e : Run σ TableInstance Unit).Enacts trigger [] i i () :=
  (read (a := i.name) fun _ hs => congrArg TableInstance.name hs).after
    ((say _ _).after (trace _))

variable {n : Nat} {deep : Bool}

theorem performAll_cons {e : Engine σ TableInstance} {step : Step σ} {steps : List (Step σ)}
    (hstep : (e.perform step trigger deep).Enacts trigger [] i j ())
    (hsteps : (e.performAll trigger deep steps).Enacts trigger as j k ()) :
    (e.performAll trigger deep (step :: steps)).Enacts trigger as i k () :=
  hstep.after hsteps

theorem performAll_append {e : Engine σ TableInstance} {xs ys : List (Step σ)}
    (hxs : (e.performAll trigger deep xs).Enacts trigger as i j ())
    (hys : (e.performAll trigger deep ys).Enacts trigger bs j k ()) :
    (e.performAll trigger deep (xs ++ ys)).Enacts trigger (as ++ bs) i k () := by
  rw [e.performAll_append]
  exact hxs.bind hys

theorem behaviors (h : ∀ a ∈ as, a.Succeeds) :
    ((engine M P (n + 1)).performAll trigger deep (as.map .behavior)).Enacts trigger as i i () := by
  rw [performAll_behaviors]
  exact actAll h

theorem enter (e : Element) :
    ((engine M P (n + 1)).perform (.enter e) trigger deep).Enacts trigger [] i i () :=
  (record rfl).after (announce _ e)

theorem leave (e : Element) :
    ((engine M P (n + 1)).perform (.leave e) trigger deep).Enacts trigger [] i i () :=
  (record rfl).after (announce _ e)

theorem setCurrent (r : RegionId) (v : VertexId) :
    ((engine M P (n + 1)).perform (.setCurrent r v) trigger deep).Enacts trigger [] i
      (i.setCurrent M.topology r v) () :=
  fun _ hs => ⟨_, rfl, congrArg (TableInstance.setCurrent M.topology r v) hs, rfl,
    [.setCurrent r v], rfl, .nil _⟩

/-! ## Calls -/

/-- What a call answers, leaves and tells of when its run enacts. -/
theorem outcome (h : x.Enacts trigger as i j a) (env : σ) (source : IndexSource) :
    (M.outcome (x ⟨env, i, source, []⟩)).result = .value a ∧
      (M.outcome (x ⟨env, i, source, []⟩)).machine = M.ready source ∧
      (M.outcome (x ⟨env, i, source, []⟩)).inst = j ∧
      Performs trigger as env ((M.outcome (x ⟨env, i, source, []⟩)).events.filter Event.isAct)
        (M.outcome (x ⟨env, i, source, []⟩)).env := by
  obtain ⟨s, hs, hj, hsource, es, ht, hes⟩ := h ⟨env, i, source, []⟩ rfl
  have hpreamble : M.preamble.filter Event.isAct = [] := List.filter_eq_nil_iff.2 fun e he =>
    Event.not_isAct_of_idle e (M.idle_of_mem_preamble he)
  have htrail : s.trail.reverse = es := by
    rw [ht, List.append_nil, List.reverse_reverse]
  rw [hs]
  refine ⟨rfl, congrArg M.ready hsource, hj, ?_⟩
  show Performs trigger as env ((M.preamble ++ s.trail.reverse).filter Event.isAct) s.env
  rw [List.filter_append, hpreamble, List.nil_append, htrail]
  exact hes

end Enacts

end Run

end Hsm
