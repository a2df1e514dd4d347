import Hsm.Proofs.Instance.Laws

/-!
# Specifications of runs

A run is specified by what holds before it, what holds of its value and the session after it, and
an invariant that it keeps however it ends (`Run.Spec`). Specifications of the parts of the engine
are put together as the parts are.
-/

namespace Hsm

variable {σ ι : Type}

/-- From a session with `I` and `p` the run keeps `I`, and where it ends with a value, `q` holds of
the value and the session. -/
def Run.Spec (I p : Session σ ι → Prop) {α : Type} (x : Run σ ι α) (q : α → Session σ ι → Prop) :
    Prop :=
  ∀ s, I s → p s → I (x s).2 ∧ ∀ a, (x s).1 = .value a → q a (x s).2

namespace Run.Spec

variable {I p p' : Session σ ι → Prop} {α β : Type} {x : Run σ ι α} {f : α → Run σ ι β}

theorem pure {q : α → Session σ ι → Prop} {a : α} (h : ∀ s, I s → p s → q a s) :
    Spec I p (Pure.pure a) q :=
  fun s hI hp => ⟨hI, fun _ hb => Result.value.inj hb ▸ h s hI hp⟩

theorem bind {r : α → Session σ ι → Prop} {q : β → Session σ ι → Prop} (hx : Spec I p x r)
    (hf : ∀ a, Spec I (r a) (f a) q) : Spec I p (x >>= f) q := by
  intro s hI hp
  have h := hx s hI hp
  simp only [Bind.bind]
  rcases hxs : x s with ⟨e, s'⟩
  rw [hxs] at h
  cases e with
  | value a => exact hf a s' h.1 (h.2 a rfl)
  | failed e => exact ⟨h.1, fun _ hb => nomatch hb⟩
  | exhausted => exact ⟨h.1, fun _ hb => nomatch hb⟩

theorem conseq {q q' : α → Session σ ι → Prop} (h : Spec I p' x q')
    (hp : ∀ s, I s → p s → p' s) (hq : ∀ a s, I s → q' a s → q a s) : Spec I p x q :=
  fun s hI hps =>
    have hx := h s hI (hp s hI hps)
    ⟨hx.1, fun a ha => hq a _ hx.1 (hx.2 a ha)⟩

theorem pre {q : α → Session σ ι → Prop} (h : Spec I p' x q) (hp : ∀ s, I s → p s → p' s) :
    Spec I p x q :=
  h.conseq hp fun _ _ _ hq => hq

theorem post {q q' : α → Session σ ι → Prop} (h : Spec I p x q')
    (hq : ∀ a s, I s → q' a s → q a s) : Spec I p x q :=
  h.conseq (fun _ _ hp => hp) hq

theorem and {q q' : α → Session σ ι → Prop} (h : Spec I p x q) (h' : Spec I p' x q') :
    Spec I (fun s => p s ∧ p' s) x fun a s => q a s ∧ q' a s :=
  fun s hI hp => ⟨(h s hI hp.1).1, fun a ha => ⟨(h s hI hp.1).2 a ha, (h' s hI hp.2).2 a ha⟩⟩

/-- A fact about the run alone may be used for what follows it. -/
theorem with_value {q : α → Session σ ι → Prop} {c : α → Prop} (h : Spec I p x q)
    (hc : ∀ s a, (x s).1 = .value a → c a) : Spec I p x fun a s => c a ∧ q a s :=
  fun s hI hp => ⟨(h s hI hp).1, fun a ha => ⟨hc s a ha, (h s hI hp).2 a ha⟩⟩

theorem pull {c : Prop} {q : α → Session σ ι → Prop} (h : c → Spec I p x q) :
    Spec I (fun s => c ∧ p s) x q :=
  fun s hI hp => h hp.1 s hI hp.2

theorem read {g : Session σ ι → α} : Spec I p (Run.read g) fun a s => p s ∧ a = g s :=
  fun _ hI hp => ⟨hI, fun _ ha => ⟨hp, (Result.value.inj ha).symm⟩⟩

theorem ite {c : Prop} [Decidable c] {x y : Run σ ι α} {q : α → Session σ ι → Prop}
    (hx : c → Spec I p x q) (hy : ¬c → Spec I p y q) : Spec I p (if c then x else y) q := by
  split
  · rename_i h; exact hx h
  · rename_i h; exact hy h

/-- What holds after either answer. -/
theorem either {x : Run σ ι Bool} {q : Session σ ι → Prop} (h : Spec I p x fun _ => q) :
    Spec I p x fun b s => if b then q s else q s :=
  h.post fun b _ _ hq => by cases b <;> exact hq

theorem discard {q : Unit → Session σ ι → Prop} (h : Spec I p x fun _ => q ()) :
    Spec I p (Functor.discard x) q :=
  h.bind fun _ => pure fun _ _ hq => hq

theorem exhausted {q : α → Session σ ι → Prop} : Spec I p Run.exhausted q :=
  fun _ hI _ => ⟨hI, fun _ ha => nomatch ha⟩

theorem fail {e : Failure} {q : α → Session σ ι → Prop} : Spec I p (Run.fail e) q :=
  fun _ hI _ => ⟨hI, fun _ ha => nomatch ha⟩

/-- What events of a kind do not touch, a run that adds no others keeps. -/
theorem of_adds [Instance ι] {T : Topology} {ev : Event → Prop} (hx : x.Adds T ev)
    (hI : ∀ s s', s.Leads T ev s' → I s → I s') (hp : ∀ s s', s.Leads T ev s' → p s → p s') :
    Spec I p x fun _ => p :=
  fun s hIs hps => ⟨hI s _ (hx s) hIs, fun _ _ => hp s _ (hx s) hps⟩

end Run.Spec

theorem Run.bind_assoc {α β γ : Type} (x : Run σ ι α) (f : α → Run σ ι β) (g : β → Run σ ι γ) :
    x >>= f >>= g = x >>= fun a => f a >>= g := by
  funext s
  simp only [Bind.bind]
  rcases x s with ⟨r, s'⟩
  cases r <;> rfl

theorem Engine.performAll_append (e : Engine σ ι) (trigger : Trigger) (deep : Bool) :
    ∀ xs ys : List (Step σ), e.performAll trigger deep (xs ++ ys) =
      e.performAll trigger deep xs >>= fun _ => e.performAll trigger deep ys
  | [], _ => rfl
  | step :: xs, ys => by
    show (e.perform step trigger deep >>= fun _ => e.performAll trigger deep (xs ++ ys)) = _
    rw [performAll_append e trigger deep xs ys]
    exact (Run.bind_assoc _ _ _).symm

theorem Engine.performAll_single (e : Engine σ ι) (trigger : Trigger) (deep : Bool) (step : Step σ) :
    e.performAll trigger deep [step] = e.perform step trigger deep := by
  funext s
  show (e.perform step trigger deep >>= fun _ => pure ()) s = _
  simp only [Bind.bind]
  rcases e.perform step trigger deep s with ⟨result, s'⟩
  cases result <;> rfl

theorem Engine.enterElement_eq {P : Program σ} (e : Engine σ ι) (x : Element) (trigger : Trigger)
    (deep : Bool) : enterElement P e x trigger deep = e.performAll trigger deep (P.enter x) :=
  (e.performAll_append trigger deep _ _).symm

/-! ## Performing steps in order -/

namespace Run.Spec

variable {I p q r : Session σ ι → Prop} {e : Engine σ ι} {trigger : Trigger} {deep : Bool}

theorem append {xs ys : List (Step σ)} (hx : Spec I p (e.performAll trigger deep xs) fun _ => r)
    (hy : Spec I r (e.performAll trigger deep ys) fun _ => q) :
    Spec I p (e.performAll trigger deep (xs ++ ys)) fun _ => q := by
  rw [e.performAll_append]
  exact hx.bind fun _ => hy

theorem cons {step : Step σ} {ys : List (Step σ)}
    (hx : Spec I p (e.perform step trigger deep) fun _ => r)
    (hy : Spec I r (e.performAll trigger deep ys) fun _ => q) :
    Spec I p (e.performAll trigger deep (step :: ys)) fun _ => q :=
  hx.bind fun _ => hy

theorem nil : Spec I p (e.performAll trigger deep []) fun _ => p :=
  pure fun _ _ hp => hp

theorem single {step : Step σ} (h : Spec I p (e.perform step trigger deep) fun _ => q) :
    Spec I p (e.performAll trigger deep [step]) fun _ => q :=
  cons h nil

/-- Steps that each keep a fact keep it together. -/
theorem all {steps : List (Step σ)}
    (h : ∀ step ∈ steps, Spec I p (e.perform step trigger deep) fun _ => p) :
    Spec I p (e.performAll trigger deep steps) fun _ => p := by
  induction steps with
  | nil => exact nil
  | cons step rest ih =>
    exact cons (h step List.mem_cons_self) (ih fun x hx => h x (List.mem_cons_of_mem _ hx))

/-- What holds while some of the parts are still to be performed holds without them at the end. -/
theorem flatMap {β : Type} {f : β → List (Step σ)} {p : List β → Session σ ι → Prop}
    {xs : List β} (h : ∀ x ∈ xs, ∀ rest,
      Spec I (p (x :: rest)) (e.performAll trigger deep (f x)) fun _ => p rest) :
    Spec I (p xs) (e.performAll trigger deep (xs.flatMap f)) fun _ => p [] := by
  induction xs with
  | nil => exact nil
  | cons x xs ih =>
    exact append (h x List.mem_cons_self xs) (ih fun y hy => h y (List.mem_cons_of_mem _ hy))

variable {P : Program σ}

theorem enterElement {x : Element}
    (hb : Spec I p (e.performAll trigger deep (P.beginEnter x)) fun _ => q)
    (he : Spec I q (e.performAll trigger deep (P.endEnter x)) fun _ => r) :
    Spec I p (Engine.enterElement P e x trigger deep) fun _ => r :=
  hb.bind fun _ => he

theorem enter {x : Element}
    (hb : Spec I p (e.performAll trigger deep (P.beginEnter x)) fun _ => q)
    (he : Spec I q (e.performAll trigger deep (P.endEnter x)) fun _ => r) :
    Spec I p (e.performAll trigger deep (P.enter x)) fun _ => r :=
  append hb he

/-- The regions beside a path are entered, and the one on the path, which is `next`, begins to
be. -/
theorem enterBeside {regions : List RegionId} {next : RegionId}
    {p : List RegionId → Session σ ι → Prop}
    (henter : ∀ s ∈ regions, s ≠ next → ∀ rest,
      Spec I (p (s :: rest)) (e.performAll trigger deep (P.enter (.region s))) fun _ => p rest)
    (hnext : next ∈ regions → ∀ rest, Spec I (p (next :: rest))
      (e.performAll trigger deep (P.beginEnter (.region next))) fun _ => p rest) :
    Spec I (p regions) (e.performAll trigger deep (P.enterBeside (some next) regions))
      fun _ => p [] := by
  refine flatMap fun s hs rest => ?_
  by_cases h : s = next
  · subst h
    rw [if_pos rfl, List.append_nil]
    exact hnext hs rest
  · rw [if_neg fun he => h (Option.some.inj he)]
    exact henter s hs h rest

/-- A transition that stays where it is runs its effects and may complete its source. -/
theorem internalSteps {M : Machine σ} {t : TransitionId}
    (heffects : Spec I p (e.performAll trigger deep ((M.effects t).map .behavior)) fun _ => r)
    (hcomplete : Spec I r
      (e.perform (.completeInternal (M.topology.transition t).source) trigger deep) fun _ => q)
    (hnone : ∀ s, I s → r s → q s) :
    Spec I p (e.performAll trigger deep (M.internalSteps t)) fun _ => q := by
  refine append heffects ?_
  split
  · exact single hcomplete
  · exact post nil fun _ => hnone

end Run.Spec

end Hsm
