import Hsm.Proofs.Engine.Uniform

/-!
# How runs fail

A run that fails does so in its very last dealing: an action that reported its failure, or the
message that tells of a fault. A run that comes to another end has seen no action fail
(`ends_uniform`). Calls show it in their events.
-/

namespace Hsm

variable {σ ι : Type}

/-- An action ran and failed. -/
def Event.Fails : Event → Prop
  | acted _ (some _) => True
  | _ => False

theorem Event.not_fails_of_note : ∀ e : Event, e.IsNote → ¬ e.Fails := fun e h => by
  cases e <;> first | exact id | exact h.elim

theorem Event.fails_acted {notes : List String} {failure : Option String} :
    (acted notes failure).Fails ↔ failure.isSome := by
  cases failure <;> simp [Fails]

/-- From `s` the session `s'` came about, and no action failed on the way. -/
def Session.Passes (s s' : Session σ ι) : Prop :=
  ∃ es, s'.trail = es ++ s.trail ∧ ∀ e ∈ es, ¬ e.Fails

namespace Session.Passes

variable {s s' s'' : Session σ ι}

theorem of_trail (h : s'.trail = s.trail) : s.Passes s' :=
  ⟨[], h, fun _ h => absurd h List.not_mem_nil⟩

theorem one {e : Event} (he : ¬ e.Fails) (h : s'.trail = e :: s.trail) : s.Passes s' :=
  ⟨[e], h, fun _ h => (List.mem_singleton.1 h).symm ▸ he⟩

theorem trans (h : s.Passes s') (h' : s'.Passes s'') : s.Passes s'' := by
  obtain ⟨es, ht, hes⟩ := h
  obtain ⟨es', ht', hes'⟩ := h'
  refine ⟨es' ++ es, by rw [ht', ht, List.append_assoc], fun e he => ?_⟩
  exact (List.mem_append.1 he).elim (hes' e) (hes e)

end Session.Passes

namespace Run

variable {α β : Type} {s s' s₀ : Session σ ι}

/-- How a run from `s` can end: a failure leaves the session as the failing action, or the message
of the fault, left it. -/
inductive Ends (s : Session σ ι) : Result α × Session σ ι → Prop
  | value {s' : Session σ ι} (a : α) (h : s.Passes s') : Ends s (.value a, s')
  | exhausted {s' : Session σ ι} (h : s.Passes s') : Ends s (.exhausted, s')
  | action {s₀ s' : Session σ ι} (a : Action σ) (trigger : Trigger) (m : String)
    (h : s.Passes s₀) (ha : Run.act a trigger s₀ = (.failed (.action m), s')) :
    Ends s (.failed (.action m), s')
  | fault {s₀ s' : Session σ ι} (f : Fault) (h : s.Passes s₀)
    (hf : Run.say .error f.message s₀ = (.value (), s')) : Ends s (.failed (.fault f), s')

namespace Ends

theorem trans {e : Result α × Session σ ι} (hs : s.Passes s') (h : Ends s' e) : Ends s e := by
  cases h with
  | value a h => exact .value a (hs.trans h)
  | exhausted h => exact .exhausted (hs.trans h)
  | action a trigger m h ha => exact .action a trigger m (hs.trans h) ha
  | fault f h hf => exact .fault f (hs.trans h) hf

/-- What follows a value decides how a sequence ends; a run that fails stays as it ended. -/
theorem bind {x : Run σ ι α} {f : α → Run σ ι β} (hx : Ends s (x s))
    (hf : ∀ a s', Ends s' (f a s')) : Ends s ((x >>= f) s) := by
  simp only [Bind.bind]
  generalize x s = e at hx ⊢
  cases hx with
  | value a h => exact (hf a _).trans h
  | exhausted h => exact .exhausted h
  | action a trigger m h ha => exact .action a trigger m h ha
  | fault f h hf => exact .fault f h hf

theorem act (a : Action σ) (trigger : Trigger) (s : Session σ ι) :
    Ends s (Run.act a trigger s) := by
  rcases hr : (a trigger s.env).failure with _ | m
  · have he : Run.act a trigger s = (.value (), { s with
        env := (a trigger s.env).env
        trail := .acted (a trigger s.env).notes none :: s.trail }) := by
      simp [Run.act, hr]
    rw [he]
    exact .value () (.one (by simp [Event.fails_acted]) rfl)
  · have he : (Run.act a trigger s).1 = .failed (.action m) := by simp [Run.act, hr]
    rw [show Run.act a trigger s = (.failed (.action m), (Run.act a trigger s).2) from
      Prod.ext he rfl]
    exact .action a trigger m (.of_trail rfl) (Prod.ext he rfl)

theorem stop (f : Fault) (s : Session σ ι) : Ends s (Engine.stop (α := α) f s) :=
  .fault f (.of_trail rfl) rfl

theorem draw (count : Nat) (s : Session σ ι) : Ends s (Run.draw count s) := by
  unfold Run.draw
  split
  · exact .value _ (.one id rfl)
  · exact .value _ (.of_trail rfl)

end Ends

end Run

section

variable [Instance ι] {M : Machine σ} {P : Program σ}

theorem ends_uniform :
    Run.Uniform (ι := ι) (κ := ι) M (fun _ _ => True) True
      (fun _ x _ => ∀ s, Run.Ends s (x s)) where
  pure a _ := .value a (.of_trail rfl)
  bind hx hf s := (hx s).bind hf
  stop f s := .stop f s
  exhausted _ := .exhausted (.of_trail rfl)
  note e he _ _ := .value () (.one (e.not_fails_of_note he) rfl)
  act a trigger s := .act a trigger s
  draw count s := .draw count s
  setCurrent _ _ _ _ := .value () (.one id rfl)
  terminate _ := .value () (.one id rfl)
  trace _ _ := .value () (.one id rfl)
  check _ _ _ := .value _ (.one id rfl)
  read _ _ := .value _ (.of_trail rfl)

theorem engine_ends (n : Nat) : (engine (ι := ι) M P n).Related M (fun _ _ => True) True
    (fun _ x (_ : Run σ ι _) => ∀ s, Run.Ends s (x s)) (engine M P n) :=
  engine_related ends_uniform P.all_allowed trivial n

theorem startRun_ends (depth : Nat) (s : Session σ ι) :
    Run.Ends s (M.startRun depth P s) :=
  startRun_related ends_uniform (engine_ends depth) (fun step _ => step.allowed_all) s

theorem evaluateRun_ends (depth : Nat) (message : String) (s : Session σ ι) :
    Run.Ends s (M.evaluateRun depth message P s) :=
  evaluateRun_related ends_uniform (engine_ends depth) trivial message s

end

/-! ## Calls -/

theorem Run.act_failed {a : Action σ} {trigger : Trigger} {m : String} {s s' : Session σ ι}
    (h : Run.act a trigger s = (.failed (.action m), s')) :
    ∃ notes, s'.trail = .acted notes (some m) :: s.trail := by
  rcases hr : a trigger s.env with ⟨env, notes, _ | m'⟩ <;>
    simp only [Run.act, hr, Prod.mk.injEq, Result.failed.injEq, Failure.action.injEq, reduceCtorEq,
      false_and] at h
  obtain ⟨rfl, rfl⟩ := h
  exact ⟨notes, rfl⟩

/-- An element that is only at the end of a list is its last. -/
theorem eq_nil_of_last {α : Type} {before after es : List α} {e last : α} (he : e ∉ es)
    (h : before ++ e :: after = es ++ [last]) : after = [] ∧ e = last := by
  rcases List.eq_nil_or_concat after with rfl | ⟨after, l, rfl⟩
  · exact ⟨rfl, List.singleton_inj.1 (List.append_inj' h rfl).2⟩
  · rw [List.concat_eq_append, ← List.cons_append, ← List.append_assoc] at h
    exact absurd ((List.append_inj' h rfl).1 ▸ List.mem_append_right _ List.mem_cons_self) he

/-- How a call can end: with a failing action, or with the message of a fault, as the last thing
that happened. -/
structure Outcome.Halts {α : Type} (o : Outcome σ ι α) : Prop where
  of_acted : ∀ before notes m after, o.events = before ++ .acted notes (some m) :: after →
    after = [] ∧ o.result = .failed (.action m)
  of_action : ∀ m, o.result = .failed (.action m) →
    ∃ before notes, o.events = before ++ [.acted notes (some m)]
  of_fault : ∀ f, o.result = .failed (.fault f) →
    ∃ before, o.events = before ++ [.message .error f.message]
  of_value : ∀ a, o.result = .value a → ∀ notes m, .acted notes (some m) ∉ o.events

theorem Outcome.Halts.of_not_acted {α : Type} {o : Outcome σ ι α}
    (h : ∀ notes m, .acted notes (some m) ∉ o.events)
    (ha : ∀ m, o.result ≠ .failed (.action m)) (hf : ∀ f, o.result ≠ .failed (.fault f)) :
    o.Halts where
  of_acted _ notes m _ ho := absurd (ho ▸ List.mem_append_right _ List.mem_cons_self) (h notes m)
  of_action m hm := absurd hm (ha m)
  of_fault f ho := absurd ho (hf f)
  of_value _ _ := h

namespace Machine

variable {α : Type} (M : Machine σ) (env : σ) (i : ι)

theorem execute_halts {x : Run σ ι α} (hx : ∀ s, Run.Ends s (x s)) :
    (M.execute env i x).Halts := by
  have hpass : ∀ {s' : Session σ ι}, Session.Passes ⟨env, i, M.settings.source, []⟩ s' →
      ∀ notes m, .acted notes (some m) ∉ s'.trail.reverse := by
    rintro s' ⟨es, ht, hes⟩ notes m he
    rw [ht, List.append_nil, List.mem_reverse] at he
    exact hes _ he trivial
  have hend := hx ⟨env, i, M.settings.source, []⟩
  unfold execute
  generalize x ⟨env, i, M.settings.source, []⟩ = e at hend
  cases hend with
  | value a h => exact .of_not_acted (hpass h) nofun nofun
  | exhausted h => exact .of_not_acted (hpass h) nofun nofun
  | @action s₀ s' a trigger m h ha =>
    obtain ⟨notes, ht⟩ := Run.act_failed ha
    have hev : s'.trail.reverse = s₀.trail.reverse ++ [.acted notes (some m)] := by
      rw [ht, List.reverse_cons]
    refine ⟨fun before notes' m' after ho => ?_, fun m' hm => ?_, nofun, nofun⟩
    · obtain ⟨rfl, he⟩ := eq_nil_of_last (hpass h _ _) (ho.symm.trans hev)
      cases he
      exact ⟨rfl, rfl⟩
    · cases hm
      exact ⟨_, notes, hev⟩
  | @fault s₀ s' f h hf =>
    cases hf
    have hev : (Event.message .error f.message :: s₀.trail).reverse
      = s₀.trail.reverse ++ [.message .error f.message] := List.reverse_cons
    refine ⟨fun before notes m after ho => ?_, nofun, fun f' hf' => ?_, nofun⟩
    · obtain ⟨-, he⟩ := eq_nil_of_last (hpass h _ _) (ho.symm.trans hev)
      cases he
    · cases hf'
      exact ⟨_, hev⟩

theorem executeCompiled_halts {x : Program σ → Run σ ι α}
    (hx : ∀ P s, Run.Ends s (x P s)) : (M.executeCompiled env i x).Halts := by
  unfold executeCompiled
  split
  · exact M.execute_halts env i (hx _)
  · exact .of_not_acted (fun _ _ => List.not_mem_nil) nofun nofun

/-- Whatever a model, its program and an instance are like, a failure is the end of a call and is
what the call returns. -/
theorem compiled_halts [Instance ι] (depth : Nat) : (M.startCompiled depth env i).Halts
    ∧ ∀ message, (M.evaluateCompiled depth env i message).Halts :=
  ⟨M.executeCompiled_halts env i fun _ s => startRun_ends depth s,
    fun message => M.executeCompiled_halts env i fun _ s => evaluateRun_ends depth message s⟩

end Machine

end Hsm
