import Hsm.Proofs.Engine.Answers
import Hsm.Proofs.Engine.Offers
import Hsm.Proofs.Engine.Takers

/-!
# The end of an instance

Once an instance has ended it has ended for good: calls that come later refuse their messages
(`Machine.refusal`). The call in which it ends goes on, and other regions may still take the message
(`ended_takes`). They are side by side with every region that took it before (`Machine.Stops`).
-/

namespace Hsm

variable {σ ι : Type}

section

variable [Instance ι]

/-- Nothing but its end ends an instance, and nothing takes that back. -/
class Instance.Ending (ι : Type) [Instance ι] : Prop where
  trace : ∀ (line : String) (i : ι), isTerminated (Instance.trace line i) = isTerminated i
  setCurrent : ∀ (T : Topology) (r : RegionId) (v : VertexId) (i : ι),
    isTerminated (Instance.setCurrent T r v i) = isTerminated i
  terminate : ∀ i : ι, isTerminated (Instance.terminate i)

theorem Instance.isTerminated_replay_iff [Ending ι] (T : Topology) (es : List Event) (i : ι) :
    isTerminated (replay T es i) ↔ isTerminated i ∨ .terminated ∈ es := by
  induction es with
  | nil => exact ⟨.inl, fun h => h.elim id fun h => absurd h List.not_mem_nil⟩
  | cons e es ih =>
    rw [List.mem_cons, ← or_assoc, or_right_comm, ← ih]
    cases e with
    | terminated => exact ⟨fun _ => .inr rfl, fun _ => Ending.terminate _⟩
    | traced line => exact (Bool.eq_iff_iff.1 (Ending.trace line _)).trans (by simp [replay])
    | setCurrent r v =>
      exact (Bool.eq_iff_iff.1 (Ending.setCurrent T r v _)).trans (by simp [replay])
    | _ => exact (by simp [replay, Event.replay])

/-! ## Later calls -/

namespace Machine

variable {M : Machine σ} {allowed : Edit σ → Prop} {i i₀ : ι}

/-- The instance after a call is what its events made of the one before. -/
theorem Reachable.call_replay (hM : M.Reachable allowed) (i : ι) (c : Call σ) :
    (M.call i c).inst = Instance.replay M.topology (M.call i c).events.reverse i := by
  have hreplay : ∀ {α : Type} {x : Run σ ι α}, x.Adds M.topology (fun _ => True) →
      ∀ s : Session σ ι, s.inst = i → s.trail = [] → (x s).2.inst =
        Instance.replay M.topology (M.preamble ++ (x s).2.trail.reverse).reverse i := by
    intro α x hx s hi hs
    obtain ⟨es, ht, -, hinst⟩ := hx s
    have hidle : ∀ e ∈ M.preamble.reverse, e.Idle := fun e he =>
      M.idle_of_mem_preamble (List.mem_reverse.1 he)
    rw [hinst, ht, hi, hs, List.append_nil, List.reverse_append, List.reverse_reverse,
      Instance.replay_append, Instance.replay_idle hidle]
  cases c with
  | start depth env =>
    rw [hM.call_start]
    exact hreplay (startRun_related (M := M.ready M.settings.source) grows_uniform
      (engine_grows depth) (Program.all_allowed _).onInitialise) _ rfl rfl
  | evaluate depth env message =>
    rw [hM.call_evaluate]
    exact hreplay (evaluateRun_related (M := M.ready M.settings.source) grows_uniform
      (engine_grows depth) trivial message) _ rfl rfl

/-- The outcome of an evaluation that only announces itself. -/
def refusal (M : Machine σ) (i : ι) (env : σ) (message : String) : Outcome σ ι (Option Bool) :=
  let line := "evaluate " ++ Text.quoted message
  ⟨.value (some false), M.ready M.settings.source, env, Instance.trace line i,
    M.preamble ++ [.message .debug (Instance.name i ++ " " ++ line), .traced line]⟩

variable [Instance.Ending ι]

theorem Lives.isTerminated (h : M.Lives i₀ i) (h₀ : Instance.isTerminated i₀) :
    Instance.isTerminated i := by
  induction h with
  | fresh _ => exact h₀
  | edit _ _ ih => exact ih
  | initialise _ ih => exact ih
  | @call M i c h ih =>
    rw [h.reachable.call_replay, Instance.isTerminated_replay_iff]
    exact .inl ih

theorem Reachable.call_refusal (hM : M.Reachable allowed) (hi : Instance.isTerminated i)
    (depth : Nat) (env : σ) (message : String) :
    M.call i (.evaluate depth env message) = M.refusal i env message := by
  rw [hM.call_evaluate, evaluateRun_eq, if_pos]
  · rfl
  · exact (Instance.Ending.trace _ i).trans hi

end Machine

/-! ## The rest of a call -/

omit [Instance ι] in
/-- From `s` to `s'` either questions were asked and nothing else happened, or the first thing that
happened after questions is that a state took a message. -/
def Session.Opens (s s' : Session σ ι) : Prop :=
  s.Asks s' ∨ ∃ s₁ : Session σ ι, s.Asks s₁ ∧
    ∃ later v t message, s'.trail = later ++ .selected v t (.message message) :: s₁.trail

omit [Instance ι] in
theorem Session.Asks.opens {s s' s'' : Session σ ι} (h : s.Asks s') (h' : s'.Opens s'') :
    s.Opens s'' := by
  rcases h' with h' | ⟨s₁, h₁, h'⟩
  · exact .inl (h.trans h')
  · exact .inr ⟨s₁, h.trans h₁, h'⟩

/-- The run begins with questions, and goes on only if a state takes a message. -/
def Run.Opens {α : Type} (x : Run σ ι α) : Prop :=
  ∀ s : Session σ ι, s.Opens (x s).2

namespace Run.Opens

variable {α β : Type} {T : Topology} {q : Event → Prop}

omit [Instance ι] in
theorem of_asks {x : Run σ ι α} (hx : x.Asks) : x.Opens :=
  fun s => .inl (hx s)

omit [Instance ι] in
theorem after {x : Run σ ι α} {f : α → Run σ ι β} (hx : x.Asks) (hf : ∀ a, (f a).Opens) :
    (x >>= f).Opens := by
  intro s
  have h := hx s
  simp only [Bind.bind]
  rcases hxs : x s with ⟨r, s'⟩
  rw [hxs] at h
  cases r with
  | value a => exact h.opens (hf a s')
  | failed e => exact .inl h
  | exhausted => exact .inl h

/-- After a positive answer, for which a state took a message, anything may follow. -/
theorem bind_ite {x y z : Run σ ι Bool} (hx : x.Opens) (hfires : x.Fires (· = true))
    (hd : x.Declines) (hy : y.Adds T q) (hz : z.Opens) :
    (x >>= fun b => if b then y else z).Opens := by
  intro s
  have h := hx s
  have hfired := hfires s
  have hasks := hd s
  simp only [Bind.bind]
  rcases hxs : x s with ⟨r, s'⟩
  rw [hxs] at h hfired hasks
  cases r with
  | value b =>
    cases b with
    | true =>
      obtain ⟨es, t, ht, hmem⟩ := hfired true rfl rfl
      rcases h with h | ⟨s₁, hs₁, later, v, u, m, hs'⟩
      · -- a transition that ran is no question
        obtain ⟨es', ht', hes'⟩ := h.trail
        have hidle : Event.Idle (.traversed t) :=
          hes' _ (List.append_cancel_right (ht.symm.trans ht') ▸ hmem)
        exact hidle.elim
      · obtain ⟨es', ht', -, -⟩ := hy s'
        refine .inr ⟨s₁, hs₁, es' ++ later, v, u, m, ?_⟩
        exact ht'.trans (by rw [hs', List.append_assoc])
    | false => exact (hasks rfl).opens (hz s')
  | failed e => exact h
  | exhausted => exact h

end Run.Opens

section

variable {M : Machine σ} {P : Program σ}

theorem offerRegions_opens {n : Nat} {v : VertexId} {m : String}
    (hoffer : ∀ w, ((engine (ι := ι) M P n).offer w (.message m)).Opens) :
    ∀ rs, (Engine.offerRegions M (engine (ι := ι) M P n) v (.message m) rs).Opens
  | [] => .of_asks (.pure _)
  | r :: rest => by
    refine .after (.read _) fun w => ?_
    cases w with
    | none => exact offerRegions_opens hoffer rest
    | some w =>
      refine .bind_ite (T := M.topology) (q := fun _ => True) (hoffer w)
        (engine_offer_fires n w _) (engine_offer_declines n w _)
        ((Run.Adds.read _).bind fun active => ?_) (offerRegions_opens hoffer rest)
      have hrest := Engine.Related.offerRegions grows_uniform
        (engine_grows (ι := ι) (M := M) (P := P) n) trivial v (.message m) rest
      split
      · exact hrest.bind fun _ => .pure _
      · exact .pure _

/-- A message that is offered changes nothing until a state takes it. -/
theorem engine_opens : ∀ (n : Nat) (v : VertexId) (m : String),
    ((engine (ι := ι) M P n).offer v (.message m)).Opens
  | 0, _, _ => .of_asks fun s => .refl s
  | n + 1, v, m => by
    have hn := engine_grows (ι := ι) (M := M) (P := P) n
    refine .after (.record trivial) fun _ => .bind_ite (T := M.topology) (q := fun _ => True)
      (offerRegions_opens (fun w => engine_opens n w m) _)
      (offerBeneath_fires hn (fun w => engine_offer_fires n w _) v)
      (offerBeneath_declines fun w => engine_offer_declines n w _)
      ((hn.offerCompletion v).bind fun _ => .pure _) (.after (.passing _ _) fun ts => ?_)
    match ts with
    | [] => exact .of_asks (.pure _)
    | [t] =>
      intro s
      obtain ⟨es, ht, -, -⟩ := hn.fire t (.message m)
        { s with trail := .selected v t (.message m) :: s.trail }
      exact .inr ⟨s, .refl s, es, v, t, m, ht⟩
    | _ :: _ :: _ => exact .after (.report _) fun _ => .of_asks (.pure _)

/-- Only announcements and questions come before the first state that takes the message. -/
theorem evaluateRun_opens (depth : Nat) (message : String) (s : Session σ ι) :
    (s.announced ("evaluate " ++ Text.quoted message)).Opens
      (M.evaluateRun depth message P s).2 := by
  rw [evaluateRun_eq]
  split
  · exact .inl (.refl _)
  · exact engine_opens depth _ _ _

end

/-- Of two entries of a list the one that is not found before the other comes after it. -/
theorem mem_of_suffix_cons {α : Type} {x y : α} {xs ys zs : List α} (hx : x :: xs <:+ zs)
    (hy : y :: ys <:+ zs) (hne : x ≠ y) (hxs : y ∉ xs) : x ∈ ys := by
  rcases List.suffix_or_suffix_of_suffix hx hy with h | h
  · rcases List.suffix_cons_iff.1 h with h | h
    · exact absurd (List.cons.inj h).1 hne
    · exact h.subset List.mem_cons_self
  · rcases List.suffix_cons_iff.1 h with h | h
    · exact absurd (List.cons.inj h).1.symm hne
    · exact absurd (h.subset List.mem_cons_self) hxs

variable {M : Machine σ} {allowed : Edit σ → Prop} {i : ι}

/-- The events of an evaluation from the newest to the oldest. -/
theorem Machine.Reachable.reverse_events (hM : M.Reachable allowed) (depth : Nat) (env : σ)
    (message : String) : (M.call i (.evaluate depth env message)).events.reverse =
      ((M.ready M.settings.source).evaluateRun depth message (M.ready M.settings.source).compile
        ⟨env, i, M.settings.source, []⟩).2.trail ++ M.preamble.reverse := by
  rw [hM.call_evaluate]
  exact (List.reverse_append ..).trans (congrArg (· ++ _) (List.reverse_reverse _))

/-- An instance ends only after a state has taken the message. -/
theorem Machine.Reachable.taken_before_end (hM : M.Reachable allowed) {depth : Nat} {env : σ}
    {message : String} {before after : List Event}
    (h : (M.call i (.evaluate depth env message)).events = before ++ .terminated :: after) :
    Event.takers before ≠ [] := by
  have hcut := congrArg List.reverse h
  rw [hM.reverse_events, List.reverse_append, List.reverse_cons, List.append_assoc] at hcut
  have hopens := evaluateRun_opens (M := M.ready M.settings.source)
    (P := (M.ready M.settings.source).compile) depth message ⟨env, i, M.settings.source, []⟩
  have hquiet : ∀ s₁ : Session σ ι, (Session.announced ⟨env, i, M.settings.source, []⟩
      ("evaluate " ++ Text.quoted message)).Asks s₁ →
        .terminated ∉ s₁.trail ++ M.preamble.reverse := by
    intro s₁ hs₁ hmem
    obtain ⟨es, ht, hes⟩ := hs₁.trail
    rcases List.mem_append.1 hmem with hmem | hmem
    · rcases List.mem_append.1 (ht ▸ hmem) with hmem | hmem
      · exact hes _ hmem
      · exact absurd hmem (by simp [Session.announced])
    · exact M.idle_of_mem_preamble (List.mem_reverse.1 hmem)
  rcases hopens with hasks | ⟨s₁, hs₁, later, v, t, m, ht⟩
  · exact absurd (hcut ▸ List.mem_append_right _ List.mem_cons_self) (hquiet _ hasks)
  · have hmem : .selected v t (.message m) ∈ before.reverse := by
      refine mem_of_suffix_cons ⟨later, ?_⟩ ⟨after.reverse, hcut.symm⟩ (by rintro ⟨⟩)
        (hquiet s₁ hs₁)
      rw [ht, List.append_assoc, List.cons_append]
    exact List.ne_nil_of_mem (List.mem_filterMap.2 ⟨_, List.mem_reverse.1 hmem, rfl⟩)

/-- States that take the same message before and after some event are side by side. -/
theorem Machine.Reachable.across_of_cut (hM : M.Reachable allowed)
    (hJ : Instance.Kept M.topology (Instance.Placed (ι := ι) M.topology))
    (hi : Instance.Placed M.topology i) {depth : Nat} {env : σ} {message : String}
    {before after : List Event} {e : Event}
    (h : (M.call i (.evaluate depth env message)).events = before ++ e :: after) :
    ∀ v ∈ Event.takers before, ∀ w ∈ Event.takers after, M.topology.Across v w := by
  obtain ⟨es, ht, -, hes⟩ := (evaluateRun_takes (M := M.ready M.settings.source) hM.wellFormed hJ
    depth message ⟨env, i, M.settings.source, []⟩ hi).2
  have hcut := congrArg List.reverse h
  rw [hM.reverse_events, ht, List.append_nil, List.reverse_append, List.reverse_cons] at hcut
  have htakers := congrArg Event.takers hcut
  have hnil : Event.takers M.preamble.reverse = [] := Event.takers_eq_nil fun e he =>
    Event.taker?_of_idle (M.idle_of_mem_preamble (List.mem_reverse.1 he))
  rw [Event.takers_append, Event.takers_append, Event.takers_append, hnil, List.append_nil]
    at htakers
  rw [htakers] at hes
  intro v hv w hw
  refine ((List.pairwise_append.1 hes).2.2 w (List.mem_append_left _ ?_) v ?_).symm
  · rw [Event.takers, List.filterMap_reverse]
    exact List.mem_reverse.2 hw
  · rw [Event.takers, List.filterMap_reverse]
    exact List.mem_reverse.2 hv

/-- What the end of an instance means for the call that brings it about, and for all that come
later. In the call itself a state took the message before the end, and if states take it after the
end, they are side by side with those. -/
structure Machine.Stops (M : Machine σ) (i : ι) : Prop where
  later : ∀ c, .terminated ∈ (M.call i c).events → ∀ (M' : Machine σ) (i' : ι),
    M'.Lives (M.call i c).inst i' → ∀ depth env message,
      M'.call i' (.evaluate depth env message) = M'.refusal i' env message
  taken : ∀ depth env message before after,
    (M.call i (.evaluate depth env message)).events = before ++ .terminated :: after →
      Event.takers before ≠ []
  across : ∀ depth env message before after,
    (M.call i (.evaluate depth env message)).events = before ++ .terminated :: after →
      ∀ v ∈ Event.takers before, ∀ w ∈ Event.takers after, M.topology.Across v w

theorem Machine.Reachable.stops [Instance.Ending ι] (hM : M.Reachable allowed)
    (hJ : Instance.Kept M.topology (Instance.Placed (ι := ι) M.topology))
    (hi : Instance.Placed M.topology i) : M.Stops i where
  later c hc M' i' hlater depth env message := by
    refine hlater.reachable.call_refusal (hlater.isTerminated ?_) depth env message
    rw [hM.call_replay, Instance.isTerminated_replay_iff]
    exact .inr (List.mem_reverse.2 hc)
  taken _ _ _ _ _ := hM.taken_before_end
  across _ _ _ _ _ := hM.across_of_cut hJ hi

end

instance : Instance.Ending TableInstance where
  trace _ _ := rfl
  setCurrent _ _ _ _ := rfl
  terminate _ := rfl

instance : Instance.Ending TreeInstance where
  trace _ _ := rfl
  setCurrent T r v i := by
    show (TreeInstance.setCurrent T r v i).terminated = i.terminated
    unfold TreeInstance.setCurrent
    dsimp only
    split <;> rfl
  terminate _ := rfl

/-- An instance that has ended refuses all messages from the next call on. In the call that ends it
the message may only go on to regions side by side with those that took it. -/
theorem stops_for_good {M : Machine σ} (hM : M.Reachable fun _ => True) :
    (∀ (name : String) (i : TableInstance), M.Lives ⟨name, {}, {}, false⟩ i → M.Stops i) ∧
      ∀ i : TreeInstance, M.Stops i := by
  refine ⟨fun name i hi => ?_, fun i => ?_⟩
  · exact hM.stops (TableInstance.kept_placed _) (TableInstance.placed_of_lives hi)
  · exact hM.stops (TreeInstance.kept_placed hM.wellFormed) (i.placed hM.wellFormed)

/-- A state with two regions. A message ends the instance in the first, and has a transition of its
own in the second. -/
def cutShort : Machine Unit := .build "m" {} [
  .addVertex "s" (.state ⟨0⟩) .state, .addRegion "p" ⟨1⟩, .addRegion "q" ⟨1⟩,
  .addVertex "i" (.region ⟨1⟩) (.pseudo .initial), .addVertex "a" (.region ⟨1⟩) .state,
  .addVertex "x" (.region ⟨1⟩) (.pseudo .terminate),
  .addVertex "j" (.region ⟨2⟩) (.pseudo .initial), .addVertex "c" (.region ⟨2⟩) .state,
  .addVertex "d" (.region ⟨2⟩) .state, .addTransition ⟨2⟩ (some ⟨3⟩),
  .addTransition ⟨3⟩ (some ⟨4⟩), .addTransition ⟨5⟩ (some ⟨6⟩), .addTransition ⟨6⟩ (some ⟨7⟩),
  .modifyTransition ⟨1⟩ fun t => { t with guard := .on "go" },
  .modifyTransition ⟨3⟩ fun t => { t with guard := .on "go" }]

theorem cutShort_stops :
    let started := cutShort.call (⟨"i", {}, {}, false⟩ : TableInstance) (.start 30 ())
    let ended := started.machine.call started.inst (.evaluate 30 () "go")
    let again := ended.machine.call ended.inst (.evaluate 30 () "go")
    .terminated ∈ ended.events ∧ again = ended.machine.refusal ended.inst () "go" ∧
    ∀ before after, ended.events = before ++ .terminated :: after →
      Event.takers before ≠ [] ∧ ∀ v ∈ Event.takers before, ∀ w ∈ Event.takers after,
        started.machine.topology.Across v w := by
  intro started ended again
  have hM : cutShort.Reachable fun _ => True := .build (by decide +kernel) fun _ _ => trivial
  have hlives : started.machine.Lives (⟨"i", {}, {}, false⟩ : TableInstance) started.inst :=
    .call (.start 30 ()) (.fresh hM)
  have hstops : started.machine.Stops started.inst :=
    (stops_for_good hlives.reachable).1 "i" started.inst hlives
  have hended : .terminated ∈ ended.events := by decide +kernel
  exact ⟨hended, hstops.later (.evaluate 30 () "go") hended _ _
    (.fresh (Machine.Lives.call (.evaluate 30 () "go") hlives).reachable) 30 () "go",
    fun _ _ h => ⟨hstops.taken 30 () "go" _ _ h, hstops.across 30 () "go" _ _ h⟩⟩

/-- The end in the first region does not keep the second from taking the message and running along
its transition. -/
theorem ended_takes :
    let started := cutShort.call (⟨"i", {}, {}, false⟩ : TableInstance) (.start 30 ())
    let ended := started.machine.call started.inst (.evaluate 30 () "go")
    cutShort.Reachable (fun _ => True) ∧
    started.result = .value none ∧ ended.result = .value (some true) ∧
    ∃ before after, ended.events = before ++ .terminated :: after ∧
      .selected ⟨6⟩ ⟨3⟩ (.message "go") ∈ after ∧ .traversed ⟨3⟩ ∈ after := by
  intro started ended
  exact ⟨.build (by decide +kernel) fun _ _ => trivial, by decide +kernel, by decide +kernel,
    ended.events.takeWhile (· ≠ .terminated), (ended.events.dropWhile (· ≠ .terminated)).tail,
    by decide +kernel, by decide +kernel, by decide +kernel⟩

end Hsm
