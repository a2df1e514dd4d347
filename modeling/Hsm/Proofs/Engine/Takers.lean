import Hsm.Proofs.Engine.Rules
import Hsm.Proofs.Instance.Agreement
import Hsm.Proofs.Machine.Lives
import Hsm.Proofs.Topology.Across

/-!
# Who takes a message

A message goes down from the machine to one vertex in each region of an active state, and comes
back up from where it was not taken. So whatever takes it lies in another region than all that took
it before (`engine_takes`), however the configuration changes in between: which vertex a region is
asked for is decided when its turn comes, but it is always one of that region.
-/

namespace Hsm

variable {σ ι : Type}

namespace Event

/-- The state that took a message by the event. -/
def taker? : Event → Option VertexId
  | .selected v _ (.message _) => some v
  | _ => none

/-- The states that took a message, in the order of the events. -/
def takers (events : List Event) : List VertexId :=
  events.filterMap taker?

theorem takers_append (es es' : List Event) : takers (es ++ es') = takers es ++ takers es' :=
  List.filterMap_append

theorem takers_eq_nil {es : List Event} (h : ∀ e ∈ es, e.taker? = none) : takers es = [] :=
  List.filterMap_eq_nil_iff.2 h

theorem taker?_of_idle {e : Event} (h : e.Idle) : e.taker? = none := by
  cases e with
  | selected _ _ _ => exact h.elim
  | _ => rfl

end Event

/-- From `s` to `s'` messages were taken by states with the property, each of them side by side with
every other. -/
def Session.Takes (T : Topology) (p : VertexId → Prop) (s s' : Session σ ι) : Prop :=
  ∃ es, s'.trail = es ++ s.trail ∧ (∀ v ∈ Event.takers es, p v) ∧
    (Event.takers es).Pairwise T.Across

namespace Session.Takes

variable {T : Topology} {p q : VertexId → Prop} {s s' s'' : Session σ ι}

theorem of_trail (es : List Event) (ht : s'.trail = es ++ s.trail)
    (hes : ∀ e ∈ es, e.taker? = none) : s.Takes T p s' :=
  have hnil := Event.takers_eq_nil hes
  ⟨es, ht, by simp [hnil], by simp [hnil]⟩

theorem mono (h : s.Takes T p s') (hpq : ∀ v, p v → q v) : s.Takes T q s' := by
  obtain ⟨es, ht, hp, ha⟩ := h
  exact ⟨es, ht, fun v hv => hpq v (hp v hv), ha⟩

theorem trans (h : s.Takes T p s') (h' : s'.Takes T q s'')
    (hpq : ∀ v w, p v → q w → T.Across v w) : s.Takes T (fun v => p v ∨ q v) s'' := by
  obtain ⟨es, ht, hp, ha⟩ := h
  obtain ⟨es', ht', hq, ha'⟩ := h'
  refine ⟨es' ++ es, by rw [ht', ht, List.append_assoc], ?_⟩
  rw [Event.takers_append]
  refine ⟨fun v hv => ?_, List.pairwise_append.2 ⟨ha', ha, fun w hw v hv => ?_⟩⟩
  · exact (List.mem_append.1 hv).elim (fun h => .inr (hq v h)) fun h => .inl (hp v h)
  · exact (hpq v w (hp v hv) (hq w hw)).symm

end Session.Takes

/-- Of the instances that it keeps, the run has messages taken by states with the property, each of
them side by side with every other. -/
def Run.Takes (T : Topology) (J : ι → Prop) (p : VertexId → Prop) {α : Type} (x : Run σ ι α) :
    Prop :=
  ∀ s, J s.inst → J (x s).2.inst ∧ s.Takes T p (x s).2

/-- No message is taken. -/
abbrev Run.Untaken (T : Topology) (J : ι → Prop) {α : Type} (x : Run σ ι α) : Prop :=
  x.Takes T J fun _ => False

namespace Run.Takes

variable {T : Topology} {J : ι → Prop} {p q : VertexId → Prop} {α β : Type} {x : Run σ ι α}
  {f : α → Run σ ι β}

theorem mono (h : x.Takes T J p) (hpq : ∀ v, p v → q v) : x.Takes T J q :=
  fun s hs => ⟨(h s hs).1, (h s hs).2.mono hpq⟩

/-- Where no trail has grown by a taken message. -/
theorem of_adds [Instance ι] (hJ : ∀ s, J s.inst → J (x s).2.inst)
    (hx : x.Adds T fun e => e.taker? = none) : x.Takes T J p := fun s hs => by
  obtain ⟨es, ht, hes, -⟩ := hx s
  exact ⟨hJ s hs, .of_trail _ ht hes⟩

theorem pure (a : α) : Takes T J p (Pure.pure a : Run σ ι α) :=
  fun _ hs => ⟨hs, .of_trail [] rfl fun _ h => absurd h List.not_mem_nil⟩

theorem read (g : Session σ ι → α) : (Run.read g).Takes T J p :=
  fun _ hs => ⟨hs, .of_trail [] rfl fun _ h => absurd h List.not_mem_nil⟩

theorem record {e : Event} (he : e.taker? = none) :
    (Run.record e : Run σ ι Unit).Takes T J p :=
  fun _ hs => ⟨hs, .of_trail [e] rfl fun _ h => (List.mem_singleton.1 h).symm ▸ he⟩

theorem ite {c : Prop} [Decidable c] {y : Run σ ι α} (hx : x.Takes T J p) (hy : y.Takes T J p) :
    (if c then x else y).Takes T J p := by
  split
  · exact hx
  · exact hy

/-- What takes a message first is side by side with what does later. A fact about the value of the
first part may be used for what follows it. -/
theorem bind {c : α → Prop} (hx : x.Takes T J p)
    (hc : ∀ s a, J s.inst → (x s).1 = .value a → c a) (hf : ∀ a, c a → (f a).Takes T J q)
    (hpq : ∀ v w, p v → q w → T.Across v w) : (x >>= f).Takes T J fun v => p v ∨ q v := by
  intro s hs
  have h := hx s hs
  have hv := hc s
  simp only [Bind.bind]
  rcases hxs : x s with ⟨r, s'⟩
  rw [hxs] at h hv
  cases r with
  | value a =>
    have hfa := hf a (hv a hs rfl) s' h.1
    exact ⟨hfa.1, h.2.trans hfa.2 hpq⟩
  | failed e => exact ⟨h.1, h.2.mono fun _ => .inl⟩
  | exhausted => exact ⟨h.1, h.2.mono fun _ => .inl⟩

/-- Nothing takes a message in the first part. -/
theorem after {c : α → Prop} (hx : x.Untaken T J)
    (hc : ∀ s a, J s.inst → (x s).1 = .value a → c a) (hf : ∀ a, c a → (f a).Takes T J p) :
    (x >>= f).Takes T J p :=
  (hx.bind hc hf fun _ _ h => h.elim).mono fun _ h => h.elim False.elim id

/-- Nothing takes a message in the second part. -/
theorem before (hx : x.Takes T J p) (hf : ∀ a, (f a).Untaken T J) : (x >>= f).Takes T J p :=
  (hx.bind (c := fun _ => True) (fun _ _ _ _ => trivial) (fun a _ => hf a)
    fun _ _ _ h => h.elim).mono fun _ h => h.elim id False.elim

/-- Either the first part has messages taken and what follows has not, or the first part comes to
nothing. -/
theorem bind_ite {x y z : Run σ ι Bool} (hx : x.Takes T J p) (hd : x.Declines)
    (hy : y.Untaken T J) (hz : z.Takes T J p) :
    (x >>= fun b => if b then y else z).Takes T J p := by
  intro s hs
  have h := hx s hs
  have hasks := hd s
  simp only [Bind.bind]
  rcases hxs : x s with ⟨r, s'⟩
  rw [hxs] at h hasks
  cases r with
  | value b =>
    cases b with
    | true =>
      have hys := hy s' h.1
      exact ⟨hys.1, (h.2.trans hys.2 fun _ _ _ h => h.elim).mono fun _ h => h.elim id False.elim⟩
    | false =>
      obtain ⟨es, ht, hes⟩ := (hasks rfl).trail
      have hnone : s.Takes T (fun _ => False) s' :=
        .of_trail _ ht fun e he => Event.taker?_of_idle (hes e he)
      have hzs := hz s' h.1
      exact ⟨hzs.1, (hnone.trans hzs.2 fun _ _ h => h.elim).mono fun _ h => h.elim False.elim id⟩
  | failed e => exact h
  | exhausted => exact h

end Run.Takes

section

variable [Instance ι] {M : Machine σ} {J : ι → Prop}

/-- Messages are taken by offers alone. -/
theorem untaken_uniform (hJ : Instance.Kept M.topology J) :
    Run.Uniform (ι := ι) (κ := ι) M M.topology.Holds False
      fun _ x _ => x.Untaken M.topology J :=
  ((keeps_uniform hJ).and (adds_uniform fun e he => by
    cases e with
    | selected _ _ _ => exact (he trivial).elim
    | _ => rfl)).weaken (fun h => .of_adds h.1 h.2)
      fun hx hf => hx.before hf

/-- No message is taken for a completion. -/
theorem engine_untaken (hT : M.topology.WellFormed) (hJ : Instance.Kept M.topology J) (n : Nat) :
    (engine (ι := ι) M M.compile n).Related M M.topology.Holds False
      (fun _ x (_ : Run σ ι _) => x.Untaken M.topology J) (engine M M.compile n) :=
  engine_related_completions (untaken_uniform hJ) (Machine.all_allowed hT)
    (fun _ => Run.Takes.record rfl) (fun _ _ => Run.Takes.record rfl) n

/-- Regions of one state are side by side, and each is asked once. -/
theorem offerRegions_takes {n : Nat} {v : VertexId} {trigger : Trigger}
    (hoffer : ∀ w, ((engine M M.compile n).offer w trigger).Takes M.topology
      (Instance.Placed (ι := ι) M.topology) fun x => w ∈ M.topology.vertexAncestry x) :
    ∀ rs, rs.Nodup → (∀ r ∈ rs, (M.topology.region r).parent = v) →
      (Engine.offerRegions M (engine M M.compile n) v trigger rs).Takes M.topology
        (Instance.Placed (ι := ι) M.topology) fun x => ∃ r ∈ rs, M.topology.Along x r
  | [], _, _ => .pure _
  | r :: rest, hnodup, hrs => by
    obtain ⟨hr, hnodup⟩ := List.nodup_cons.1 hnodup
    have hown := hrs r List.mem_cons_self
    have hrest := offerRegions_takes hoffer rest hnodup fun q hq =>
      hrs q (List.mem_cons_of_mem _ hq)
    have hlater : ∀ x, (∃ q ∈ rest, M.topology.Along x q) →
        ∃ q ∈ r :: rest, M.topology.Along x q := fun x ⟨q, hq, h⟩ =>
      ⟨q, List.mem_cons_of_mem _ hq, h⟩
    refine .after (c := fun known => ∀ w ∈ known, (M.topology.vertex w).parent = some r)
      (.read _) (fun s known hs h w hw => hs r w ((Result.value.inj h).trans hw))
      fun known hknown => ?_
    cases known with
    | none => exact hrest.mono hlater
    | some w =>
      have hw := hknown w rfl
      refine (((hoffer w).mono fun x hx => (Topology.along_of_parent hw).of_mem hx).bind
        (c := fun _ => True) (fun _ _ _ _ => trivial) (fun taken _ => ?_)
        fun x y hx ⟨q, hq, hy⟩ => ?_).mono fun x => Or.rec
          (fun h => ⟨r, List.mem_cons_self, h⟩) (hlater x)
      · refine .ite (.after (c := fun _ => True) (.read _) (fun _ _ _ _ => trivial)
          fun active _ => ?_) hrest
        exact .ite (hrest.before fun _ => .pure _) (.pure _)
      · refine Topology.across_iff.2 ⟨r, q, hx, hy, fun he => hr (he ▸ hq), ?_⟩
        rw [hown, hrs q (List.mem_cons_of_mem _ hq)]

variable (hT : M.topology.WellFormed)
  (hJ : Instance.Kept M.topology (Instance.Placed (ι := ι) M.topology))
include hT hJ

/-- What takes a message that is offered to a vertex is at or beneath the vertex. -/
theorem engine_takes : ∀ (n : Nat) (v : VertexId) (trigger : Trigger),
    ((engine M M.compile n).offer v trigger).Takes M.topology
      (Instance.Placed (ι := ι) M.topology) fun x => v ∈ M.topology.vertexAncestry x
  | 0, _, _ => fun _ hs => ⟨hs, .of_trail [] rfl fun _ h => absurd h List.not_mem_nil⟩
  | n + 1, v, trigger => by
    have hΦ := untaken_uniform (M := M) hJ
    have hn := engine_untaken hT hJ n
    refine .after (c := fun _ => True) (.record rfl) (fun _ _ _ _ => trivial) fun _ _ =>
      .bind_ite ?_ (offerBeneath_declines fun w => engine_offer_declines n w trigger)
        ((hn.offerCompletion v).before fun _ => .pure _)
        (.after (c := fun _ => True) (hΦ.passing _ _) (fun _ _ _ _ => trivial) fun ts _ => ?_)
    · refine .ite (.pure _) ((offerRegions_takes (fun w => engine_takes n w trigger) _
        (hT.nodup_regions v) fun r hr => (hT.mem_regions v r hr).2).mono fun x ⟨r, hr, hx⟩ => ?_)
      exact (hT.mem_regions v r hr).2 ▸ (hT.mem_way_of_along hx).1
    · match ts with
      | [] => exact .pure _
      | [t] =>
        refine Run.Takes.before (fun s hs => ⟨hs, [.selected v t trigger], rfl, ?_⟩) fun _ =>
          hn.fire t trigger
        cases trigger with
        | message m =>
          refine ⟨fun x hx => ?_, List.pairwise_singleton _ _⟩
          rw [List.mem_singleton.1 hx]
          exact Topology.mem_vertexAncestry_self v
        | _ => exact ⟨fun _ h => absurd h List.not_mem_nil, .nil⟩
      | _ :: _ :: _ => exact ((hΦ.report _).before fun _ => .pure _).mono fun _ => False.elim

theorem evaluateRun_takes (depth : Nat) (message : String) :
    (M.evaluateRun depth message M.compile).Takes M.topology
      (Instance.Placed (ι := ι) M.topology) fun _ => True := by
  have hΦ := untaken_uniform (M := M) hJ
  refine .after (c := fun _ => True) (.read _) (fun _ _ _ _ => trivial) fun _ _ =>
    .after (c := fun _ => True) (hΦ.say _ _) (fun _ _ _ _ => trivial) fun _ _ =>
      .after (c := fun _ => True) (hΦ.trace _) (fun _ _ _ _ => trivial) fun _ _ =>
        .after (c := fun _ => True) (.read _) (fun _ _ _ _ => trivial) fun _ _ => ?_
  exact .ite (.pure _) ((engine_takes hT hJ depth _ _).mono fun _ _ => trivial)

/-- What takes a message in one call is side by side. -/
theorem evaluateCompiled_takes {allowed : Edit σ → Prop} (hM : M.Reachable allowed) {i : ι}
    (hi : Instance.Placed M.topology i) (depth : Nat) (env : σ) (message : String) :
    (Event.takers (M.evaluateCompiled depth env i message).events).Pairwise
      M.topology.Across := by
  unfold Machine.evaluateCompiled Machine.executeCompiled
  cases hc : M.clean with
  | false => exact .nil
  | true =>
    rw [hM.program_eq hc]
    obtain ⟨es, ht, -, hes⟩ := (evaluateRun_takes hT hJ depth message
      ⟨env, i, M.settings.source, []⟩ hi).2
    have hevents : (M.execute env i (M.evaluateRun depth message M.compile)).events
        = es.reverse := congrArg List.reverse (ht.trans (List.append_nil es))
    show (Event.takers (M.execute env i _).events).Pairwise _
    rw [hevents, Event.takers, List.filterMap_reverse]
    exact List.pairwise_reverse.2 (hes.imp fun h => h.symm)

end

/-- Trees look names up in the region itself. -/
theorem TreeInstance.placed {T : Topology} (hT : T.WellFormed) (i : TreeInstance) :
    Instance.Placed T i :=
  fun r v hv => (hT.mem_vertices r v (mem_of_lastKnown hv).1).2

theorem TreeInstance.kept_placed {T : Topology} (hT : T.WellFormed) :
    Instance.Kept T (Instance.Placed (ι := TreeInstance) T) :=
  ⟨fun _ _ => placed hT _, fun _ => placed hT _, fun _ _ => placed hT _⟩

/-- However a call ends: the states that take its message are not above each other, and none takes
it twice. This holds of every instance in a tree, and of every instance in tables that knows only
vertices of a region for it, as all do that begin new, whatever became of them and of the model
since. -/
theorem takers_antichain {M : Machine σ} (hM : M.Reachable fun _ => True) (depth : Nat) (env : σ)
    (message : String) :
    (∀ (name : String) (i : TableInstance), M.Lives ⟨name, {}, {}, false⟩ i →
      Instance.Placed M.topology i) ∧
    (∀ i : TableInstance, Instance.Placed M.topology i →
      (Event.takers (M.evaluateCompiled depth env i message).events).Pairwise fun v w =>
        v ≠ w ∧ ¬M.topology.isDescendant v w ∧ ¬M.topology.isDescendant w v) ∧
    ∀ i : TreeInstance,
      (Event.takers (M.evaluateCompiled depth env i message).events).Pairwise fun v w =>
        v ≠ w ∧ ¬M.topology.isDescendant v w ∧ ¬M.topology.isDescendant w v := by
  have hT := hM.wellFormed
  have hapart : ∀ {v w}, M.topology.Across v w →
      v ≠ w ∧ ¬M.topology.isDescendant v w ∧ ¬M.topology.isDescendant w v := fun {v w} h =>
    ⟨fun he => hT.not_mem_of_across h (he ▸ Topology.mem_vertexAncestry_self v),
      fun hd => hT.not_mem_of_across h.symm (Topology.isDescendant_iff.1 hd).1,
      fun hd => hT.not_mem_of_across h (Topology.isDescendant_iff.1 hd).1⟩
  refine ⟨fun _ _ => TableInstance.placed_of_lives, fun i hi => ?_, fun i => ?_⟩
  · exact (evaluateCompiled_takes hT (TableInstance.kept_placed _) hM hi depth env message).imp
      hapart
  · exact (evaluateCompiled_takes hT (TreeInstance.kept_placed hT) hM
      (i.placed hT) depth env message).imp hapart

/-- A state with two regions, in each of which a state has a transition for the same message, as
the state that owns them has. -/
def twoRegions : Machine Unit := .build "m" {} [
  .addVertex "s" (.state ⟨0⟩) .state, .addRegion "p" ⟨1⟩, .addRegion "q" ⟨1⟩,
  .addVertex "i" (.region ⟨1⟩) (.pseudo .initial), .addVertex "a" (.region ⟨1⟩) .state,
  .addVertex "b" (.region ⟨1⟩) .state, .addVertex "j" (.region ⟨2⟩) (.pseudo .initial),
  .addVertex "c" (.region ⟨2⟩) .state, .addVertex "d" (.region ⟨2⟩) .state,
  .addTransition ⟨2⟩ (some ⟨3⟩), .addTransition ⟨3⟩ (some ⟨4⟩), .addTransition ⟨5⟩ (some ⟨6⟩),
  .addTransition ⟨6⟩ (some ⟨7⟩), .addTransition ⟨1⟩ (some ⟨1⟩),
  .modifyTransition ⟨1⟩ fun t => { t with guard := .on "go" },
  .modifyTransition ⟨3⟩ fun t => { t with guard := .on "go" },
  .modifyTransition ⟨4⟩ fun t => { t with guard := .on "go" }]

theorem twoRegions_takers :
    let started := twoRegions.call (⟨"i", {}, {}, false⟩ : TableInstance) (.start 30 ())
    let evaluated := started.machine.evaluateCompiled 30 () started.inst "go"
    evaluated.result = .value true ∧ Event.takers evaluated.events = [⟨3⟩, ⟨6⟩] ∧
      (Event.takers evaluated.events).Pairwise fun v w => v ≠ w ∧
        ¬started.machine.topology.isDescendant v w ∧
        ¬started.machine.topology.isDescendant w v := by
  intro started evaluated
  have hM : twoRegions.Reachable fun _ => True := .build (by decide +kernel) fun _ _ => trivial
  have hlives : started.machine.Lives (⟨"i", {}, {}, false⟩ : TableInstance) started.inst :=
    .call (.start 30 ()) (.fresh hM)
  have hkept := takers_antichain hlives.reachable 30 () "go"
  exact ⟨by decide +kernel, by decide +kernel,
    hkept.2.1 started.inst (hkept.1 "i" started.inst hlives)⟩

end Hsm
