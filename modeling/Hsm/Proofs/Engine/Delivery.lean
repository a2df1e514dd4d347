import Hsm.Proofs.Engine.Confinement
import Hsm.Proofs.Engine.Offers
import Hsm.Proofs.Machine.Lives
import Hsm.Proofs.Topology.Across

/-!
# To whom a message is handed

A message goes down from an active state into its regions, one after the other. What happens in one
region stays there (`engine_confines`), so what the message finds in the next was active when the
call began and has not been left since, unless a transition has led out of a region beside it
(`handed_lasting`). In that case the state may have been left and entered again: it is active then,
and the message goes on to what was only entered because of it (`reentered_handed`).
-/

namespace Hsm

variable {σ ι : Type}

namespace Topology

variable (T : Topology)

/-- The transition leads out of a region that is beside one that the vertex is in. -/
def Disturbs (t : TransitionId) (v : VertexId) : Prop :=
  ∃ a ∈ T.vertexAncestry v, ∃ b ∈ T.vertexAncestry (T.transition t).source,
    ∃ q ∈ (T.vertex a).parent, ∃ r ∈ (T.vertex b).parent, (q ≠ r ∧
      (T.region q).parent = (T.region r).parent) ∧ ∃ x ∈ (T.transition t).target, ¬T.Along x r

instance (t : TransitionId) (v : VertexId) : Decidable (T.Disturbs t v) :=
  inferInstanceAs (Decidable (∃ a ∈ _, ∃ b ∈ _, ∃ q ∈ _, ∃ r ∈ _, (_ ∧ _) ∧ ∃ x ∈ _, _))

variable {T}

theorem disturbs_of_escapes {t : TransitionId} {v : VertexId} {q r : RegionId} (hv : T.Along v q)
    (ht : T.Escapes r t) (hne : q ≠ r) (h : (T.region q).parent = (T.region r).parent) :
    T.Disturbs t v := by
  obtain ⟨a, ha, hq⟩ := hv
  obtain ⟨⟨b, hb, hr⟩, hout⟩ := ht
  exact ⟨a, ha, b, hb, q, hq, r, hr, ⟨hne, h⟩, hout⟩

end Topology

/-- A message is handed to a vertex. -/
def Event.IsDelivery : Event → Prop
  | .offered _ (.message _) => True
  | _ => False

section

variable [Instance ι]

/-- After events from an instance on, of which the newest comes first: the vertex was active in the
instance and has not been left since, or a transition has led out of a region beside it. -/
def Instance.Lasts (T : Topology) (i : ι) (events : List Event) (v : VertexId) : Prop :=
  isActive T i v ∧ .left (.vertex v) ∉ events ∨ ∃ t, .traversed t ∈ events ∧ T.Disturbs t v

theorem Instance.Lasts.append {T : Topology} {i : ι} {es es' : List Event} {v : VertexId}
    (h : Lasts T i es v) (hv : .left (.vertex v) ∉ es') : Lasts T i (es' ++ es) v :=
  h.imp (fun h => ⟨h.1, fun hm => (List.mem_append.1 hm).elim hv h.2⟩)
    fun ⟨t, ht, hout⟩ => ⟨t, List.mem_append_right _ ht, hout⟩

namespace Session

/-- The instance is what the events on the trail made of `i₀`, and messages were handed to active
vertices that last from then on. -/
structure Delivers (T : Topology) (J : ι → Prop) (i₀ : ι) (s : Session σ ι) : Prop where
  lawful : J s.inst
  inst : s.inst = Instance.replay T s.trail i₀
  handed : ∀ v m past, .offered v (.message m) :: past <:+ s.trail →
    Instance.isActive T (Instance.replay T past i₀) v ∧ Instance.Lasts T i₀ past v

/-- What is active among the vertices with the property lasts. -/
def Untouched (T : Topology) (i₀ : ι) (p : VertexId → Prop) (s : Session σ ι) : Prop :=
  ∀ v ∈ T.vertices, p v → Instance.isActive T s.inst v → Instance.Lasts T i₀ s.trail v

variable {T : Topology} {J : ι → Prop} {i₀ : ι} {p p' : VertexId → Prop} {s s' : Session σ ι}

theorem Delivers.leads {q : Event → Prop} (h : s.Delivers T J i₀) (hs : s.Leads T q s')
    (hq : ∀ e, q e → ¬e.IsDelivery) (hJ : J s'.inst) : s'.Delivers T J i₀ := by
  obtain ⟨es, htrail, hes, hinst⟩ := hs
  refine ⟨hJ, ?_, fun v m past hpast => ?_⟩
  · rw [hinst, h.inst, htrail, Instance.replay_append]
  · exact h.handed v m past <| suffix_of_suffix_append (htrail ▸ hpast) fun hm =>
      hq _ (hes _ hm) trivial

/-- Handing a message to an active vertex that lasts. -/
theorem Delivers.offered (h : s.Delivers T J i₀) {v : VertexId} {trigger : Trigger}
    (hactive : Instance.isActive T s.inst v) (hlasts : Instance.Lasts T i₀ s.trail v) :
    Delivers T J i₀ { s with trail := .offered v trigger :: s.trail } := by
  refine ⟨h.lawful, h.inst, fun w m past hpast => ?_⟩
  rcases List.suffix_cons_iff.1 hpast with hpast | hpast
  · obtain ⟨he, rfl⟩ := List.cons.inj hpast
    obtain ⟨rfl, -⟩ := Event.offered.inj he
    exact ⟨h.inst ▸ hactive, hlasts⟩
  · exact h.handed w m past hpast

theorem Untouched.mono (h : s.Untouched T i₀ p) (hp : ∀ v, p' v → p v) :
    s.Untouched T i₀ p' :=
  fun v hv hpv => h v hv (hp v hpv)

/-- What is told or asked touches nothing. -/
theorem Untouched.mute (hJ : Instance.Orderly T J) (h : s.Untouched T i₀ p)
    (hs : s.Leads T Event.Mute s') : s'.Untouched T i₀ p := by
  intro v hv hpv hactive
  have halike := (hJ.alike_of_quiet (hs.mono Event.quiet_of_mute)).1
  obtain ⟨es, htrail, hes, -⟩ := hs
  rw [htrail]
  exact (h v hv hpv ((halike.isActive v).symm.trans hactive)).append fun hm => hes _ hm

/-- What is confined to a region touches nothing in the others of its owner. -/
theorem Untouched.beside (hT : T.WellFormed) {r : RegionId} (h : s.Untouched T i₀ p)
    (hp : ∀ v, p v → ∃ q, T.Along v q ∧ q ≠ r ∧ (T.region q).parent = (T.region r).parent)
    (hs : s.Confined T r J s') : s'.Untouched T i₀ p := by
  intro v hv hpv hactive
  obtain ⟨q, hq, hne, howner⟩ := hp v hpv
  rcases hs.2 with ⟨es, htrail, t, ht, hout⟩ | ⟨⟨es, htrail, hes⟩, hsame⟩
  · exact .inr ⟨t, htrail ▸ List.mem_append_left _ ht,
      Topology.disturbs_of_escapes hq hout hne howner⟩
  · have hnot : ¬T.Along v r := fun hr => hne (hT.eq_of_along hq hr howner)
    rw [htrail]
    exact (h v hv hpv ((hsame.isActive hT hv hnot).1 hactive)).append fun hm => hnot (hes _ hm)

end Session

variable {M : Machine σ} {J : ι → Prop} {i₀ : ι}

variable (i₀) in
theorem delivers_uniform (hJ : Instance.Kept M.topology J) :
    Run.Uniform (ι := ι) (κ := ι) M M.topology.Holds False fun _ x _ =>
      ∀ s, s.Delivers M.topology J i₀ → (x s).2.Delivers M.topology J i₀ :=
  ((keeps_uniform hJ).and (adds_uniform (q := fun e => ¬e.IsDelivery) fun e he => by
    cases e with
    | offered v trigger => exact (he trivial).elim
    | _ => exact id)).weaken
    (fun hx s h => h.leads (hx.2 s) (fun _ => id) (hx.1 s h.lawful)) Run.keeps_bind

variable (i₀) in
/-- By themselves the operations of the engine hand no message to anything. -/
theorem engine_delivers_related (hT : M.topology.WellFormed) (hJ : Instance.Kept M.topology J)
    (n : Nat) : (engine (ι := ι) M M.compile n).Related M M.topology.Holds False
      (fun _ x (_ : Run σ ι _) => ∀ s, s.Delivers M.topology J i₀ →
        (x s).2.Delivers M.topology J i₀) (engine M M.compile n) :=
  engine_related_completions (delivers_uniform i₀ hJ) (Machine.all_allowed hT)
    (fun _ _ h => h.leads (.one (q := fun e => ¬e.IsDelivery) id rfl rfl) (fun _ => id) h.lawful)
    (fun _ _ _ h => h.leads (.one (q := fun e => ¬e.IsDelivery) id rfl rfl) (fun _ => id) h.lawful)
    n

/-- A message is handed to a vertex that is active, and all that is active at or beneath the vertex
lasts. -/
def Machine.Hands (M : Machine σ) (J : ι → Prop) (i₀ : ι) (n : Nat) : Prop :=
  ∀ v ∈ M.topology.vertices, ∀ m, Run.Spec (Session.Delivers M.topology J i₀)
    (fun s => Instance.isActive M.topology s.inst v ∧
      s.Untouched M.topology i₀ fun w => v ∈ M.topology.vertexAncestry w)
    ((engine M M.compile n).offer v (.message m)) fun _ _ => True

namespace Run.Spec

variable {n : Nat} {v : VertexId} {m : String} (hT : M.topology.WellFormed)
  (hJ : Instance.Seats M.topology J) (hn : M.Hands J i₀ n)
include hT hJ hn

/-- While the message is in one region, nothing happens in those that are still to be asked. After
a negative answer the state is active as before, and after a positive one it has to be. -/
theorem offerRegions_hands (hv : v ∈ M.topology.vertices) :
    ∀ rs ⊆ (M.topology.vertex v).regions, rs.Nodup →
      Spec (Session.Delivers M.topology J i₀) (fun s => Instance.isActive M.topology s.inst v ∧
          s.Untouched M.topology i₀ fun w => ∃ q ∈ rs, M.topology.Along w q)
        (Engine.offerRegions M (engine M M.compile n) v (.message m) rs) fun _ _ => True
  | [], _, _ => pure fun _ _ _ => trivial
  | r :: rest, hrs, hnodup => by
    obtain ⟨hr, hrest⟩ := List.cons_subset.1 hrs
    obtain ⟨hnot, hnodup⟩ := List.nodup_cons.1 hnodup
    have ih := offerRegions_hands hv rest hrest hnodup
    have howner := (hT.mem_regions v r hr).2
    have hlater : ∀ w, (∃ q ∈ rest, M.topology.Along w q) →
        ∃ q ∈ r :: rest, M.topology.Along w q := fun _ ⟨q, hq, h⟩ =>
      ⟨q, List.mem_cons_of_mem _ hq, h⟩
    refine read.bind fun known => ?_
    cases known with
    | none => exact ih.pre fun _ _ h => ⟨h.1.1, h.1.2.mono hlater⟩
    | some w =>
      refine bind (r := fun taken s => (taken = false → Instance.isActive M.topology s.inst v) ∧
        s.Untouched M.topology i₀ fun w => ∃ q ∈ rest, M.topology.Along w q)
        (fun s hI h => ?_) fun taken => ?_
      · obtain ⟨⟨hactive, huntouched⟩, hw⟩ := h
        have hparent := hJ.parent_eq hI.lawful hw.symm hT
        have hin := Topology.along_of_parent hparent
        have hwactive : Instance.isActive M.topology s.inst w :=
          (hT.isActiveIn_of_parent hparent).2 ⟨howner ▸ hactive, hw.symm⟩
        have hlisted := hT.mem_vertices_of_region (Topology.mem_regions.2 ⟨v, hv, hr⟩)
          (hJ.listed hI.lawful hw.symm).1
        have hdelivers := (hn w hlisted m s hI ⟨hwactive, huntouched.mono fun _ hx =>
          ⟨r, List.mem_cons_self, hin.of_mem hx⟩⟩).1
        have hconfined := (engine_confines s hT hJ (howner ▸ hactive) (howner ▸ hv) n).offer
          w (.message m) hin s (.refl hI.lawful) trivial
        refine ⟨hdelivers, fun taken ht => ⟨fun he => ?_, ?_⟩⟩
        · have hasks := engine_offer_declines n w (.message m) s (he ▸ ht)
          exact hasks.inst ▸ hactive
        · refine (huntouched.mono hlater).beside hT (fun x ⟨q, hq, hx⟩ => ⟨q, hx, ?_, ?_⟩)
            hconfined.1
          · exact fun he => hnot (he ▸ hq)
          · rw [howner, (hT.mem_regions v q (hrest hq)).2]
      · cases taken with
        | false => exact ih.pre fun _ _ h => ⟨h.1 rfl, h.2⟩
        | true =>
          refine read.bind fun active => ?_
          cases active with
          | false => exact pure fun _ _ _ => trivial
          | true =>
            exact (ih.pre fun _ _ h => ⟨h.2.symm, h.1.2⟩).bind fun _ => pure fun _ _ _ => trivial

theorem offerState_hands (hv : v ∈ M.topology.vertices) :
    Spec (Session.Delivers M.topology J i₀) (fun s => Instance.isActive M.topology s.inst v ∧
        s.Untouched M.topology i₀ fun w => v ∈ M.topology.vertexAncestry w)
      (Engine.offerState M (engine M M.compile n) v (.message m)) fun _ _ => True := by
  have hkept := hJ.toKept
  have hrelated := engine_delivers_related (M := M) i₀ hT hkept n
  refine bind (r := fun _ s => Instance.isActive M.topology s.inst v ∧
      s.Untouched M.topology i₀ fun w => v ∈ M.topology.vertexAncestry w)
    (fun s hI h => ⟨hI.offered h.1 (h.2 v hv (Topology.mem_vertexAncestry_self v) h.1),
      fun _ _ => ⟨h.1, h.2.mute hJ.toOrderly
        (.one (e := .offered v (.message m)) trivial rfl rfl)⟩⟩) fun _ => ?_
  refine bind (r := fun _ _ => True) ((offerRegions_hands hT hJ hn hv _ (fun _ h => h)
    (hT.nodup_regions v)).pre fun s _ h => ⟨h.1, h.2.mono fun w ⟨q, hq, hw⟩ => ?_⟩) fun taken => ?_
  · exact (hT.mem_regions v q hq).2 ▸ (hT.mem_way_of_along hw).1
  · cases taken with
    | true => exact (of_keeps (hrelated.offerCompletion v)).bind fun _ => pure fun _ _ _ => trivial
    | false =>
      refine (of_keeps ((delivers_uniform i₀ hkept).passing _ _)).bind fun ts => ?_
      match ts with
      | [] => exact pure fun _ _ _ => trivial
      | [t] =>
        exact bind (r := fun _ _ => True) (fun s hI _ => ⟨hI.leads
          (.one (q := fun e => ¬e.IsDelivery) id rfl rfl) (fun _ => id) hI.lawful,
            fun _ _ => trivial⟩) fun _ => of_keeps (hrelated.fire t _)
      | _ :: _ :: _ =>
        exact (of_keeps ((delivers_uniform i₀ hkept).report _)).bind fun _ =>
          pure fun _ _ _ => trivial

end Run.Spec

theorem engine_hands (hT : M.topology.WellFormed) (hJ : Instance.Seats M.topology J) :
    ∀ n, M.Hands J i₀ n
  | 0 => fun _ _ _ => .exhausted
  | n + 1 => fun _ hv _ => Run.Spec.offerState_hands hT hJ (engine_hands hT hJ n) hv

/-- A call begins with nothing but its announcement. -/
theorem evaluateRun_delivers (hT : M.topology.WellFormed) (hJ : Instance.Seats M.topology J)
    (depth : Nat) (message : String) (env : σ) (source : IndexSource) (hi : J i₀) :
    (M.evaluateRun depth message M.compile ⟨env, i₀, source, []⟩).2.Delivers M.topology J i₀ := by
  have hΦ := delivers_uniform (M := M) i₀ hJ.toKept
  have hmute : ∀ {x : Run σ ι Unit}, (∀ s, s.Delivers M.topology J i₀ →
      (x s).2.Delivers M.topology J i₀) → x.Adds M.topology Event.Mute →
        Run.Spec (Session.Delivers M.topology J i₀) (Session.Untouched M.topology i₀ fun _ => True)
          x fun _ => Session.Untouched M.topology i₀ fun _ => True := fun hx hadds s hI h =>
    ⟨hx s hI, fun _ _ => h.mute hJ.toOrderly (hadds s)⟩
  have hrun : Run.Spec (Session.Delivers M.topology J i₀)
      (Session.Untouched M.topology i₀ fun _ => True)
      (M.evaluateRun (ι := ι) depth message M.compile) fun _ _ => True := by
    refine .bind .read fun _ => .bind ((hmute (hΦ.say _ _) (.say (fun _ _ => trivial) _ _)).pre
      fun _ _ h => h.1) fun _ => .bind (hmute (hΦ.trace _) (.trace (fun _ => trivial) _)) fun _ =>
        .bind .read fun _ => .ite (fun _ => .pure fun _ _ _ => trivial) fun _ => ?_
    exact (engine_hands hT hJ depth _ Topology.root_mem_vertices message).pre fun _ _ h =>
      ⟨hT.isActiveIn_root, h.1.mono fun _ _ => trivial⟩
  refine (hrun _ ⟨hi, rfl, fun _ _ _ h => ?_⟩ fun _ _ _ h => .inl ⟨h, List.not_mem_nil⟩).1
  exact absurd (List.suffix_nil.1 h) (List.cons_ne_nil _ _)

theorem Machine.Reachable.delivers {allowed : Edit σ → Prop} (hM : M.Reachable allowed)
    (hJ : Instance.Seats M.topology J) (h₀ : J i₀) {accepted : Result (Option Bool) → Prop}
    {events : List Event} {M' : Machine σ} {i : ι} (h : M.Visits accepted i₀ events M' i)
    (depth : Nat) (env : σ) (message : String) {before after : List Event} {v : VertexId}
    {m : String} (hcut : (M'.evaluateCompiled depth env i message).events =
      before ++ .offered v (.message m) :: after) :
    Instance.isActive M.topology (Instance.replay M.topology before.reverse i) v ∧
      Instance.Lasts M.topology i before.reverse v := by
  have hi := (faithful_of_visits hM hJ.toOrderly h₀ h).1
  obtain ⟨source, rfl⟩ := h.exists_ready hM
  have hdelivers := evaluateRun_delivers (M := M.ready source) hM.wellFormed hJ depth message env
    source hi
  rw [show (M.ready source).compile = M.compile from M.compile_used ..] at hdelivers
  refine hdelivers.handed v m before.reverse ⟨after.reverse, ?_⟩
  have hevents : ((M.ready source).evaluateRun depth message M.compile
      ⟨env, i, source, []⟩).2.trail.reverse = before ++ .offered v (.message m) :: after := hcut
  rw [List.reverse_eq_iff.1 hevents, List.reverse_append, List.reverse_cons, List.append_assoc]
  rfl

end

/-- However the calls before ended: within an evaluation a message is handed to a vertex only while
that is active, and only if the vertex was active when the evaluation began and has not been left
since, unless a transition has led out of a region beside it. -/
theorem handed_lasting {M : Machine σ} (hM : M.Reachable fun _ => True) (name : String) :
    (∀ {events : List Event} {M' : Machine σ} {i : TableInstance},
      M.Visits (fun _ => True) ⟨name, {}, {}, false⟩ events M' i →
        ∀ depth env message before v m after,
          (M'.evaluateCompiled depth env i message).events =
            before ++ .offered v (.message m) :: after →
          Instance.isActive M.topology (Instance.replay M.topology before.reverse i) v ∧
            Instance.Lasts M.topology i before.reverse v) ∧
    ((∀ name, Violation.duplicateQualifiedName name ∉ M.violations) →
      ∀ {events : List Event} {M' : Machine σ} {j : TreeInstance},
        M.Visits (fun _ => True) { name := name } events M' j →
          ∀ depth env message before v m after,
            (M'.evaluateCompiled depth env j message).events =
              before ++ .offered v (.message m) :: after →
            Instance.isActive M.topology (Instance.replay M.topology before.reverse j) v ∧
              Instance.Lasts M.topology j before.reverse v) := by
  have hT := hM.wellFormed
  refine ⟨fun h depth env message _ _ _ _ hcut => ?_,
    fun hN _ _ _ h depth env message _ _ _ _ hcut => ?_⟩
  · exact hM.delivers (TableInstance.seats hT) (TableInstance.seated_new M.topology name) h
      depth env message hcut
  · exact hM.delivers (TreeInstance.seats hT (Machine.distinctNames hN))
      (TreeInstance.seated_new M.topology name) h depth env message hcut

/-- A state with two regions. A message leads from what is active in the first to the state itself,
and has a transition of its own in the second. -/
def reentering : Machine Unit := .build "m" {} [
  .addVertex "s" (.state ⟨0⟩) .state, .addRegion "p" ⟨1⟩, .addRegion "q" ⟨1⟩,
  .addVertex "i" (.region ⟨1⟩) (.pseudo .initial), .addVertex "a" (.region ⟨1⟩) .state,
  .addVertex "j" (.region ⟨2⟩) (.pseudo .initial), .addVertex "b" (.region ⟨2⟩) .state,
  .addVertex "c" (.region ⟨2⟩) .state, .addTransition ⟨2⟩ (some ⟨3⟩),
  .addTransition ⟨3⟩ (some ⟨1⟩), .addTransition ⟨4⟩ (some ⟨5⟩), .addTransition ⟨5⟩ (some ⟨6⟩),
  .modifyTransition ⟨1⟩ fun t => { t with guard := .on "go" },
  .modifyTransition ⟨3⟩ fun t => { t with guard := .on "go" }]

theorem reentering_lasting :
    let started := reentering.call (⟨"i", {}, {}, false⟩ : TableInstance) (.start 30 ())
    let evaluated := started.machine.evaluateCompiled 30 () started.inst "go"
    let started' := reentering.call ({ name := "i" } : TreeInstance) (.start 30 ())
    let evaluated' := started'.machine.evaluateCompiled 30 () started'.inst "go"
    .offered ⟨3⟩ (.message "go") ∈ evaluated.events ∧
    (∀ before v m after, evaluated.events = before ++ .offered v (.message m) :: after →
      Instance.Lasts reentering.topology started.inst before.reverse v) ∧
    ∀ before v m after, evaluated'.events = before ++ .offered v (.message m) :: after →
      Instance.Lasts reentering.topology started'.inst before.reverse v := by
  have hM : reentering.Reachable fun _ => True := .build (by decide +kernel) fun _ _ => trivial
  have hlasting := handed_lasting hM "i"
  exact ⟨by decide +kernel,
    fun _ _ _ _ h => (hlasting.1 (.start 30 () trivial) 30 () "go" _ _ _ _ h).2,
    fun _ _ _ _ h => (hlasting.2 (fun name => by
      rw [show reentering.violations = [] by decide +kernel]; exact List.not_mem_nil)
      (.start 30 () trivial) 30 () "go" _ _ _ _ h).2⟩

/-- The state is left and entered again, and then the message goes on to what has only just been
entered in the second region, and leads on from there. -/
theorem reentered_handed :
    let started := reentering.call (⟨"i", {}, {}, false⟩ : TableInstance) (.start 30 ())
    let evaluated := started.machine.evaluateCompiled 30 () started.inst "go"
    reentering.Reachable (fun _ => True) ∧
    started.result = .value none ∧ evaluated.result = .value true ∧
    ∃ before after, evaluated.events = before ++ .offered ⟨5⟩ (.message "go") :: after ∧
      .left (.vertex ⟨5⟩) ∈ before ∧ .selected ⟨5⟩ ⟨3⟩ (.message "go") ∈ after := by
  intro started evaluated
  let handed := Event.offered ⟨5⟩ (.message "go")
  exact ⟨.build (by decide +kernel) fun _ _ => trivial, by decide +kernel, by decide +kernel,
    evaluated.events.takeWhile (· ≠ handed), (evaluated.events.dropWhile (· ≠ handed)).tail,
    by decide +kernel, by decide +kernel, by decide +kernel⟩

end Hsm
