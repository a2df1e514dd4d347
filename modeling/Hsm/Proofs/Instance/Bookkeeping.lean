import Hsm.Proofs.Engine.Termination

/-!
# The bookkeeping of tables

What is current in a region is in that region, what is last known of it is a state in it, and a
state that is current is the last known one (`TableInstance.Coherent`). A call keeps this with
every single event, so it holds wherever the call stops; an edit keeps it because vertices stay in
their regions and are what they were (`Edit.fixes_apply`). And tables only ever learn
(`TableInstance.Precedes`).
-/

namespace Hsm

variable {σ ι : Type}

namespace Topology

variable {T U V : Topology}

/-- What is in a region stays in it, and stays what it is. -/
structure Fixes (T U : Topology) : Prop where
  retains : T.Retains U
  kind : ∀ v r, (T.vertex v).parent = some r → U.kind v = T.kind v

namespace Fixes

theorem refl (T : Topology) : T.Fixes T :=
  ⟨.refl T, fun _ _ _ => rfl⟩

theorem trans (h : T.Fixes U) (h' : U.Fixes V) : T.Fixes V where
  retains := h.retains.trans h'.retains
  kind v r hr := (h'.kind v r (h.retains v r hr)).trans (h.kind v r hr)

theorem of_trims (h : T.Trims U) : T.Fixes U :=
  ⟨.of_trims h, fun v _ _ => h.kind v⟩

theorem of_vertexNodes (h : U.vertexNodes = T.vertexNodes) : T.Fixes U := by
  have hv : ∀ v, U.vertex v = T.vertex v := fun v => by unfold vertex; rw [h]
  exact ⟨fun v r hr => by rwa [hv], fun v _ _ => congrArg VertexNode.kind (hv v)⟩

theorem modifyVertex (T : Topology) (v : VertexId) {f : VertexNode → VertexNode}
    (hp : ∀ node, (f node).parent = node.parent) (hk : ∀ node, (f node).kind = node.kind) :
    T.Fixes (T.modifyVertex v f) :=
  ⟨.modifyVertex T v hp, fun w _ _ => read_modifyVertex VertexNode.kind v w hk⟩

theorem pushVertex (T : Topology) (node : VertexNode) :
    T.Fixes { T with vertexNodes := T.vertexNodes.push node } := by
  refine ⟨.pushVertex T node, fun w r hr => ?_⟩
  refine congrArg VertexNode.kind ((vertex_push node w).trans (if_neg fun he => ?_))
  -- a number that was not given out yet stands for a vertex without a region
  rw [vertex, he, Array.getElem?_size] at hr
  cases hr

theorem addRegion (T : Topology) (name : String) (state : VertexId) :
    T.Fixes (T.addRegion name state).2 :=
  have hpush : T.Fixes { T with regionNodes := T.regionNodes.push ⟨name, state, [], false⟩ } :=
    .of_vertexNodes rfl
  hpush.trans (.modifyVertex _ state (fun _ => rfl) fun _ => rfl)

theorem regionAt (T : Topology) : ∀ place : Place, T.Fixes (T.regionAt place).2
  | .region _ => refl T
  | .state state => by
    show T.Fixes (T.defaultRegion state).2
    unfold Topology.defaultRegion
    split
    · exact refl T
    · exact (addRegion T defaultRegionName state).trans
        (modifyVertex _ state (fun _ => rfl) fun _ => rfl)

theorem addVertex (T : Topology) (name : String) (place : Place) (kind : VertexKind) :
    T.Fixes (T.addVertex name place kind).2 :=
  (regionAt T place).trans ((pushVertex _ _).trans (.of_vertexNodes rfl))

theorem addTransition (T : Topology) (source : VertexId) (target : Option VertexId)
    (kind : TransitionKind) : T.Fixes (T.addTransition source target kind).2 := by
  let node : TransitionNode := ⟨source, target, effectiveKind target kind, false⟩
  have hpush : T.Fixes { T with transitionNodes := T.transitionNodes.push node } :=
    .of_vertexNodes rfl
  have hsource := hpush.trans (.modifyVertex _ source (f := fun node =>
    { node with outgoing := node.outgoing ++ [(⟨T.transitionNodes.size⟩ : TransitionId)] })
    (fun _ => rfl) fun _ => rfl)
  cases target with
  | none => exact hsource
  | some target => exact hsource.trans (.modifyVertex _ target (fun _ => rfl) fun _ => rfl)

end Fixes

end Topology

theorem Edit.fixes_apply {M : Machine σ} (e : Edit σ) : M.topology.Fixes (e.apply M).topology := by
  cases e with
  | setSettings _ | setSeparator _ | setTransitionKind _ _ | modifyTransition _ _
  | modifyState _ _ => exact .of_vertexNodes rfl
  | addRegion name state => exact .addRegion _ name state
  | defaultRegion state => exact .regionAt _ (.state state)
  | addVertex name place kind => exact .addVertex _ name place kind
  | addTransition source target => exact .addTransition _ source target .external
  | removeTransition _ | removeVertex _ | removeRegion _ => exact .of_trims (trims_of_removes rfl)

/-! ## The moments of a call -/

/-- The event makes a vertex current in its own region only. -/
def Event.InPlace (T : Topology) : Event → Prop
  | .setCurrent r v => T.Holds r v
  | _ => True

section

variable [Instance ι]

/-- What the engine keeps it keeps with every event. -/
theorem Instance.Kept.replay {T : Topology} {J : ι → Prop} (hJ : Kept T J) {es : List Event} {i : ι}
    (hes : ∀ e ∈ es, e.InPlace T) (hi : J i) : J (Instance.replay T es i) := by
  induction es with
  | nil => exact hi
  | cons e es ih =>
    have hrest := ih fun e he => hes e (List.mem_cons_of_mem _ he)
    have he := hes e List.mem_cons_self
    cases e with
    | setCurrent r v => exact hJ.setCurrent hrest he
    | terminated => exact hJ.terminate hrest
    | traced line => exact hJ.trace line hrest
    | _ => exact hrest

theorem inPlace_uniform {M : Machine σ} {offers : Prop} :
    Run.Uniform (ι := ι) (κ := ι) M M.topology.Holds offers
      (fun _ x _ => x.Adds M.topology (Event.InPlace M.topology)) where
  pure a := .pure a
  bind hx hf := hx.bind hf
  stop _ := (Run.Adds.say (fun _ _ => trivial) _ _).bind fun _ s => .refl s
  exhausted := fun s => .refl s
  note e hn _ := by
    refine .note ?_ hn
    cases e with
    | setCurrent r v => exact hn.elim
    | _ => trivial
  act a trigger := .act (fun _ _ => trivial) a trigger
  draw count := .draw (fun _ _ => trivial) count
  setCurrent r v hv := fun _ => .one (e := .setCurrent r v) hv rfl rfl
  terminate := fun _ => .one (e := .terminated) trivial rfl rfl
  trace line := .trace (fun _ => trivial) line
  check trigger t := .check (fun _ _ _ => trivial) trigger t
  read _ := .read _

namespace Machine

variable {M M' : Machine σ} {i i' i₀ : ι}

/-- Every call makes vertices current only in their own regions. -/
theorem Reachable.inPlace_of_mem {allowed : Edit σ → Prop} (hM : M.Reachable allowed) (i : ι)
    (c : Call σ) : ∀ e ∈ (M.call i c).events, e.InPlace M.topology := by
  have hT := hM.wellFormed
  have hmem : ∀ {α : Type} {x : Run σ ι α} (s : Session σ ι),
      x.Adds M.topology (Event.InPlace M.topology) → s.trail = [] →
        ∀ e ∈ M.preamble ++ (x s).2.trail.reverse, e.InPlace M.topology := by
    intro α x s hx hs e he
    rcases List.mem_append.1 he with he | he
    · have hidle := M.idle_of_mem_preamble he
      cases e with
      | setCurrent r v => exact hidle.elim
      | _ => trivial
    · obtain ⟨es, ht, hes, -⟩ := hx s
      rw [ht, hs, List.append_nil] at he
      exact hes e (List.mem_reverse.1 he)
  have hengine : ∀ depth, (engine (ι := ι) (M.ready M.settings.source)
      (M.ready M.settings.source).compile depth).Related (M.ready M.settings.source)
      M.topology.Holds True (fun _ x _ => x.Adds M.topology (Event.InPlace M.topology)) _ :=
    fun depth => engine_related (M := M.ready M.settings.source) inPlace_uniform
      (all_allowed (M := M.ready M.settings.source) hT) trivial depth
  cases c with
  | start depth env =>
    rw [hM.call_start]
    exact hmem _ (startRun_related (M := M.ready M.settings.source) inPlace_uniform (hengine depth)
      (all_allowed (M := M.ready M.settings.source) hT).onInitialise) rfl
  | evaluate depth env message =>
    rw [hM.call_evaluate]
    exact hmem _ (evaluateRun_related (M := M.ready M.settings.source) inPlace_uniform
      (hengine depth) trivial message) rfl

/-- What an instance is at two moments of a call, one after the other: what the events so far have
made of it. -/
def During (M : Machine σ) (i : ι) (c : Call σ) (j k : ι) : Prop :=
  ∃ before between after, (M.call i c).events = before ++ between ++ after ∧
    j = Instance.replay M.topology before.reverse i ∧
    k = Instance.replay M.topology (before ++ between).reverse i

/-- A call goes from what it is given to what it returns, however it ends. -/
theorem Reachable.during_call {allowed : Edit σ → Prop} (hM : M.Reachable allowed) (i : ι)
    (c : Call σ) : M.During i c i (M.call i c).inst :=
  ⟨[], _, [], (List.append_nil _).symm, rfl, hM.call_replay i c⟩

/-- What becomes of a model and an instance by calls and edits in any order. -/
inductive Continues (M : Machine σ) (i : ι) : Machine σ → ι → Prop
  | refl : Continues M i M i
  | edit {M' : Machine σ} {i' : ι} {e : Edit σ} : Continues M i M' i' → e.Valid M'.topology →
    Continues M i (e.apply M') i'
  | initialise {M' : Machine σ} {i' : ι} : Continues M i M' i' → Continues M i M'.initialise i'
  | call {M' : Machine σ} {i' : ι} (c : Call σ) : Continues M i M' i' →
    Continues M i (M'.call i' c).machine (M'.call i' c).inst

theorem Continues.lives (h : M.Continues i M' i') (hi : M.Lives i₀ i) : M'.Lives i₀ i' := by
  induction h with
  | refl => exact hi
  | edit _ hv ih => exact .edit ih hv
  | initialise _ ih => exact .initialise ih
  | call c _ ih => exact .call c ih

end Machine

end

/-! ## Tables -/

namespace TableInstance

variable {T U : Topology} {i j k : TableInstance}

/-- What the two tables of an instance have to do with the model and with each other. -/
structure Coherent (T : Topology) (i : TableInstance) : Prop where
  current_parent : ∀ r v, i.current.get? r = some v → (T.vertex v).parent = some r
  lastKnown_parent : ∀ r s, i.lastKnown.get? r = some s → (T.vertex s).parent = some r
  lastKnown_isState : ∀ r s, i.lastKnown.get? r = some s → T.isState s
  lastKnown_current : ∀ r v, i.current.get? r = some v → T.isState v → i.lastKnown.get? r = some v

/-- What was known at `i` has a successor at `j`, and if `i` has ended then so has `j`. -/
structure Precedes (i j : TableInstance) : Prop where
  lastKnown : ∀ r, (i.lastKnown.get? r).isSome → (j.lastKnown.get? r).isSome
  terminated : i.terminated → j.terminated

theorem coherent_new (T : Topology) (name : String) : Coherent T ⟨name, {}, {}, false⟩ where
  current_parent _ _ h := nomatch h
  lastKnown_parent _ _ h := nomatch h
  lastKnown_isState _ _ h := nomatch h
  lastKnown_current _ _ h := nomatch h

theorem Coherent.setCurrent (h : Coherent T i) {r : RegionId} {v : VertexId}
    (hv : T.Holds r v) : Coherent T (i.setCurrent T r v) := by
  refine ⟨fun s w hw => ?_, fun s w hw => ?_, fun s w hw => ?_, fun s w hw hs => ?_⟩
  · rw [current_setCurrent] at hw
    split at hw
    · rename_i he
      rw [he, ← Option.some.inj hw]
      exact hv.2
    · exact h.current_parent s w hw
  · rw [lastKnown_setCurrent] at hw
    split at hw
    · rename_i he
      rw [he.1, ← Option.some.inj hw]
      exact hv.2
    · exact h.lastKnown_parent s w hw
  · rw [lastKnown_setCurrent] at hw
    split at hw
    · rename_i he
      rw [← Option.some.inj hw]
      exact he.2
    · exact h.lastKnown_isState s w hw
  · rw [current_setCurrent] at hw
    rw [lastKnown_setCurrent]
    by_cases he : s = r
    · rw [if_pos he] at hw
      obtain rfl := Option.some.inj hw
      exact if_pos ⟨he, hs⟩
    · rw [if_neg he] at hw
      rw [if_neg fun h => he h.1]
      exact h.lastKnown_current s w hw hs

theorem kept_coherent (T : Topology) : Instance.Kept T (Coherent T) where
  trace _ h := h
  terminate h := ⟨h.current_parent, h.lastKnown_parent, h.lastKnown_isState, h.lastKnown_current⟩
  setCurrent h hv := h.setCurrent hv

theorem Coherent.of_fixes (h : Coherent T i) (hU : T.Fixes U) : Coherent U i := by
  have hstate : ∀ r v, (T.vertex v).parent = some r → U.isState v = T.isState v := fun r v hp => by
    unfold Topology.isState
    rw [hU.kind v r hp]
  refine ⟨fun r v hv => hU.retains v r (h.current_parent r v hv),
    fun r s hs => hU.retains s r (h.lastKnown_parent r s hs), fun r s hs => ?_, fun r v hv hs => ?_⟩
  · rw [hstate r s (h.lastKnown_parent r s hs)]
    exact h.lastKnown_isState r s hs
  · rw [hstate r v (h.current_parent r v hv)] at hs
    exact h.lastKnown_current r v hv hs

namespace Precedes

theorem refl (i : TableInstance) : Precedes i i :=
  ⟨fun _ h => h, fun h => h⟩

theorem trans (h : Precedes i j) (h' : Precedes j k) : Precedes i k :=
  ⟨fun r hr => h'.lastKnown r (h.lastKnown r hr), fun ht => h'.terminated (h.terminated ht)⟩

theorem setCurrent (T : Topology) (r : RegionId) (v : VertexId) (i : TableInstance) :
    Precedes i (i.setCurrent T r v) := by
  refine ⟨fun s hs => ?_, fun h => h⟩
  rw [lastKnown_setCurrent]
  split
  · rfl
  · exact hs

theorem replay (T : Topology) (es : List Event) (i : TableInstance) :
    Precedes i (Instance.replay T es i) := by
  induction es with
  | nil => exact refl i
  | cons e es ih =>
    cases e with
    | setCurrent r v => exact ih.trans (setCurrent T r v _)
    | terminated => exact ih.trans ⟨fun _ h => h, fun _ => rfl⟩
    | _ => exact ih

end Precedes

section

variable {M M' : Machine σ} {name : String}

theorem coherent_of_lives (h : M.Lives ⟨name, {}, {}, false⟩ i) : Coherent M.topology i := by
  induction h with
  | fresh _ => exact coherent_new _ name
  | @edit M i e _ _ ih => exact ih.of_fixes e.fixes_apply
  | initialise _ ih => exact ih
  | @call M i c h ih =>
    obtain ⟨source, hsource⟩ := h.reachable.call_machine i c
    rw [hsource]
    exact h.reachable.call_keeps (kept_coherent M.topology) ih c

theorem precedes_of_continues (hi : M.Lives ⟨name, {}, {}, false⟩ i)
    (h : M.Continues i M' j) : Precedes i j := by
  induction h with
  | refl => exact .refl i
  | edit _ _ ih => exact ih
  | initialise _ ih => exact ih
  | call c h ih =>
    rw [(h.lives hi).reachable.call_replay]
    exact ih.trans (.replay _ _ _)

/-- Of an instance that began empty the tables are coherent at rest and at every moment of every
call, and they have lost nothing since any time before, at rest or in the same call. -/
theorem coherent_throughout (hi : M.Lives ⟨name, {}, {}, false⟩ i) (h : M.Continues i M' j) :
    (Coherent M'.topology j ∧ Precedes i j) ∧
      ∀ c k l, M'.During j c k l →
        (Coherent M'.topology k ∧ Precedes i k) ∧ Coherent M'.topology l ∧ Precedes k l := by
  have hj := h.lives hi
  have hcoherent := coherent_of_lives hj
  have hprecedes := precedes_of_continues hi h
  refine ⟨⟨hcoherent, hprecedes⟩, ?_⟩
  rintro c _ _ ⟨before, between, after, hcut, rfl, rfl⟩
  have hplaced : ∀ e ∈ before ++ between, e.InPlace M'.topology := fun e he =>
    hj.reachable.inPlace_of_mem j c e (hcut ▸ List.mem_append_left _ he)
  have hmoment : ∀ es ⊆ before ++ between,
      Coherent M'.topology (Instance.replay M'.topology es.reverse j) := fun es hes =>
    (kept_coherent M'.topology).replay (fun e he => hplaced e (hes (List.mem_reverse.1 he)))
      hcoherent
  refine ⟨⟨hmoment _ (List.subset_append_left _ _), hprecedes.trans (.replay _ _ _)⟩,
    hmoment _ (List.Subset.refl _), ?_⟩
  rw [List.reverse_append, Instance.replay_append]
  exact .replay _ _ _

end

/-- A message leads from a state to another whose entry fails, after it has become current. -/
def faultyEntry : Machine Unit := .build "m" {} [
  .addVertex "i" (.state ⟨0⟩) (.pseudo .initial), .addVertex "a" (.state ⟨0⟩) .state,
  .addVertex "b" (.state ⟨0⟩) .state, .addTransition ⟨1⟩ (some ⟨2⟩),
  .addTransition ⟨2⟩ (some ⟨3⟩),
  .modifyTransition ⟨1⟩ fun t => { t with guard := .on "go" },
  .modifyState ⟨3⟩ fun b => { b with entry := [fun _ env => ⟨env, [], some "no"⟩] }]

/-- The call that fails leaves the second state current, and so it stays when the state is removed.
The tables are coherent then, and at every moment of any further call. -/
theorem faultyEntry_coherent :
    let started := faultyEntry.call (⟨"i", {}, {}, false⟩ : TableInstance) (.start 30 ())
    let failed := started.machine.call started.inst (.evaluate 30 () "go")
    let pruned := (Edit.removeVertex ⟨3⟩).apply failed.machine
    failed.result = .failed (.action "no") ∧ failed.inst.current.get? ⟨0⟩ = some ⟨3⟩ ∧
      ((Coherent pruned.topology failed.inst ∧ Precedes started.inst failed.inst) ∧
        ∀ c k l, pruned.During failed.inst c k l →
          (Coherent pruned.topology k ∧ Precedes started.inst k) ∧
            Coherent pruned.topology l ∧ Precedes k l) := by
  intro started failed pruned
  have hlives : started.machine.Lives (⟨"i", {}, {}, false⟩ : TableInstance) started.inst :=
    .call (.start 30 ()) (.fresh (.build (by decide +kernel) fun _ _ => trivial))
  have hlater : started.machine.Continues started.inst pruned failed.inst :=
    .edit (.call (.evaluate 30 () "go") .refl) trivial
  exact ⟨by decide +kernel, by decide +kernel, coherent_throughout hlives hlater⟩

end TableInstance

end Hsm
