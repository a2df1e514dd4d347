import Hsm.Instance.Table
import Hsm.Proofs.Engine.Rules
import Hsm.Proofs.Machine.Arena
import Hsm.Proofs.Machine.Freshness
import Hsm.Proofs.Program.Parting

/-!
# Where local transitions may end

Validation, compilation and execution each decide for themselves whether a local transition ends
within its source. The first two look at the model and agree (`Machine.strays`). The third looks for
the first vertex on the way to the target that is not active, and for the region that this lies in.
It finds one for every transition that the other two let pass, but for one from the root to itself:
the root is active whatever the instance is like, and lies in no region. Such a transition ends
every run that takes it, and nothing else does so in its name (`within_agrees`).
-/

namespace Hsm

variable {σ ι : Type}

namespace Machine

variable (M : Machine σ)

/-! ## Validation and compilation -/

/-- A local transition that does not end within its source. -/
def isStray (t : TransitionId) : Bool :=
  let node := M.topology.transition t
  node.kind = .within && !node.target.any (M.staysWithin node.source)

def strays : List TransitionId :=
  M.topology.transitions.filter M.isStray

end Machine

/-- The breach tells of a local transition. -/
def Violation.isLocal : Violation → Bool
  | localTargetNotDescendant _ => true
  | _ => false

namespace Machine

variable {M : Machine σ}

theorem mem_breach {holds : Bool} {v w : Violation} (h : w ∈ breach holds v) : w = v := by
  unfold breach at h
  split at h
  · cases h
  · exact List.mem_singleton.1 h

theorem filter_isLocal_flatMap {α : Type} {f : α → List Violation} {l : List α}
    (h : ∀ a ∈ l, ∀ v ∈ f a, v.isLocal = false) : (l.flatMap f).filter Violation.isLocal = [] := by
  refine List.filter_eq_nil_iff.2 fun v hv => ?_
  obtain ⟨a, ha, hv⟩ := List.mem_flatMap.1 hv
  simp [h a ha v hv]

theorem isLocal_of_mem_regionViolations {r : RegionId} {v : Violation}
    (h : v ∈ M.regionViolations r) : v.isLocal = false := by
  obtain ⟨kind, -, h⟩ := List.mem_flatMap.1 h
  rw [mem_breach h]
  rfl

theorem isLocal_of_mem_pseudoViolations {u : VertexId} {kind : PseudoKind} {v : Violation}
    (h : v ∈ M.pseudoViolations u kind) : v.isLocal = false := by
  unfold pseudoViolations at h
  dsimp only at h
  split at h
  · rcases List.mem_append.1 h with h | h <;> rw [mem_breach h] <;> rfl
  · rcases List.mem_append.1 h with h | h
    · rw [mem_breach h]
      rfl
    · split at h
      · rcases List.mem_append.1 h with h | h
        · rw [mem_breach h]
          rfl
        · split at h
          · rw [mem_breach h]
            rfl
          · cases h
      · cases h

theorem isLocal_of_mem_vertexViolations {u : VertexId} {v : Violation}
    (h : v ∈ M.vertexViolations u) : v.isLocal = false := by
  have hstate : v ∈ M.stateViolations u → v.isLocal = false := fun h => by
    rw [mem_breach h]
    rfl
  have hfinal : v ∈ M.finalViolations u → v.isLocal = false := fun h => by
    simp only [finalViolations, List.mem_append] at h
    rcases h with ((h | h) | h) | h <;> rw [mem_breach h] <;> rfl
  unfold vertexViolations at h
  split at h
  · exact isLocal_of_mem_pseudoViolations h
  · exact (List.mem_append.1 h).elim hstate hfinal
  · exact hstate h
  · exact hstate h

theorem transitionViolations_eq (t : TransitionId) : M.transitionViolations t =
    if M.isStray t then [.localTargetNotDescendant (M.topology.describe t)] else [] := by
  show (if (M.topology.transition t).kind = .within then
    breach ((M.topology.transition t).target.any (M.staysWithin (M.topology.transition t).source)) _
      else []) = _
  unfold isStray breach
  by_cases hk : (M.topology.transition t).kind = .within
  · cases hx : (M.topology.transition t).target.any (M.staysWithin (M.topology.transition t).source)
      <;> simp [hk, hx]
  · simp [hk]

/-- Validation lists the local transitions that leave their source, in the order of the model. -/
theorem violations_isLocal : M.violations.filter Violation.isLocal =
    M.strays.map fun t => .localTargetNotDescendant (M.topology.describe t) := by
  have htransitions : ∀ ts : List TransitionId,
      (ts.flatMap M.transitionViolations).filter Violation.isLocal =
        (ts.filter M.isStray).map fun t => .localTargetNotDescendant (M.topology.describe t) := by
    intro ts
    induction ts with
    | nil => rfl
    | cons t ts ih =>
      rw [List.flatMap_cons, List.filter_append, ih, transitionViolations_eq]
      by_cases ht : M.isStray t
      · rw [if_pos ht, List.filter_cons_of_pos rfl]
        simp [ht]
      · simp [ht]
  have hnames : M.nameViolations.filter Violation.isLocal = [] := by
    refine List.filter_eq_nil_iff.2 fun v hv => ?_
    obtain ⟨name, -, rfl⟩ := List.mem_map.1 hv
    simp [Violation.isLocal]
  unfold violations
  rw [List.filter_append, List.filter_append, List.filter_append, htransitions, hnames,
    filter_isLocal_flatMap fun _ _ _ => isLocal_of_mem_regionViolations,
    filter_isLocal_flatMap fun _ _ _ => isLocal_of_mem_vertexViolations]
  simp [strays]

theorem draftTransition_faults (hlinks : M.topology.Linked) (D : Draft σ) (t : TransitionId) :
    (M.draftTransition D t).faults = D.faults ++
      if M.isStray t then [.targetNotWithin (M.topology.describe t)] else [] := by
  have hinternal := hlinks.internal t
  unfold draftTransition isStray
  dsimp only
  split
  · rename_i hk
    simp [hk]
  · rename_i hx _
    simp [hinternal hx]
  · rename_i hk hx
    simp [hk]
  · rename_i hk hx
    split <;> simp_all

theorem foldl_draftTransition_faults (hlinks : M.topology.Linked) :
    ∀ (ts : List TransitionId) (D : Draft σ), (ts.foldl M.draftTransition D).faults =
      D.faults ++ (ts.filter M.isStray).map fun t => .targetNotWithin (M.topology.describe t)
  | [], D => by simp
  | t :: ts, D => by
    rw [List.foldl_cons, foldl_draftTransition_faults hlinks ts, draftTransition_faults hlinks]
    by_cases ht : M.isStray t <;> simp [ht]

/-- Compilation tells of the same transitions in the same order, and of nothing else. -/
theorem faults_draft (hlinks : M.topology.Linked) : M.draft.faults =
    M.strays.map fun t => .targetNotWithin (M.topology.describe t) := by
  have hwalk : (M.draftWithin (M.topology.vertexNodes.size + 1) Topology.root false {}).faults = [] :=
    draftWithin_induction (p := fun D => D.faults = []) (fun _ _ _ h => h) _ _ _ rfl
  show (M.topology.transitions.foldl M.draftTransition _).faults = _
  rw [foldl_draftTransition_faults hlinks, hwalk, List.nil_append]
  rfl

/-! ## Where a local transition begins -/

/-- A local transition that ends within its source. -/
structure Stays (M : Machine σ) (t : TransitionId) : Prop where
  mem : t ∈ M.topology.transitions
  kind : (M.topology.transition t).kind = .within
  target : ∃ x, (M.topology.transition t).target = some x ∧
    M.staysWithin (M.topology.transition t).source x

/-- A local transition from the root to itself. -/
structure Loops (M : Machine σ) (t : TransitionId) : Prop where
  mem : t ∈ M.topology.transitions
  kind : (M.topology.transition t).kind = .within
  source : (M.topology.transition t).source = Topology.root
  target : (M.topology.transition t).target = some Topology.root

end Machine

open Machine

/-- The step does not run along a local transition. -/
def Step.Fixed : Step σ → Prop
  | .traverseWithin _ => False
  | _ => True

theorem Step.fixed_of_exits : ∀ {step : Step σ}, step.Exits → step.Fixed := fun {step} h => by
  cases step <;> trivial

theorem Step.fixed_of_enters : ∀ {step : Step σ}, step.Enters → step.Fixed := fun {step} h => by
  cases step <;> trivial

namespace Machine

variable {M : Machine σ} {t : TransitionId}

theorem stays_of_not_stray (ht : t ∈ M.topology.transitions)
    (hk : (M.topology.transition t).kind = .within) (h : t ∉ M.strays) : M.Stays t := by
  have hany : ¬M.isStray t := fun hs => h (List.mem_filter.2 ⟨ht, hs⟩)
  refine ⟨ht, hk, ?_⟩
  simpa [isStray, hk, Option.any_eq_true] using hany

theorem Stays.traversal_eq (h : M.Stays t) : M.compile.traversal t = [.traverseWithin t] := by
  obtain ⟨x, hx, hwithin⟩ := h.target
  rw [traversal_compile h.mem]
  simp only [traversalSteps, h.kind, hx, if_pos hwithin]

theorem fixed_externalSteps (hT : M.topology.WellFormed) (source target : VertexId)
    (effects : List (Action σ)) :
    ∀ step ∈ M.externalSteps M.compile source target effects, step.Fixed := by
  intro step hs
  rcases mem_externalSteps hs with ⟨v, hs⟩ | ⟨a, rfl⟩ | ⟨e, hs | hs⟩
  · exact Step.fixed_of_exits (exits_leave hT _ hs)
  · trivial
  · exact Step.fixed_of_enters (enters_beginEnter hT _ hs)
  · exact Step.fixed_of_enters (enters_endEnter hT _ hs)

theorem fixed_traversal (hT : M.topology.WellFormed) (h : ¬M.Stays t) :
    ∀ step ∈ M.compile.traversal t, step.Fixed := by
  by_cases ht : t ∈ M.topology.transitions
  · refine traversal_cases (p := fun steps => ∀ step ∈ steps, step.Fixed) ht
      (fun _ step hs => ?_) (fun x hx hk hw => (h ⟨ht, hk, x, hx, hw⟩).elim)
      fun x _ _ => fixed_externalSteps hT _ _ _
    rcases mem_internalSteps hs with ⟨a, rfl⟩ | rfl <;> trivial
  · rw [traversal_compile_of_not_mem ht]
    exact fun _ hs => absurd hs List.not_mem_nil

end Machine

theorem Topology.isDescendant_root {T : Topology} (hT : T.WellFormed) (v : VertexId) :
    ¬T.isDescendant root v := by
  intro h
  have hbelow := (Forest.isBelow_iff (F := T.stateTree)).1 h
  rw [show T.stateTree.ancestors root = [root] from hT.vertexAncestry_root] at hbelow
  exact hbelow.2 (List.mem_singleton.1 hbelow.1)

variable [Instance ι] {M : Machine σ}

/-- A local transition turns from what is active to what it leaves at a vertex of the target's way
that is not active, or at the target. -/
theorem traverseWithin_eq (P : Program σ) (e : Engine σ ι) (trigger : Trigger) {t : TransitionId}
    {x : VertexId} (hx : (M.topology.transition t).target = some x) (s : Session σ ι) :
    ∃ above a rest, M.topology.vertexAncestry x = above ++ a :: rest ∧
      (∀ b ∈ above, Instance.isActive M.topology s.inst b) ∧
      (a = x ∨ ¬Instance.isActive M.topology s.inst a) ∧
      Engine.traverseWithin M P e t trigger s = (match (M.topology.vertex a).parent with
        | none => Engine.stop (.targetNotWithin (M.topology.describe t))
        | some r => do
          Engine.leaveCurrent M P e r trigger
          Run.actAll trigger (M.effects t)
          e.performAll trigger false (P.cascade M.topology (a :: rest))
          e.performAll trigger false (P.endEnter (.vertex x)) : Run σ ι Unit) s := by
  obtain ⟨above, a, rest, hsplit, hlength, habove, hend⟩ := exists_split_takeWhile
    (Instance.isActive M.topology s.inst) (Topology.vertexAncestry_ne_nil (T := M.topology) x)
  refine ⟨above, a, rest, hsplit, habove, hend.imp_left fun h => ?_, ?_⟩
  · rw [h] at hsplit
    exact Topology.eq_of_suffix_singleton ⟨above, hsplit.symm⟩
  · have hfrom : (M.topology.vertexAncestry x)[above.length]?.getD x = a := by
      rw [hsplit, List.getElem?_append_right (Nat.le_refl _), Nat.sub_self,
        List.getElem?_cons_zero, Option.getD_some]
    have hdrop : (M.topology.vertexAncestry x).drop above.length = a :: rest := by
      rw [hsplit, List.drop_left]
    cases hp : (M.topology.vertex a).parent <;>
      simp only [Engine.traverseWithin, hx, Bind.bind, Run.read, hlength, hfrom, hdrop, hp]

/-- It turns at a vertex that lies in no region only if it ends at the root: the root is active, so
no other vertex turns it there. -/
theorem eq_root_of_turn {i : ι} (hT : M.topology.WellFormed) {x a : VertexId}
    {above rest : List VertexId} (hx : x.index < M.topology.vertexNodes.size)
    (hsplit : M.topology.vertexAncestry x = above ++ a :: rest)
    (hturn : a = x ∨ ¬Instance.isActive M.topology i a)
    (hp : (M.topology.vertex a).parent = none) : x = Topology.root := by
  have ha : a ∈ M.topology.vertexAncestry x := hsplit ▸ List.mem_append_right _ List.mem_cons_self
  have hle : a.index ≤ x.index := Forest.height_le_of_mem (F := M.topology.stateTree) ha
  obtain rfl := hT.eq_root a (hle.trans_lt hx) hp
  exact (hturn.resolve_right (not_not_intro hT.isActiveIn_root)).symm

/-! ## Runs that fail for the end of a local transition -/

/-- If the failure is that a local transition ends outside its source, then a transition from the
root to itself had just begun. -/
def Machine.Looped (M : Machine σ) (failure : Failure) (trail : List Event) : Prop :=
  ∀ text, failure = .fault (.targetNotWithin text) → ∃ t before, M.Loops t ∧
    text = M.topology.describe t ∧
      trail = .message .error (Fault.targetNotWithin text).message :: .traversed t :: before

def Run.LoopsOnly (M : Machine σ) {α : Type} (x : Run σ ι α) : Prop :=
  ∀ s failure, (x s).1 = .failed failure → M.Looped failure (x s).2.trail

namespace Run.LoopsOnly

variable {α β : Type}

omit [Instance ι]

theorem of_succeeds {x : Run σ ι α} (h : ∀ s, (x s).1.Succeeds) : x.LoopsOnly M := by
  intro s failure hf
  obtain ⟨a, ha⟩ := h s
  rw [ha] at hf
  cases hf

theorem pure (a : α) : (Pure.pure a : Run σ ι α).LoopsOnly M :=
  of_succeeds fun _ => ⟨a, rfl⟩

theorem read (f : Session σ ι → α) : (Run.read f).LoopsOnly M :=
  of_succeeds fun s => ⟨f s, rfl⟩

theorem record (e : Event) : (Run.record e : Run σ ι Unit).LoopsOnly M :=
  of_succeeds fun _ => ⟨(), rfl⟩

theorem exhausted : (Run.exhausted : Run σ ι α).LoopsOnly M :=
  fun _ _ h => nomatch h

theorem bind {x : Run σ ι α} {f : α → Run σ ι β} (hx : x.LoopsOnly M)
    (hf : ∀ a, (f a).LoopsOnly M) : (x >>= f).LoopsOnly M := by
  intro s failure h
  simp only [Bind.bind] at h ⊢
  rcases hxs : x s with ⟨r, s'⟩
  rw [hxs] at h
  cases r with
  | value a => exact hf a s' failure h
  | failed e =>
    have hfail := hx s e (by rw [hxs])
    rw [hxs] at hfail
    exact Result.failed.inj h ▸ hfail
  | exhausted => cases h

theorem discard {x : Run σ ι α} (hx : x.LoopsOnly M) : (Functor.discard x).LoopsOnly M :=
  hx.bind fun _ => pure _

theorem ite {c : Prop} [Decidable c] {x y : Run σ ι α} (hx : x.LoopsOnly M) (hy : y.LoopsOnly M) :
    (if c then x else y).LoopsOnly M := by
  split
  · exact hx
  · exact hy

theorem stop {f : Fault} (hf : ∀ text, f ≠ .targetNotWithin text) :
    (Engine.stop f : Run σ ι α).LoopsOnly M := by
  intro s failure h text he
  rw [he] at h
  exact absurd (Failure.fault.inj (Result.failed.inj h)) (hf text)

theorem report {f : Fault} (hf : ∀ text, f ≠ .targetNotWithin text) :
    (Engine.report M f : Run σ ι Unit).LoopsOnly M := by
  unfold Engine.report
  cases M.settings.onError with
  | abort => exact stop hf
  | ignoreAndLog => exact (record _).bind fun _ => pure _

theorem act (a : Action σ) (trigger : Trigger) : (Run.act a trigger : Run σ ι Unit).LoopsOnly M := by
  intro s failure h text he
  unfold Run.act at h
  dsimp only at h
  split at h
  · rw [he] at h
    cases h
  · cases h

theorem actAll (trigger : Trigger) :
    ∀ as : List (Action σ), (Run.actAll trigger as : Run σ ι Unit).LoopsOnly M
  | [] => pure _
  | _ :: rest => (act _ _).bind fun _ => actAll trigger rest

theorem draw (count : Nat) : (Run.draw count : Run σ ι Nat).LoopsOnly M := by
  refine of_succeeds fun s => ?_
  unfold Run.draw
  split <;> exact ⟨_, rfl⟩

theorem pickChoice : ∀ branches : List TransitionId,
    (Engine.pickChoice branches : Run σ ι _).LoopsOnly M
  | [] => pure _
  | _ :: _ => (draw _).bind fun _ => pure _

theorem pickJunction (v : VertexId) (trigger : Trigger) : ∀ branches : List TransitionId,
    (Engine.pickJunction M v trigger branches : Run σ ι _).LoopsOnly M
  | [] | [_] => pure _
  | _ :: _ :: _ => (report fun _ h => by cases h).bind fun _ => pure _

section

variable [Instance ι]

theorem passing (trigger : Trigger) :
    ∀ ts, (Engine.passing M trigger ts : Run σ ι _).LoopsOnly M
  | [] => pure _
  | _ :: rest => bind (of_succeeds fun _ => ⟨_, rfl⟩) fun _ =>
      (passing trigger rest).bind fun _ => pure _

theorem branch (v : VertexId) (trigger : Trigger) :
    (Engine.branch M v trigger : Run σ ι _).LoopsOnly M := by
  refine (passing _ _).bind fun branches => bind (ite (pickChoice _) (pickJunction _ _ _)) fun t => ?_
  split
  · exact pure _
  · split
    · exact pure _
    · exact stop fun _ => nofun

theorem announce (verb : String) (e : Element) :
    (Engine.announce M verb e : Run σ ι _).LoopsOnly M :=
  (read _).bind fun _ => (record _).bind fun _ => of_succeeds fun _ => ⟨(), rfl⟩

theorem historyState (v : VertexId) (deep : Bool) :
    (Engine.historyState M v deep : Run σ ι _).LoopsOnly M := by
  unfold Engine.historyState
  split
  · exact ite (read _) (pure _)
  · exact pure _

end

end Run.LoopsOnly

/-- Every operation fails for loops only. That a transition begins is told before its step is
performed. -/
structure Engine.LoopsOnly (M : Machine σ) (e : Engine σ ι) : Prop where
  perform : ∀ step trigger deep, step.Fixed → (e.perform step trigger deep).LoopsOnly M
  within : ∀ t trigger, M.Stays t →
    (Run.record (.traversed t) >>= fun _ => e.perform (.traverseWithin t) trigger false).LoopsOnly M
  offer : ∀ v trigger, (e.offer v trigger).LoopsOnly M
  fire : ∀ t trigger, (e.fire t trigger).LoopsOnly M
  legs : ∀ t trigger, (e.legs t trigger).LoopsOnly M

namespace Engine.LoopsOnly

open Engine

variable {e : Engine σ ι} (hT : M.topology.WellFormed) (h : e.LoopsOnly M)

section

include h

omit [Instance ι] in
theorem performAll (trigger : Trigger) (deep : Bool) : ∀ steps : List (Step σ),
    (∀ step ∈ steps, step.Fixed) → (e.performAll trigger deep steps).LoopsOnly M
  | [], _ => .pure _
  | step :: rest, hs => (h.perform _ _ _ (hs step List.mem_cons_self)).bind fun _ =>
      performAll trigger deep rest fun step hm => hs step (List.mem_cons_of_mem _ hm)

theorem legsFrom (t : TransitionId) (trigger : Trigger) :
    (legsFrom M e t trigger).LoopsOnly M := by
  unfold Engine.legsFrom
  split
  · exact .ite ((Run.LoopsOnly.branch _ _).bind fun _ => (h.legs _ _).bind fun _ => .pure _) (.pure _)
  · exact .pure _

theorem offerCompletion (v : VertexId) : (offerCompletion M e v).LoopsOnly M :=
  (Run.LoopsOnly.read _).bind fun _ => .ite (h.offer _ _).discard (.pure _)

theorem leadOn (trigger : Trigger) (target : VertexId) : (leadOn M e trigger target).LoopsOnly M :=
  .ite ((Run.LoopsOnly.branch _ _).bind fun _ => (h.fire _ _).discard)
    (.ite (h.offerCompletion _) (.pure _))

theorem offerRegions (state : VertexId) (trigger : Trigger) :
    ∀ rs, (offerRegions M e state trigger rs).LoopsOnly M
  | [] => .pure _
  | _ :: rest => by
    refine (Run.LoopsOnly.read _).bind fun v => ?_
    cases v with
    | none => exact offerRegions state trigger rest
    | some v =>
      exact (h.offer _ _).bind fun _ => .ite
        ((Run.LoopsOnly.read _).bind fun _ => .ite
          ((offerRegions state trigger rest).bind fun _ => .pure _) (.pure _))
        (offerRegions state trigger rest)

omit [Instance ι] in
theorem takeOnly (state : VertexId) (trigger : Trigger) :
    ∀ ts, (takeOnly M e state trigger ts).LoopsOnly M
  | [] => .pure _
  | [_] => (Run.LoopsOnly.record _).bind fun _ => h.fire _ _
  | _ :: _ :: _ => (Run.LoopsOnly.report fun _ h => by cases h).bind fun _ => .pure _

theorem offerState (state : VertexId) (trigger : Trigger) :
    (offerState M e state trigger).LoopsOnly M :=
  (Run.LoopsOnly.record _).bind fun _ =>
    (Run.LoopsOnly.ite (.pure _) (h.offerRegions _ _ _)).bind fun _ => .ite
      ((h.offerCompletion _).bind fun _ => .pure _)
      ((Run.LoopsOnly.passing _ _).bind fun _ => h.takeOnly _ _ _)

end

include hT h

omit [Instance ι] in
theorem enterElement (x : Element) (trigger : Trigger) (deep : Bool) :
    (enterElement M.compile e x trigger deep).LoopsOnly M :=
  (h.performAll _ _ _ fun _ hs => Step.fixed_of_enters (enters_beginEnter hT _ hs)).bind fun _ =>
    h.performAll _ _ _ fun _ hs => Step.fixed_of_enters (enters_endEnter hT _ hs)

omit [Instance ι] in
theorem leave (x : Element) (trigger : Trigger) (deep : Bool) :
    (e.performAll trigger deep (M.compile.leave x)).LoopsOnly M :=
  h.performAll _ _ _ fun _ hs => Step.fixed_of_exits (exits_leave hT _ hs)

theorem leaveCurrent (r : RegionId) (trigger : Trigger) :
    (leaveCurrent M M.compile e r trigger).LoopsOnly M := by
  refine (Run.LoopsOnly.read _).bind fun v => ?_
  cases v with
  | none => exact .pure _
  | some v => exact leave hT h _ _ _

theorem enterRegion (r : RegionId) (initial : Option VertexId) (trigger : Trigger) (deep : Bool) :
    (enterRegion M M.compile e r initial trigger deep).LoopsOnly M := by
  refine (Run.LoopsOnly.read _).bind fun _ => ?_
  split
  · exact enterElement hT h _ _ _
  · exact .ite (.pure _) (.record _)

theorem resume (v : VertexId) (trigger : Trigger) (deep : Bool) :
    (resume M M.compile e v trigger deep).LoopsOnly M := by
  refine (Run.LoopsOnly.historyState _ _).bind fun state => ?_
  split
  · exact (leave hT h _ _ _).bind fun _ => enterElement hT h _ _ _
  · split
    · exact (h.fire _ _).discard
    · exact .stop fun _ => nofun

theorem performStep (step : Step σ) (trigger : Trigger) (deep : Bool) (hs : step.Fixed) :
    (performStep M M.compile e step trigger deep).LoopsOnly M := by
  cases step with
  | enter x | leave x => exact (Run.LoopsOnly.record _).bind fun _ => .announce _ _
  | setCurrent r v | terminate => exact .of_succeeds fun _ => ⟨(), rfl⟩
  | behavior a => exact .act a trigger
  | leaveActive r => exact leaveCurrent hT h _ _
  | enterRegion r initial => exact enterRegion hT h _ _ _ _
  | resume v => exact resume hT h _ _ _
  | completeInternal v => exact .ite (h.offerCompletion _) (.pure _)
  | traverseWithin t => exact hs.elim

/-- Once there is a region to leave, all that is left to do is leaving, effects and entering. -/
theorem traverseWithin (hlinks : M.topology.Linked) {t : TransitionId} (ht : M.Stays t)
    (trigger : Trigger) : (Run.record (.traversed t) >>= fun _ =>
      traverseWithin M M.compile e t trigger).LoopsOnly M := by
  obtain ⟨x, hx, hwithin⟩ := ht.target
  intro s failure hf
  obtain ⟨above, a, rest, hsplit, -, hturn, heq⟩ := traverseWithin_eq M.compile e trigger hx
    { s with trail := .traversed t :: s.trail }
  simp only [Bind.bind, Run.record] at hf ⊢
  rw [heq] at hf ⊢
  cases hp : (M.topology.vertex a).parent with
  | none =>
    rw [hp] at hf
    obtain rfl := eq_root_of_turn hT (hlinks.target_lt t x hx) hsplit hturn hp
    have hsource : (M.topology.transition t).source = Topology.root := by
      rcases Bool.or_eq_true_iff.1 hwithin with h | h
      · exact (of_decide_eq_true h).symm
      · exact absurd h (Topology.isDescendant_root hT _)
    intro text he
    rw [he] at hf
    cases hf
    exact ⟨t, s.trail, ⟨ht.mem, ht.kind, hsource, hx⟩, rfl, rfl⟩
  | some r =>
    rw [hp] at hf
    refine Run.LoopsOnly.bind (leaveCurrent hT h r trigger) (fun _ => ?_) _ failure hf
    refine (Run.LoopsOnly.actAll _ _).bind fun _ => (h.performAll _ _ _ fun step hs => ?_).bind
      fun _ => h.performAll _ _ _ fun step hs => Step.fixed_of_enters (enters_endEnter hT _ hs)
    obtain ⟨-, -, e, -, hs | hs⟩ := Program.mem_cascade hs
    · exact Step.fixed_of_enters (enters_beginEnter hT _ hs)
    · exact Step.fixed_of_enters (enters_endEnter hT _ hs)

omit [Instance ι] in
theorem traverseAll (trigger : Trigger) :
    ∀ ts, (traverseAll M.compile e trigger ts).LoopsOnly M
  | [] => .pure _
  | t :: rest => by
    have hrest := traverseAll trigger rest
    by_cases ht : M.Stays t
    · show (Run.record (.traversed t) >>= fun _ =>
        e.performAll trigger false (M.compile.traversal t) >>= fun _ =>
          Engine.traverseAll M.compile e trigger rest).LoopsOnly M
      rw [ht.traversal_eq, ← Run.bind_assoc]
      refine Run.LoopsOnly.bind ?_ fun _ => hrest
      show (Run.record (.traversed t) >>= fun _ =>
        e.perform (.traverseWithin t) trigger false >>= fun _ => pure ()).LoopsOnly M
      rw [← Run.bind_assoc]
      exact (h.within t trigger ht).bind fun _ => .pure _
    · exact (Run.LoopsOnly.record _).bind fun _ =>
        (h.performAll _ _ _ (fixed_traversal hT ht)).bind fun _ => hrest

theorem fireTransition (t : TransitionId) (trigger : Trigger) :
    (fireTransition M M.compile e t trigger).LoopsOnly M := by
  refine (h.legs _ _).bind fun _ => (traverseAll hT h trigger _).bind fun _ => ?_
  split
  · exact .pure _
  · exact (h.leadOn _ _).bind fun _ => .pure _

end Engine.LoopsOnly

theorem engine_loopsOnly (hT : M.topology.WellFormed) (hlinks : M.topology.Linked) :
    ∀ n, (engine (ι := ι) M M.compile n).LoopsOnly M
  | 0 => ⟨fun _ _ _ _ => .exhausted, fun _ _ _ => (Run.LoopsOnly.record _).bind fun _ => .exhausted,
      fun _ _ => .exhausted, fun _ _ => .exhausted, fun _ _ => .exhausted⟩
  | n + 1 =>
    have h := engine_loopsOnly hT hlinks n
    ⟨h.performStep hT, fun _ trigger ht => h.traverseWithin hT hlinks ht trigger,
      h.offerState, h.fireTransition hT, h.legsFrom⟩

/-! ## Calls -/

section

variable {allowed : Edit σ → Prop}

omit [Instance ι] in
/-- What the model was compiled to, and its source of choices, do not matter for its structure. -/
theorem Run.LoopsOnly.of_ready {α : Type} {x : Run σ ι α} {source : IndexSource}
    (hx : x.LoopsOnly (M.ready source)) : x.LoopsOnly M := by
  intro s failure hf text he
  obtain ⟨t, before, ht, h⟩ := hx s failure hf text he
  exact ⟨t, before, ⟨ht.mem, ht.kind, ht.source, ht.target⟩, h⟩

theorem startRun_loopsOnly (hM : M.Reachable allowed) (depth : Nat) :
    (M.startRun depth M.compile : Run σ ι Unit).LoopsOnly M := by
  have h := engine_loopsOnly (ι := ι) hM.wellFormed hM.linked depth
  refine (Run.LoopsOnly.read _).bind fun _ => (Run.LoopsOnly.record _).bind fun _ =>
    h.performAll _ _ _ fun step hs => ?_
  rcases List.mem_append.1 hs with hs | hs
  · exact Step.fixed_of_enters (enters_beginEnter hM.wellFormed _ hs)
  · exact Step.fixed_of_enters (enters_endEnter hM.wellFormed _ hs)

theorem evaluateRun_loopsOnly (hM : M.Reachable allowed) (depth : Nat) (message : String) :
    (M.evaluateRun depth message M.compile : Run σ ι Bool).LoopsOnly M :=
  (Run.LoopsOnly.read _).bind fun _ => (Run.LoopsOnly.record _).bind fun _ =>
    (Run.LoopsOnly.of_succeeds fun _ => ⟨(), rfl⟩).bind fun _ => (Run.LoopsOnly.read _).bind
      fun _ => .ite (.pure _) ((engine_loopsOnly hM.wellFormed hM.linked depth).offer _ _)

/-- If the outcome is that a local transition ends outside its source, then the last thing that
happened is that a transition from the root to itself began. -/
def Outcome.LoopsOnly {α : Type} (M : Machine σ) (o : Outcome σ ι α) : Prop :=
  ∀ text, o.result = .failed (.fault (.targetNotWithin text)) → ∃ t before, M.Loops t ∧
    text = M.topology.describe t ∧ o.events = before ++
      [.traversed t, .message .error (Fault.targetNotWithin text).message]

omit [Instance ι] in
theorem Outcome.LoopsOnly.of_run {α : Type} {x : Run σ ι α} {o : Outcome σ ι α}
    {s : Session σ ι} (preamble : List Event) (hx : x.LoopsOnly M) (hresult : o.result = (x s).1)
    (hevents : o.events = preamble ++ (x s).2.trail.reverse) : o.LoopsOnly M := by
  intro text h
  obtain ⟨t, trail, ht, hdescribe, htrail⟩ := hx s _ (hresult ▸ h) text rfl
  refine ⟨t, preamble ++ trail.reverse, ht, hdescribe, ?_⟩
  rw [hevents, htrail]
  simp

omit [Instance ι] in
theorem Outcome.LoopsOnly.map {α β : Type} {f : α → β} {o : Outcome σ ι α} (h : o.LoopsOnly M) :
    (o.map f).LoopsOnly M :=
  fun text ho => h text (Result.map_eq_failed.1 ho)

omit [Instance ι] in
theorem whenClean_loopsOnly {α : Type} (hM : M.Reachable allowed) (env : σ) (i : ι)
    {x : Machine σ → Program σ → Run σ ι α}
    (hx : ∀ {N : Machine σ}, N.Reachable allowed → (x N N.compile).LoopsOnly N) :
    (M.whenClean fun N => N.executeCompiled env i (x N)).LoopsOnly M := by
  have h := hx (hM.ready M.settings.source)
  rw [show (M.ready M.settings.source).compile = M.compile from M.compile_used ..] at h
  rw [hM.whenClean_eq env i x]
  exact .of_run M.preamble h.of_ready rfl rfl

omit [Instance ι] in
theorem executeCompiled_loopsOnly {α : Type} (hM : M.Reachable allowed) (env : σ) (i : ι)
    {x : Program σ → Run σ ι α} (hx : (x M.compile).LoopsOnly M) :
    (M.executeCompiled env i x).LoopsOnly M := by
  cases hc : M.clean with
  | true =>
    have heq : M.executeCompiled env i x = M.execute env i (x M.compile) := by
      unfold executeCompiled
      rw [hc, hM.program_eq hc]
    rw [heq]
    exact .of_run [] hx rfl rfl
  | false =>
    have heq : M.executeCompiled env i x = M.execute env i (Run.fail (.notInitialised M.name)) := by
      unfold executeCompiled
      rw [hc]
    rw [heq]
    exact fun text h => by cases h

/-- Validation, compilation and execution agree on the local transitions of the model, but for
those from the root to itself, which validation and compilation accept. -/
structure Machine.AgreesWithin (M : Machine σ) : Prop where
  violations : M.violations.filter Violation.isLocal =
    M.strays.map fun t => .localTargetNotDescendant (M.topology.describe t)
  faults : M.draft.faults = M.strays.map fun t => .targetNotWithin (M.topology.describe t)
  external : ∀ t ∈ M.strays, ∃ x, (M.topology.transition t).target = some x ∧
    M.compile.traversal t =
      M.externalSteps M.compile (M.topology.transition t).source x (M.effects t)
  within : ∀ t ∈ M.topology.transitions, (M.topology.transition t).kind = .within →
    t ∉ M.strays → M.compile.traversal t = [.traverseWithin t]
  unlisted : ∀ t, t ∉ M.topology.transitions → M.compile.traversal t = []
  calls : ∀ {ι : Type} [Instance ι] (i : ι) (c : Call σ),
    (M.call i c).LoopsOnly M ∧ (M.callCompiled i c).LoopsOnly M
  loops : ∀ t, M.Loops t → t ∉ M.strays ∧ ∀ {ι : Type} [Instance ι] (n : Nat) (trigger : Trigger)
    (deep : Bool) (s : Session σ ι), (engine M M.compile (n + 1)).perform (.traverseWithin t)
      trigger deep s = Engine.stop (.targetNotWithin (M.topology.describe t)) s

theorem within_agrees {M : Machine σ} (hM : M.Reachable allowed) : M.AgreesWithin where
  violations := violations_isLocal
  faults := faults_draft hM.linked
  external t ht := by
    obtain ⟨ht, hstray⟩ := List.mem_filter.1 ht
    obtain ⟨hk, hany⟩ : (M.topology.transition t).kind = .within ∧ _ := by
      simpa [isStray] using hstray
    obtain ⟨x, hx⟩ := Option.ne_none_iff_exists'.1 fun hnone => by
      have hinternal := hM.linked.internal t hnone
      rw [hk] at hinternal
      cases hinternal
    refine ⟨x, hx, ?_⟩
    rw [hx] at hany
    rw [traversal_compile ht]
    simp only [traversalSteps, hk, hx]
    rw [if_neg]
    simpa using hany
  within t ht hk h := (stays_of_not_stray ht hk h).traversal_eq
  unlisted t ht := traversal_compile_of_not_mem ht
  calls i c := by
    cases c with
    | start depth env =>
      exact ⟨(whenClean_loopsOnly hM env i (x := fun N => N.startRun depth)
        fun hN => startRun_loopsOnly hN depth).map,
        (executeCompiled_loopsOnly hM env i (startRun_loopsOnly hM depth)).map⟩
    | evaluate depth env message =>
      exact ⟨(whenClean_loopsOnly hM env i (x := fun N => N.evaluateRun depth message)
        fun hN => evaluateRun_loopsOnly hN depth message).map,
        (executeCompiled_loopsOnly hM env i (evaluateRun_loopsOnly hM depth message)).map⟩
  loops t ht := by
    refine ⟨fun h => ?_, fun {ι} _ n trigger deep s => ?_⟩
    · have hstray := (List.mem_filter.1 h).2
      simp [isStray, ht.kind, ht.target, ht.source, staysWithin] at hstray
    · obtain ⟨above, a, rest, hsplit, -, -, heq⟩ :=
        traverseWithin_eq M.compile (engine (ι := ι) M M.compile n) trigger ht.target s
      rw [hM.wellFormed.vertexAncestry_root] at hsplit
      obtain ⟨rfl, rfl, rfl⟩ : above = [] ∧ a = Topology.root ∧ rest = [] := by
        cases above with
        | nil => simpa [eq_comm] using hsplit
        | cons b bs => simp at hsplit
      rw [hM.wellFormed.root_parent] at heq
      exact heq

end

/-- A state with local transitions to what is in it, to itself and to a state beside it, and one
from the root to itself. -/
def selfLoops : Machine Unit := .build "m" {} [
  .addVertex "i" (.state ⟨0⟩) (.pseudo .initial), .addVertex "a" (.state ⟨0⟩) .state,
  .addVertex "b" (.state ⟨2⟩) .state, .addVertex "c" (.state ⟨0⟩) .state,
  .addTransition ⟨1⟩ (some ⟨2⟩), .addTransition ⟨2⟩ (some ⟨3⟩), .addTransition ⟨2⟩ (some ⟨2⟩),
  .addTransition ⟨2⟩ (some ⟨4⟩), .addTransition ⟨0⟩ (some ⟨0⟩), .setTransitionKind ⟨1⟩ .within,
  .setTransitionKind ⟨2⟩ .within, .setTransitionKind ⟨3⟩ .within, .setTransitionKind ⟨4⟩ .within]

/-- Only the transition to the state beside it is a stray. -/
theorem selfLoops_agrees :
    selfLoops.Reachable (fun _ => True) ∧ selfLoops.AgreesWithin ∧ selfLoops.strays = [⟨3⟩] := by
  have hM : selfLoops.Reachable fun _ => True := .build (by decide +kernel) fun _ _ => trivial
  exact ⟨hM, within_agrees hM, by decide +kernel⟩

/-- On "go" the machine leads locally to itself. -/
def rootLoop : Machine Unit := .build "m" {} [
  .addVertex "i" (.state ⟨0⟩) (.pseudo .initial), .addVertex "a" (.state ⟨0⟩) .state,
  .addTransition ⟨1⟩ (some ⟨2⟩), .addTransition ⟨0⟩ (some ⟨0⟩), .setTransitionKind ⟨1⟩ .within,
  .modifyTransition ⟨1⟩ fun t => { t with guard := .on "go" }]

/-- Neither validation nor compilation objects to the transition, and an evaluation that takes it
fails. -/
theorem rootLoop_fails :
    let started := rootLoop.call (⟨"x", {}, {}, false⟩ : TableInstance) (.start 30 ())
    rootLoop.Reachable (fun _ => True) ∧
    ⟨1⟩ ∈ rootLoop.topology.transitions ∧ (rootLoop.topology.transition ⟨1⟩).kind = .within ∧
    rootLoop.violations = [] ∧ rootLoop.draft.faults = [] ∧ started.result = .value none ∧
    (started.machine.call started.inst (.evaluate 30 () "go")).result =
      .failed (.fault (.targetNotWithin (rootLoop.topology.describe ⟨1⟩))) := by
  intro started
  exact ⟨.build (by decide +kernel) fun _ _ => trivial, by decide +kernel, by decide +kernel,
    by decide +kernel, by decide +kernel, by decide +kernel, by decide +kernel⟩

end Hsm
