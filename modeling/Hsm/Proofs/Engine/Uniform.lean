import Hsm.Engine.Evaluate
import Hsm.Proofs.Program.Steps

/-!
# The engine deals with instances uniformly

All that the engine does is put together from the same few dealings with a session, whatever kind
its instance is. A relation between runs that holds between equal dealings and is kept by
sequencing therefore holds between the operations of the engine over two kinds of instances
(`engine_related`). The steps of a program name the vertices that may become current.
-/

namespace Hsm

variable {σ ι κ : Type}

/-- Events that tell of the engine alone. -/
def Event.IsNote : Event → Prop
  | .message .. | .entered _ | .left _ | .offered .. | .selected .. | .traversed _ => True
  | _ => False

/-- Events that tell of offers to states. -/
def Event.IsOffer : Event → Prop
  | .offered .. | .selected .. => True
  | _ => False

/-- A step that makes a vertex current makes an allowed one current. -/
def Step.Allowed (allowed : RegionId → VertexId → Prop) : Step σ → Prop
  | .setCurrent r v => allowed r v
  | _ => True

theorem Step.allowed_all (step : Step σ) : step.Allowed fun _ _ => True := by
  cases step <;> trivial

theorem Program.all_allowed (P : Program σ) : P.All (Step.Allowed fun _ _ => True) :=
  ⟨fun _ step _ => step.allowed_all, fun _ step _ => step.allowed_all,
    fun _ step _ => step.allowed_all, fun _ step _ => step.allowed_all⟩

section

variable [Instance ι] [Instance κ]

/-- Two instances show the same to the engine. -/
structure Instance.Agree (T : Topology) (i : ι) (j : κ) : Prop where
  name : name i = name j
  current : ∀ r, current T r i = current T r j
  lastKnown : ∀ r, lastKnown T r i = lastKnown T r j
  isTerminated : isTerminated i = isTerminated j

namespace Instance.Agree

variable {T : Topology} {i : ι} {j : κ}

omit [Instance κ] in
theorem refl (i : ι) : Agree T i i :=
  ⟨rfl, fun _ => rfl, fun _ => rfl, rfl⟩

theorem symm (h : Agree T i j) : Agree T j i :=
  ⟨h.name.symm, fun r => (h.current r).symm, fun r => (h.lastKnown r).symm, h.isTerminated.symm⟩

theorem trans {τ : Type} [Instance τ] {k : τ} (h : Agree T i j) (h' : Agree T j k) : Agree T i k :=
  ⟨h.name.trans h'.name, fun r => (h.current r).trans (h'.current r),
    fun r => (h.lastKnown r).trans (h'.lastKnown r), h.isTerminated.trans h'.isTerminated⟩

variable (h : Agree T i j)
include h

theorem isActive (v : VertexId) : isActive T i v = isActive T j v := by
  unfold Instance.isActive
  rw [funext h.lastKnown]

theorem isComplete (v : VertexId) : isComplete T i v = isComplete T j v := by
  unfold Instance.isComplete isCompleteRegion
  simp only [h.lastKnown]

end Instance.Agree

/-- A relation between runs that holds between equal dealings with two kinds of instances and is
kept by sequencing. Offers are among the dealings if `offers`. -/
structure Run.Uniform (M : Machine σ) (allowed : RegionId → VertexId → Prop) (offers : Prop)
    (Φ : (α : Type) → Run σ ι α → Run σ κ α → Prop) : Prop where
  pure : ∀ {α : Type} (a : α), Φ α (Pure.pure a) (Pure.pure a)
  bind : ∀ {α β : Type} {x : Run σ ι α} {y : Run σ κ α} {f : α → Run σ ι β} {g : α → Run σ κ β},
    Φ α x y → (∀ a, Φ β (f a) (g a)) → Φ β (x >>= f) (y >>= g)
  stop : ∀ {α : Type} (f : Fault), Φ α (Engine.stop f) (Engine.stop f)
  exhausted : ∀ {α : Type}, Φ α Run.exhausted Run.exhausted
  note : ∀ e : Event, e.IsNote → (e.IsOffer → offers) → Φ Unit (Run.record e) (Run.record e)
  act : ∀ (a : Action σ) (trigger : Trigger), Φ Unit (Run.act a trigger) (Run.act a trigger)
  draw : ∀ count, Φ Nat (Run.draw count) (Run.draw count)
  setCurrent : ∀ r v, allowed r v →
    Φ Unit (Run.setCurrent M.topology r v) (Run.setCurrent M.topology r v)
  terminate : Φ Unit Run.terminate Run.terminate
  trace : ∀ line, Φ Unit (Run.trace line) (Run.trace line)
  check : ∀ trigger t, Φ Bool (Run.check M trigger t) (Run.check M trigger t)
  read : ∀ {α : Type} {f : Session σ ι → α} {g : Session σ κ → α},
    (∀ s s', Instance.Agree M.topology s.inst s'.inst → f s = g s') →
      Φ α (Run.read f) (Run.read g)

theorem Run.Uniform.and {M : Machine σ} {allowed : RegionId → VertexId → Prop} {offers : Prop}
    {Φ Ψ : (α : Type) → Run σ ι α → Run σ κ α → Prop}
    (h : Uniform M allowed offers Φ) (h' : Uniform M allowed offers Ψ) :
    Uniform M allowed offers fun α x y => Φ α x y ∧ Ψ α x y where
  pure a := ⟨h.pure a, h'.pure a⟩
  bind hx hf := ⟨h.bind hx.1 fun a => (hf a).1, h'.bind hx.2 fun a => (hf a).2⟩
  stop f := ⟨h.stop f, h'.stop f⟩
  exhausted := ⟨h.exhausted, h'.exhausted⟩
  note e he ho := ⟨h.note e he ho, h'.note e he ho⟩
  act a trigger := ⟨h.act a trigger, h'.act a trigger⟩
  draw count := ⟨h.draw count, h'.draw count⟩
  setCurrent r v hv := ⟨h.setCurrent r v hv, h'.setCurrent r v hv⟩
  terminate := ⟨h.terminate, h'.terminate⟩
  trace line := ⟨h.trace line, h'.trace line⟩
  check trigger t := ⟨h.check trigger t, h'.check trigger t⟩
  read hfg := ⟨h.read hfg, h'.read hfg⟩

/-- A relation that follows from one between equal dealings need only be kept by sequencing. -/
theorem Run.Uniform.weaken {M : Machine σ} {allowed : RegionId → VertexId → Prop} {offers : Prop}
    {Φ Ψ : (α : Type) → Run σ ι α → Run σ κ α → Prop} (h : Uniform M allowed offers Φ)
    (himp : ∀ {α : Type} {x : Run σ ι α} {y : Run σ κ α}, Φ α x y → Ψ α x y)
    (hbind : ∀ {α β : Type} {x : Run σ ι α} {y : Run σ κ α} {f : α → Run σ ι β}
      {g : α → Run σ κ β}, Ψ α x y → (∀ a, Ψ β (f a) (g a)) → Ψ β (x >>= f) (y >>= g)) :
    Uniform M allowed offers Ψ where
  pure a := himp (h.pure a)
  bind := hbind
  stop f := himp (h.stop f)
  exhausted := himp h.exhausted
  note e he ho := himp (h.note e he ho)
  act a trigger := himp (h.act a trigger)
  draw count := himp (h.draw count)
  setCurrent r v hv := himp (h.setCurrent r v hv)
  terminate := himp h.terminate
  trace line := himp (h.trace line)
  check trigger t := himp (h.check trigger t)
  read hfg := himp (h.read hfg)

/-- Each operation of `e` is related to that of `f`, offers to any state if `offers`. -/
structure Engine.Related (M : Machine σ) (allowed : RegionId → VertexId → Prop) (offers : Prop)
    (Φ : (α : Type) → Run σ ι α → Run σ κ α → Prop) (e : Engine σ ι) (f : Engine σ κ) : Prop where
  perform : ∀ step trigger deep, step.Allowed allowed →
    Φ Unit (e.perform step trigger deep) (f.perform step trigger deep)
  offer : offers → ∀ v trigger, Φ Bool (e.offer v trigger) (f.offer v trigger)
  offerCompletion : ∀ v, Φ Unit (Engine.offerCompletion M e v) (Engine.offerCompletion M f v)
  fire : ∀ t trigger, Φ Bool (e.fire t trigger) (f.fire t trigger)
  legs : ∀ t trigger, Φ (List TransitionId) (e.legs t trigger) (f.legs t trigger)

variable {M : Machine σ} {allowed : RegionId → VertexId → Prop} {offers : Prop}
  {Φ : (α : Type) → Run σ ι α → Run σ κ α → Prop}

omit [Instance ι] [Instance κ] in
theorem related_ite {α : Type} {c : Prop} [Decidable c] {x x' : Run σ ι α} {y y' : Run σ κ α}
    (h : Φ α x y) (h' : Φ α x' y') : Φ α (if c then x else x') (if c then y else y') := by
  split
  · exact h
  · exact h'

namespace Run.Uniform

variable (hΦ : Uniform M allowed offers Φ)
include hΦ

theorem discard {α : Type} {x : Run σ ι α} {y : Run σ κ α} (h : Φ α x y) :
    Φ Unit (Functor.discard x) (Functor.discard y) :=
  hΦ.bind h fun _ => hΦ.pure _

theorem say (level : Level) (text : String) : Φ Unit (Run.say level text) (Run.say level text) :=
  hΦ.note _ trivial False.elim

theorem name {α : Type} {f : String → Run σ ι α} {g : String → Run σ κ α}
    (h : ∀ name, Φ α (f name) (g name)) :
    Φ α (Run.read (fun s => Instance.name s.inst) >>= f)
      (Run.read (fun s => Instance.name s.inst) >>= g) :=
  hΦ.bind (hΦ.read fun _ _ h => h.name) h

theorem current (r : RegionId) :
    Φ _ (Run.current M.topology r) (Run.current M.topology r) :=
  hΦ.read fun _ _ h => h.current r

theorem lastKnown (r : RegionId) :
    Φ _ (Run.lastKnown M.topology r) (Run.lastKnown M.topology r) :=
  hΦ.read fun _ _ h => h.lastKnown r

theorem isActive (v : VertexId) :
    Φ _ (Run.isActive M.topology v) (Run.isActive M.topology v) :=
  hΦ.read fun _ _ h => h.isActive v

theorem isComplete (v : VertexId) :
    Φ _ (Run.isComplete M.topology v) (Run.isComplete M.topology v) :=
  hΦ.read fun _ _ h => h.isComplete v

theorem actAll (trigger : Trigger) :
    ∀ as, Φ Unit (Run.actAll trigger as) (Run.actAll trigger as)
  | [] => hΦ.pure _
  | _ :: rest => hΦ.bind (hΦ.act _ _) fun _ => actAll trigger rest

theorem report (f : Fault) : Φ Unit (Engine.report M f) (Engine.report M f) := by
  unfold Engine.report
  cases M.settings.onError with
  | abort => exact hΦ.stop f
  | ignoreAndLog => exact hΦ.bind (hΦ.say _ _) fun _ => hΦ.pure _

theorem passing (trigger : Trigger) :
    ∀ ts, Φ _ (Engine.passing M trigger ts) (Engine.passing M trigger ts)
  | [] => hΦ.pure _
  | _ :: rest => hΦ.bind (hΦ.check _ _) fun _ => hΦ.bind (passing trigger rest) fun _ => hΦ.pure _

theorem pick (v : VertexId) (trigger : Trigger) (branches : List TransitionId) :
    Φ _ (Engine.pick M v trigger branches) (Engine.pick M v trigger branches) := by
  refine related_ite ?_ ?_
  · cases branches with
    | nil => exact hΦ.pure _
    | cons t ts => exact hΦ.bind (hΦ.draw _) fun _ => hΦ.pure _
  · match branches with
    | [] | [_] => exact hΦ.pure _
    | _ :: _ :: _ => exact hΦ.bind (hΦ.report _) fun _ => hΦ.pure _

theorem branch (v : VertexId) (trigger : Trigger) :
    Φ _ (Engine.branch M v trigger) (Engine.branch M v trigger) := by
  refine hΦ.bind (hΦ.passing _ _) fun _ => hΦ.bind (hΦ.pick _ _ _) fun t => ?_
  cases t with
  | some t => exact hΦ.pure _
  | none =>
    dsimp only
    split
    · exact hΦ.pure _
    · exact hΦ.stop _

theorem announce (verb : String) (e : Element) :
    Φ _ (Engine.announce M verb e) (Engine.announce M verb e) :=
  hΦ.name fun _ => hΦ.bind (hΦ.say _ _) fun _ => hΦ.trace _

theorem historyState (v : VertexId) (deep : Bool) :
    Φ _ (Engine.historyState M v deep) (Engine.historyState M v deep) := by
  unfold Engine.historyState
  split
  · exact related_ite (hΦ.lastKnown _) (hΦ.pure _)
  · exact hΦ.pure _

end Run.Uniform

namespace Engine.Related

open Engine

variable {P : Program σ} {e : Engine σ ι} {f : Engine σ κ} (hΦ : Run.Uniform M allowed offers Φ)
  (hP : P.All (Step.Allowed allowed)) (h : e.Related M allowed offers Φ f)

section

include hΦ h

theorem performAll (trigger : Trigger) (deep : Bool) :
    ∀ steps, (∀ step ∈ steps, step.Allowed allowed) →
      Φ Unit (e.performAll trigger deep steps) (f.performAll trigger deep steps)
  | [], _ => hΦ.pure _
  | step :: rest, hs => hΦ.bind (h.perform _ _ _ (hs step List.mem_cons_self)) fun _ =>
      performAll trigger deep rest fun step hm => hs step (List.mem_cons_of_mem _ hm)

theorem legsFrom (t : TransitionId) (trigger : Trigger) :
    Φ _ (legsFrom M e t trigger) (legsFrom M f t trigger) := by
  unfold Engine.legsFrom
  split
  · exact related_ite (hΦ.bind (hΦ.branch _ _) fun _ => hΦ.bind (h.legs _ _) fun _ => hΦ.pure _)
      (hΦ.pure _)
  · exact hΦ.pure _

theorem leadOn (trigger : Trigger) (target : VertexId) :
    Φ _ (leadOn M e trigger target) (leadOn M f trigger target) :=
  related_ite (hΦ.bind (hΦ.branch _ _) fun _ => hΦ.discard (h.fire _ _))
    (related_ite (h.offerCompletion _) (hΦ.pure _))

section

variable (ho : offers)
include ho

theorem offerRegions (state : VertexId) (trigger : Trigger) :
    ∀ rs, Φ _ (offerRegions M e state trigger rs) (offerRegions M f state trigger rs)
  | [] => hΦ.pure _
  | r :: rest => by
    refine hΦ.bind (hΦ.lastKnown _) fun v => ?_
    cases v with
    | none => exact offerRegions state trigger rest
    | some v =>
      exact hΦ.bind (h.offer ho _ _) fun _ => related_ite
        (hΦ.bind (hΦ.isActive _) fun _ => related_ite
          (hΦ.bind (offerRegions state trigger rest) fun _ => hΦ.pure _) (hΦ.pure _))
        (offerRegions state trigger rest)

theorem offerBeneath (state : VertexId) (trigger : Trigger) :
    Φ _ (offerBeneath M e state trigger) (offerBeneath M f state trigger) :=
  related_ite (hΦ.pure _) (offerRegions hΦ h ho state trigger _)

theorem takeOnly (state : VertexId) (trigger : Trigger) :
    ∀ ts, Φ _ (takeOnly M e state trigger ts) (takeOnly M f state trigger ts)
  | [] => hΦ.pure _
  | [_] => hΦ.bind (hΦ.note _ trivial fun _ => ho) fun _ => h.fire _ _
  | _ :: _ :: _ => hΦ.bind (hΦ.report _) fun _ => hΦ.pure _

theorem offerState (state : VertexId) (trigger : Trigger) :
    Φ _ (offerState M e state trigger) (offerState M f state trigger) :=
  hΦ.bind (hΦ.note _ trivial fun _ => ho) fun _ =>
    hΦ.bind (offerBeneath hΦ h ho _ _) fun _ => related_ite
      (hΦ.bind (h.offerCompletion _) fun _ => hΦ.pure _)
      (hΦ.bind (hΦ.passing _ _) fun _ => takeOnly hΦ h ho _ _ _)

end

end

section

include hΦ hP h

theorem enterElement (x : Element) (trigger : Trigger) (deep : Bool) :
    Φ _ (enterElement P e x trigger deep) (enterElement P f x trigger deep) :=
  hΦ.bind (performAll hΦ h _ _ _ (hP.beginEnter _)) fun _ =>
    performAll hΦ h _ _ _ (hP.endEnter _)

theorem leaveCurrent (r : RegionId) (trigger : Trigger) :
    Φ _ (leaveCurrent M P e r trigger) (leaveCurrent M P f r trigger) := by
  refine hΦ.bind (hΦ.current _) fun v => ?_
  cases v with
  | none => exact hΦ.pure _
  | some v => exact performAll hΦ h _ _ _ (hP.leave _)

theorem enterRegion (r : RegionId) (initial : Option VertexId) (trigger : Trigger) (deep : Bool) :
    Φ _ (enterRegion M P e r initial trigger deep) (enterRegion M P f r initial trigger deep) := by
  refine hΦ.bind (hΦ.lastKnown _) fun _ => ?_
  split
  · exact enterElement hΦ hP h _ _ _
  · exact related_ite (hΦ.pure _) (hΦ.say _ _)

theorem resume (v : VertexId) (trigger : Trigger) (deep : Bool) :
    Φ _ (resume M P e v trigger deep) (resume M P f v trigger deep) := by
  refine hΦ.bind (hΦ.historyState _ _) fun state => ?_
  split
  · exact hΦ.bind (performAll hΦ h _ _ _ (hP.leave _)) fun _ => enterElement hΦ hP h _ _ _
  · split
    · exact hΦ.discard (h.fire _ _)
    · exact hΦ.stop _

theorem traverseWithin (t : TransitionId) (trigger : Trigger) :
    Φ _ (traverseWithin M P e t trigger) (traverseWithin M P f t trigger) := by
  unfold Engine.traverseWithin
  dsimp only
  split
  · exact hΦ.stop _
  · refine hΦ.bind (hΦ.read fun s s' h => ?_) fun _ => ?_
    · exact congrArg (List.takeWhile · _) (funext h.isActive)
    · split
      · exact hΦ.stop _
      · exact hΦ.bind (leaveCurrent hΦ hP h _ _) fun _ => hΦ.bind (hΦ.actAll _ _) fun _ =>
          hΦ.bind (performAll hΦ h _ _ _ (hP.cascade _ _)) fun _ =>
            performAll hΦ h _ _ _ (hP.endEnter _)

theorem performStep (step : Step σ) (trigger : Trigger) (deep : Bool)
    (hs : step.Allowed allowed) :
    Φ _ (performStep M P e step trigger deep) (performStep M P f step trigger deep) := by
  cases step with
  | enter x | leave x => exact hΦ.bind (hΦ.note _ trivial False.elim) fun _ => hΦ.announce _ _
  | setCurrent r v => exact hΦ.setCurrent r v hs
  | behavior a => exact hΦ.act a trigger
  | leaveActive r => exact leaveCurrent hΦ hP h _ _
  | enterRegion r initial => exact enterRegion hΦ hP h _ _ _ _
  | resume v => exact resume hΦ hP h _ _ _
  | terminate => exact hΦ.terminate
  | completeInternal v => exact related_ite (h.offerCompletion _) (hΦ.pure _)
  | traverseWithin t => exact traverseWithin hΦ hP h _ _

theorem traverseAll (trigger : Trigger) :
    ∀ ts, Φ _ (traverseAll P e trigger ts) (traverseAll P f trigger ts)
  | [] => hΦ.pure _
  | _ :: rest => hΦ.bind (hΦ.note _ trivial False.elim) fun _ =>
      hΦ.bind (performAll hΦ h _ _ _ (hP.traversal _)) fun _ => traverseAll trigger rest

theorem fireTransition (t : TransitionId) (trigger : Trigger) :
    Φ _ (fireTransition M P e t trigger) (fireTransition M P f t trigger) := by
  refine hΦ.bind (h.legs _ _) fun _ => hΦ.bind (traverseAll hΦ hP h _ _) fun _ => ?_
  split
  · exact hΦ.pure _
  · exact hΦ.bind (leadOn hΦ h _ _) fun _ => hΦ.pure _

end

end Engine.Related

theorem Run.Uniform.offerCompletion (hΦ : Uniform M allowed offers Φ) {e : Engine σ ι}
    {f : Engine σ κ} {v : VertexId}
    (h : Φ Bool (e.offer v (.completion v)) (f.offer v (.completion v))) :
    Φ Unit (Engine.offerCompletion M e v) (Engine.offerCompletion M f v) :=
  hΦ.bind (hΦ.isComplete v) fun _ => related_ite (hΦ.discard h) (hΦ.pure _)

namespace Engine.Related

variable {P : Program σ} (hΦ : Run.Uniform M allowed offers Φ)
include hΦ

theorem zero : (engine M P 0).Related M allowed offers Φ (engine M P 0) where
  perform _ _ _ _ := hΦ.exhausted
  offer _ _ _ := hΦ.exhausted
  offerCompletion _ := hΦ.offerCompletion hΦ.exhausted
  fire _ _ := hΦ.exhausted
  legs _ _ := hΦ.exhausted

theorem succ (hP : P.All (Step.Allowed allowed)) {n : Nat}
    (h : (engine M P n).Related M allowed offers Φ (engine M P n))
    (hoffer : offers → ∀ v trigger, Φ Bool ((engine M P (n + 1)).offer v trigger)
      ((engine M P (n + 1)).offer v trigger))
    (hcompletion : ∀ v, Φ Unit (Engine.offerCompletion M (engine M P (n + 1)) v)
      (Engine.offerCompletion M (engine M P (n + 1)) v)) :
    (engine M P (n + 1)).Related M allowed offers Φ (engine M P (n + 1)) where
  perform := performStep hΦ hP h
  offer := hoffer
  offerCompletion := hcompletion
  fire := fireTransition hΦ hP h
  legs := legsFrom hΦ h

end Engine.Related

/-- What holds between equal dealings with two kinds of instances holds between the engines over
them. -/
theorem engine_related {P : Program σ} (hΦ : Run.Uniform M allowed offers Φ)
    (hP : P.All (Step.Allowed allowed)) (ho : offers) :
    ∀ n, (engine M P n).Related M allowed offers Φ (engine M P n)
  | 0 => .zero hΦ
  | n + 1 =>
    have h := engine_related hΦ hP ho n
    have hoffer := Engine.Related.offerState hΦ h ho
    .succ hΦ hP h (fun _ => hoffer) fun v => hΦ.offerCompletion (hoffer v _)

/-- Of offers the operations of the engine make only those of completions by themselves, so only
these need to be related. -/
theorem engine_related_completions {P : Program σ} (hΦ : Run.Uniform M allowed False Φ)
    (hP : P.All (Step.Allowed allowed))
    (hoffered : ∀ v, Φ Unit (Run.record (.offered v (.completion v)))
      (Run.record (.offered v (.completion v))))
    (hselected : ∀ v t, Φ Unit (Run.record (.selected v t (.completion v)))
      (Run.record (.selected v t (.completion v)))) :
    ∀ n, (engine M P n).Related M allowed False Φ (engine M P n)
  | 0 => .zero hΦ
  | n + 1 => by
    have h := engine_related_completions hΦ hP hoffered hselected n
    refine .succ hΦ hP h False.elim fun v => hΦ.offerCompletion <|
      hΦ.bind (hoffered v) fun _ => hΦ.bind ?_ fun taken => related_ite
        (hΦ.bind (h.offerCompletion v) fun _ => hΦ.pure _)
        (hΦ.bind (hΦ.passing _ _) fun ts => ?_)
    · unfold Engine.offerBeneath
      rw [if_pos (c := Trigger.isCompletionOf v (.completion v)) (decide_eq_true rfl),
        if_pos (c := Trigger.isCompletionOf v (.completion v)) (decide_eq_true rfl)]
      exact hΦ.pure _
    · match ts with
      | [] => exact hΦ.pure _
      | [t] => exact hΦ.bind (hselected v t) fun _ => h.fire t _
      | _ :: _ :: _ => exact hΦ.bind (hΦ.report _) fun _ => hΦ.pure _

/-! ## Calls -/

section

variable {P : Program σ} (hΦ : Run.Uniform M allowed offers Φ) {depth : Nat}
  (h : (engine M P depth).Related M allowed offers Φ (engine M P depth))
include hΦ h

theorem startRun_related (hi : ∀ step ∈ P.onInitialise, step.Allowed allowed) :
    Φ Unit (M.startRun depth P) (M.startRun depth P) :=
  hΦ.name fun _ => hΦ.bind (hΦ.say _ _) fun _ => Engine.Related.performAll hΦ h _ _ _ hi

theorem evaluateRun_related (ho : offers) (message : String) :
    Φ Bool (M.evaluateRun depth message P) (M.evaluateRun depth message P) :=
  hΦ.name fun _ => hΦ.bind (hΦ.say _ _) fun _ => hΦ.bind (hΦ.trace _) fun _ =>
    hΦ.bind (hΦ.read fun _ _ h => h.isTerminated) fun _ => related_ite (hΦ.pure _)
      (h.offer ho _ _)

end

end

end Hsm
