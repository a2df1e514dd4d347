import Hsm.Instance.Table
import Hsm.Instance.Tree
import Hsm.Proofs.Engine.Trail
import Hsm.Proofs.Machine.Calls

/-!
# What the answer of an evaluation means

An evaluation answers whether a transition was taken. If it says no, it has asked guards and told
of faults, and all is as before but for the line that announces it. If it says yes, the steps of
some transition have run: the answer of a state comes from a transition that it took itself, or
from the answer of a state beneath it (`engine_offer_fires`).
-/

namespace Hsm

variable {σ ι : Type}

/-- On the way from `s` to `s'` the steps of a transition ran. -/
def Session.Fired (s s' : Session σ ι) : Prop :=
  ∃ es t, s'.trail = es ++ s.trail ∧ .traversed t ∈ es

namespace Run

/-- An end with a value of which `p` holds comes after a transition has run. -/
def Fires {α : Type} (p : α → Prop) (x : Run σ ι α) : Prop :=
  ∀ s a, (x s).1 = .value a → p a → s.Fired (x s).2

end Run

section

variable [Instance ι] {T : Topology} {s s' s'' : Session σ ι}

theorem Session.Fired.before {q : Event → Prop} (h : s.Leads T q s') (h' : s'.Fired s'') :
    s.Fired s'' := by
  obtain ⟨es, ht, -, -⟩ := h
  obtain ⟨es', t, ht', hmem⟩ := h'
  exact ⟨es' ++ es, t, by rw [ht', ht, List.append_assoc], List.mem_append_left _ hmem⟩

theorem Session.Fired.after {q : Event → Prop} (h : s.Fired s') (h' : s'.Leads T q s'') :
    s.Fired s'' := by
  obtain ⟨es, t, ht, hmem⟩ := h
  obtain ⟨es', ht', -, -⟩ := h'
  exact ⟨es' ++ es, t, by rw [ht', ht, List.append_assoc], List.mem_append_right _ hmem⟩

namespace Run.Fires

variable {α β : Type} {p : β → Prop} {q : Event → Prop}

theorem bind {x : Run σ ι α} {f : α → Run σ ι β} (hx : x.Adds T q)
    (hf : ∀ a s, (x s).1 = .value a → (f a).Fires p) : (x >>= f).Fires p := fun s b h hb => by
  obtain ⟨a, ha, h, hs⟩ := bind_value h
  rw [hs]
  exact .before (hx s) (hf a s ha _ b h hb)

/-- The value of the first part decides which part has run a transition. -/
theorem bind_or {r : α → Prop} {x : Run σ ι α} {f : α → Run σ ι β} (hx : x.Adds T q)
    (hr : x.Fires r) (hf : ∀ a, (f a).Adds T q) (hn : ∀ a, ¬ r a → (f a).Fires p) :
    (x >>= f).Fires p := fun s b h hb => by
  obtain ⟨a, ha, h, hs⟩ := bind_value h
  rw [hs]
  by_cases hra : r a
  · exact (hr s a ha hra).after (hf a _)
  · exact .before (hx s) (hn a hra _ b h hb)

omit [Instance ι] in
theorem pure_false : (Pure.pure false : Run σ ι Bool).Fires (· = true) :=
  fun _ _ h hb => by cases h; cases hb

end Run.Fires

variable {M : Machine σ} {P : Program σ}

/-- Whatever the operations do, they only add to the trail. -/
abbrev Engine.Grows (M : Machine σ) (e : Engine σ ι) : Prop :=
  e.Related M (fun _ _ => True) True (fun _ x _ => x.Adds M.topology fun _ => True) e

theorem grows_uniform : Run.Uniform (ι := ι) (κ := ι) M (fun _ _ => True) True
    (fun _ x _ => x.Adds M.topology fun _ => True) :=
  adds_uniform fun _ _ => trivial

theorem engine_grows (n : Nat) : (engine (ι := ι) M P n).Grows M :=
  engine_related grows_uniform P.all_allowed trivial n

theorem traverseAll_fires {e : Engine σ ι} (he : e.Grows M) (trigger : Trigger)
    {ts : List TransitionId} (hts : ts ≠ []) :
    (Engine.traverseAll P e trigger ts).Fires fun _ => True := by
  obtain ⟨t, rest, rfl⟩ := List.exists_cons_of_ne_nil hts
  have hall := Engine.Related.traverseAll grows_uniform P.all_allowed he trigger rest
  have hperform := Engine.Related.performAll grows_uniform he trigger false (P.traversal t)
    (P.all_allowed.traversal t)
  exact .bind_or (.note trivial trivial) (fun s _ _ _ => ⟨[.traversed t], t, rfl, .head _⟩)
    (fun _ => hperform.bind fun _ => hall) fun _ h => absurd trivial h

/-- A transition consists of one leg at least, and its steps run. -/
theorem engine_fire_fires : ∀ (n : Nat) (t : TransitionId) (trigger : Trigger),
    ((engine (ι := ι) M P n).fire t trigger).Fires fun _ => True
  | 0, _, _ => fun _ _ h => by cases h
  | n + 1, t, trigger => by
    have he := engine_grows (ι := ι) (M := M) (P := P) n
    refine .bind (he.legs t trigger) fun legs s hl => ?_
    have hne : legs ≠ [] := by
      rcases engine_legs hl with _ | _ <;> exact List.cons_ne_nil _ _
    refine .bind_or (Engine.Related.traverseAll grows_uniform P.all_allowed he trigger legs)
      (traverseAll_fires he trigger hne) (fun _ => ?_) fun _ h => absurd trivial h
    split
    · exact .pure _
    · exact (Engine.Related.leadOn grows_uniform he trigger _).bind fun _ => .pure _

section

variable {e : Engine σ ι} {trigger : Trigger} (he : e.Grows M)
  (hfires : ∀ v, (e.offer v trigger).Fires (· = true))
include he hfires

theorem offerRegions_fires (state : VertexId) :
    ∀ rs, (Engine.offerRegions M e state trigger rs).Fires (· = true)
  | [] => .pure_false
  | r :: rest => by
    have hrest := Engine.Related.offerRegions grows_uniform he trivial state trigger rest
    refine .bind (Run.Adds.read (T := M.topology) (q := fun _ => True) _) fun v _ _ => ?_
    cases v with
    | none => exact offerRegions_fires state rest
    | some v =>
      refine .bind_or (he.offer trivial v trigger) (hfires v) (fun b => ?_) fun b hb => ?_
      · split
        · refine (Run.Adds.read _).bind fun _ => ?_
          split
          · exact hrest.bind fun _ => .pure _
          · exact .pure _
        · exact hrest
      · rw [if_neg hb]
        exact offerRegions_fires state rest

theorem offerBeneath_fires (state : VertexId) :
    (Engine.offerBeneath M e state trigger).Fires (· = true) := by
  unfold Engine.offerBeneath
  split
  · exact .pure_false
  · exact offerRegions_fires he hfires state _

end

/-- A positive answer comes after a transition has run. -/
theorem engine_offer_fires : ∀ (n : Nat) (v : VertexId) (trigger : Trigger),
    ((engine (ι := ι) M P n).offer v trigger).Fires (· = true)
  | 0, _, _ => fun _ _ h => by cases h
  | n + 1, v, trigger => by
    have he := engine_grows (ι := ι) (M := M) (P := P) n
    have hbeneath := Engine.Related.offerBeneath grows_uniform he trivial v trigger
    refine .bind (Run.Adds.note (T := M.topology) (q := fun _ => True) trivial trivial)
      fun _ _ _ => .bind_or hbeneath
        (offerBeneath_fires he (fun w => engine_offer_fires n w trigger) v) (fun b => ?_)
        fun b hb => ?_
    · split
      · exact (he.offerCompletion v).bind fun _ => .pure _
      · exact ((Run.Adds.passing trigger _).mono fun _ _ => trivial).bind fun ts =>
          Engine.Related.takeOnly grows_uniform he trivial v trigger ts
    · rw [if_neg hb]
      refine .bind (.passing trigger _) fun ts _ _ => ?_
      match ts with
      | [] => exact .pure_false
      | [t] =>
        refine .bind (Run.Adds.note (T := M.topology) (q := fun _ => True) trivial trivial)
          fun _ _ _ s b h _ => engine_fire_fires n t trigger s b h trivial
      | _ :: _ :: _ => exact .bind (.report _) fun _ _ _ => .pure_false

/-! ## Evaluations -/

/-- The session of an evaluation that has announced itself and asked nothing yet. -/
def Session.announced (s : Session σ ι) (line : String) : Session σ ι :=
  { s with
    inst := Instance.trace line s.inst
    trail := .traced line :: .message .debug (Instance.name s.inst ++ " " ++ line) :: s.trail }

theorem evaluateRun_eq (depth : Nat) (message : String) (s : Session σ ι) :
    M.evaluateRun depth message P s =
      (if Instance.isTerminated (s.announced ("evaluate " ++ Text.quoted message)).inst
        then pure false else (engine M P depth).offer Topology.root (.message message) :
        Run σ ι Bool) (s.announced ("evaluate " ++ Text.quoted message)) :=
  rfl

theorem evaluateRun_declines {depth : Nat} {message : String} {s : Session σ ι}
    (h : (M.evaluateRun depth message P s).1 = .value false) :
    (s.announced ("evaluate " ++ Text.quoted message)).Asks
      (M.evaluateRun depth message P s).2 := by
  rw [evaluateRun_eq] at h ⊢
  split at h <;> rename_i hterm
  · rw [if_pos hterm]
    exact .refl _
  · rw [if_neg hterm]
    exact engine_offer_declines depth _ _ _ h

theorem evaluateRun_fires (depth : Nat) (message : String) :
    (M.evaluateRun depth message P : Run σ ι Bool).Fires (· = true) := by
  intro s b h hb
  have hann : s.Leads M.topology (fun _ => True)
      (s.announced ("evaluate " ++ Text.quoted message)) :=
    ⟨[_, _], rfl, fun _ _ => trivial, rfl⟩
  rw [evaluateRun_eq] at h ⊢
  refine .before hann ?_
  split at h <;> rename_i hterm
  · exact absurd (Result.value.inj h) (hb ▸ Bool.false_ne_true)
  · rw [if_neg hterm]
    exact engine_offer_fires depth _ _ _ b h hb

end

/-- Instances to which a traced line makes no difference that the engine could see. -/
class Instance.Tracing (ι : Type) [Instance ι] : Prop where
  agree : ∀ (T : Topology) (line : String) (i : ι), Agree T (trace line i) i

instance : Instance.Tracing TableInstance where
  agree _ _ _ := ⟨rfl, fun _ => rfl, fun _ => rfl, rfl⟩

instance : Instance.Tracing TreeInstance where
  agree _ _ _ := ⟨rfl, fun _ => rfl, fun _ => rfl, rfl⟩

/-- The outcome of an evaluation that announced itself, asked guards and told of faults. -/
structure Outcome.Unmoved [Instance ι] (M : Machine σ) (env : σ) (i : ι) (line : String)
    (o : Outcome σ ι Bool) : Prop where
  env : o.env = env
  machine : o.machine = M
  inst : o.inst = Instance.trace line i
  agree : Instance.Agree M.topology o.inst i
  events : ∃ es, o.events = .message .debug (Instance.name i ++ " " ++ line) :: .traced line :: es
    ∧ ∀ e ∈ es, e.Idle

/-- If an evaluation answers no, it has changed nothing but for tracing its own line; if it answers
yes, the steps of some transition have run. -/
theorem evaluateCompiled_answer [Instance ι] [Instance.Tracing ι] (M : Machine σ) (depth : Nat)
    (env : σ) (i : ι) (message : String) :
    ((M.evaluateCompiled depth env i message).result = .value false →
      (M.evaluateCompiled depth env i message).Unmoved M env i
        ("evaluate " ++ Text.quoted message)) ∧
    ((M.evaluateCompiled depth env i message).result = .value true →
      ∃ t, .traversed t ∈ (M.evaluateCompiled depth env i message).events) := by
  unfold Machine.evaluateCompiled Machine.executeCompiled
  split
  case h_2 => exact ⟨nofun, nofun⟩
  case h_1 P hc hP =>
    refine ⟨fun h => ?_, fun h => ?_⟩
    · have hasks := evaluateRun_declines h
      obtain ⟨es, ht, hes⟩ := hasks.trail
      have hmachine : (M.execute env i (M.evaluateRun depth message P)).machine = M :=
        congrArg (fun source => { M with settings.source := source }) hasks.source
      have hinst : (M.execute env i (M.evaluateRun depth message P)).inst =
          Instance.trace ("evaluate " ++ Text.quoted message) i := hasks.inst
      refine ⟨hasks.env, hmachine, hinst, hinst ▸ Instance.Tracing.agree M.topology _ i,
        es.reverse, ?_, fun e he => hes e (List.mem_reverse.1 he)⟩
      exact (congrArg List.reverse ht).trans (by simp [Session.announced])
    · obtain ⟨es, t, ht, hmem⟩ := evaluateRun_fires depth message _ _ h rfl
      exact ⟨t, List.mem_reverse.2 (ht ▸ List.mem_append_left _ hmem)⟩

/-- A door that opens when it is knocked at. -/
def door : Machine Unit := .build "m" {} [
  .addVertex "i" (.state ⟨0⟩) (.pseudo .initial), .addVertex "shut" (.state ⟨0⟩) .state,
  .addVertex "open" (.state ⟨0⟩) .state, .addTransition ⟨1⟩ (some ⟨2⟩),
  .addTransition ⟨2⟩ (some ⟨3⟩),
  .modifyTransition ⟨1⟩ fun t => { t with guard := .on "knock" }]

theorem door_answer :
    let shut := door.start 9 () (⟨"i", {}, {}, false⟩ : TableInstance)
    let ring := shut.machine.evaluateCompiled 9 () shut.inst "ring"
    let knock := shut.machine.evaluateCompiled 9 () shut.inst "knock"
    (ring.result = .value false ∧ ring.Unmoved shut.machine () shut.inst "evaluate \"ring\"") ∧
      knock.result = .value true ∧ ∃ t, .traversed t ∈ knock.events :=
  ⟨⟨by decide +kernel, (evaluateCompiled_answer _ 9 () _ "ring").1 (by decide +kernel)⟩,
    by decide +kernel, (evaluateCompiled_answer _ 9 () _ "knock").2 (by decide +kernel)⟩

end Hsm
