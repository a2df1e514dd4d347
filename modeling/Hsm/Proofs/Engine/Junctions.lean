import Hsm.Instance.Table
import Hsm.Proofs.Engine.Spec
import Hsm.Proofs.Engine.Trail
import Hsm.Proofs.Machine.Reachable
import Mathlib.Data.List.Nodup

/-!
# Chains of junctions

A transition that leads to a junction goes on along a branch of it, and so from junction to
junction. All branches are chosen before any leg runs, by guards that are asked about the one
environment and instance there are at the beginning (`Machine.Chain`). A junction that leaves no
branch to take ends the transition there, with nothing done; otherwise the legs run in the order of
the chain, and no leg twice, since a chain that came back to a leg would not end
(`fire_along_chain`).
-/

namespace Hsm

variable {σ ι : Type}

/-! ## The chain -/

/-- The junction that the transition leads to. -/
def Topology.junctionAfter (T : Topology) (t : TransitionId) : Option VertexId :=
  (T.transition t).target.filter fun v => T.pseudoKind? v = some .junction

namespace Machine

variable (M : Machine σ) (context : GuardContext σ) (trigger : Trigger)

/-- The branches of a junction that are open, in the order in which they were added. -/
def openBranches (v : VertexId) : List TransitionId :=
  (M.topology.vertex v).outgoing.filter fun t => ((M.guard t).check trigger context).holds

/-- The branch that is taken at a junction, or the fault that ends the transition there. -/
def junctionBranch (v : VertexId) : Except Fault TransitionId :=
  match M.openBranches context trigger v, M.settings.onError with
  | _ :: _ :: _, .abort =>
    .error (.ambiguousJunction (M.topology.qualifiedName (.vertex v)) trigger.text)
  | t :: _, _ => .ok t
  | [], _ =>
    match (M.topology.vertex v).outgoing.find? fun t => (M.guard t).isOtherwise with
    | some t => .ok t
    | none => .error (.noEligibleTransition (M.topology.qualifiedName (.vertex v)) trigger.text)

/-- The chain from `t` ends, with these legs and perhaps with a fault at the last junction. -/
inductive Chain : TransitionId → List TransitionId → Option Fault → Prop
  | last {t : TransitionId} (ht : M.topology.junctionAfter t = none) : Chain t [t] none
  | broken {t : TransitionId} {v : VertexId} {f : Fault}
      (ht : M.topology.junctionAfter t = some v)
      (hv : M.junctionBranch context trigger v = .error f) : Chain t [t] (some f)
  | next {t u : TransitionId} {v : VertexId} {legs : List TransitionId} {fault : Option Fault}
      (ht : M.topology.junctionAfter t = some v)
      (hv : M.junctionBranch context trigger v = .ok u) (hu : Chain u legs fault) :
      Chain t (t :: legs) fault

namespace Chain

variable {M : Machine σ} {context : GuardContext σ} {trigger : Trigger} {t u : TransitionId}
  {legs legs' : List TransitionId} {fault fault' : Option Fault}

theorem unique (h : M.Chain context trigger t legs fault)
    (h' : M.Chain context trigger t legs' fault') : legs = legs' := by
  induction h generalizing legs' with
  | last ht =>
    cases h' with
    | last _ => rfl
    | broken ht' _ | next ht' _ _ => exact absurd (ht.symm.trans ht') (Option.some_ne_none _).symm
  | broken ht hv =>
    cases h' with
    | broken _ _ => rfl
    | last ht' => exact absurd (ht'.symm.trans ht) (Option.some_ne_none _).symm
    | next ht' hv' _ =>
      obtain rfl := Option.some.inj (ht.symm.trans ht')
      cases hv.symm.trans hv'
  | next ht hv _ ih =>
    cases h' with
    | last ht' => exact absurd (ht'.symm.trans ht) (Option.some_ne_none _).symm
    | broken ht' hv' =>
      obtain rfl := Option.some.inj (ht.symm.trans ht')
      cases hv.symm.trans hv'
    | next ht' hv' hu' =>
      obtain rfl := Option.some.inj (ht.symm.trans ht')
      obtain rfl := Except.ok.inj (hv.symm.trans hv')
      rw [ih hu']

/-- From each of its legs the chain goes on as it does. -/
theorem of_mem (h : M.Chain context trigger t legs fault) (hu : u ∈ legs) :
    ∃ before after, legs = before ++ after ∧ M.Chain context trigger u after fault := by
  induction h with
  | last ht =>
    obtain rfl := List.mem_singleton.1 hu
    exact ⟨[], _, rfl, .last ht⟩
  | broken ht hv =>
    obtain rfl := List.mem_singleton.1 hu
    exact ⟨[], _, rfl, .broken ht hv⟩
  | @next t w v legs fault ht hv h ih =>
    rcases List.mem_cons.1 hu with rfl | hu
    · exact ⟨[], _, rfl, .next ht hv h⟩
    · obtain ⟨before, after, hlegs, hafter⟩ := ih hu
      exact ⟨t :: before, after, congrArg (t :: ·) hlegs, hafter⟩

theorem nodup (h : M.Chain context trigger t legs fault) : legs.Nodup := by
  induction h with
  | last _ | broken _ _ => exact List.nodup_singleton _
  | @next t u v legs fault ht hv h ih =>
    refine List.nodup_cons.2 ⟨fun hmem => ?_, ih⟩
    obtain ⟨before, after, hlegs, hafter⟩ := h.of_mem hmem
    have hlength := congrArg List.length ((Chain.next ht hv h).unique hafter)
    rw [hlegs, List.length_cons, List.length_append] at hlength
    omega

end Chain

end Machine

/-! ## Choosing the legs -/

section

variable [Instance ι] {M : Machine σ} {trigger : Trigger}

/-- What guards are asked about. -/
def Session.guardContext (M : Machine σ) (s : Session σ ι) : GuardContext σ :=
  ⟨s.env, M.topology, fun r => Instance.lastKnown M.topology r s.inst⟩

theorem Session.Asks.guardContext_eq {s s' : Session σ ι} (h : s.Asks s') :
    s'.guardContext M = s.guardContext M := by
  unfold guardContext
  rw [h.env, h.inst]

/-- How a run ends that chooses, or finds a fault. -/
def Result.ofExcept {α : Type} : Except Fault α → Result α
  | .ok a => .value a
  | .error f => .failed (.fault f)

variable (trigger) in
theorem passing_eq : ∀ (ts : List TransitionId) (s : Session σ ι),
    (Engine.passing M trigger ts s).1 =
      .value (ts.filter fun t => ((M.guard t).check trigger (s.guardContext M)).holds)
  | [], _ => rfl
  | t :: ts, s => by
    let asked := (Run.check M trigger t s).2
    have hrest : (Engine.passing M trigger ts asked).1 = .value (ts.filter fun t =>
        ((M.guard t).check trigger (s.guardContext M)).holds) := passing_eq ts asked
    have hcons : (Engine.passing M trigger (t :: ts) s).1 =
        ((Engine.passing M trigger ts >>= fun others => pure
          (if ((M.guard t).check trigger (s.guardContext M)).holds then t :: others else others) :
          Run σ ι _) asked).1 := rfl
    rcases hp : Engine.passing M trigger ts asked with ⟨r, s'⟩
    rw [hp] at hrest
    subst hrest
    rw [hcons, Run.bind_of_value hp, List.filter_cons]
    rfl

variable (trigger) in
/-- At a junction questions are asked, and then a branch is taken, or a fault found. -/
theorem branch_junction {v : VertexId} (hv : M.topology.pseudoKind? v = some .junction)
    (s : Session σ ι) : ∃ s', s.Asks s' ∧ Engine.branch M v trigger s =
      (.ofExcept (M.junctionBranch (s.guardContext M) trigger v), s') := by
  have hasks := Run.Asks.passing (M := M) trigger (M.topology.vertex v).outgoing s
  have hvalue := passing_eq (M := M) trigger (M.topology.vertex v).outgoing s
  rcases hp : Engine.passing M trigger (M.topology.vertex v).outgoing s with ⟨r, asked⟩
  rw [hp] at hasks hvalue
  obtain rfl : r = .value (M.openBranches (s.guardContext M) trigger v) := hvalue
  have hpick : Engine.pick (ι := ι) M v trigger = Engine.pickJunction M v trigger := by
    funext branches
    rw [Engine.pick, hv, if_neg (by decide)]
  let told (f : Fault) : Session σ ι :=
    { asked with trail := .message .error f.message :: asked.trail }
  have htold : ∀ f, s.Asks (told f) := fun f =>
    hasks.trans (Run.Asks.record (e := .message .error f.message) trivial asked)
  unfold Engine.branch
  rw [Run.bind_of_value hp, hpick, Machine.junctionBranch]
  rcases M.openBranches (s.guardContext M) trigger v with _ | ⟨t, _ | ⟨u, rest⟩⟩
  case nil =>
    rw [Run.bind_of_value (show Engine.pickJunction M v trigger [] asked = (.value none, asked) from rfl)]
    cases (M.topology.vertex v).outgoing.find? fun t => (M.guard t).isOtherwise with
    | none => exact ⟨told _, htold _, rfl⟩
    | some t => exact ⟨asked, hasks, rfl⟩
  case cons.nil => exact ⟨asked, hasks, rfl⟩
  case cons.cons =>
    have hpicked : Engine.pickJunction M v trigger (t :: u :: rest) =
        Engine.report M (.ambiguousJunction (M.topology.qualifiedName (.vertex v)) trigger.text) >>=
          fun _ => (pure (some t) : Run σ ι _) := rfl
    rw [hpicked, Run.bind_assoc]
    unfold Engine.report
    cases M.settings.onError with
    | abort => exact ⟨told _, htold _, rfl⟩
    | ignoreAndLog => exact ⟨told _, htold _, rfl⟩

/-! ## The whole transition -/

variable (M) in
/-- What follows when the last leg has run. -/
def Engine.arrive (below : Engine σ ι) (trigger : Trigger) (last : TransitionId) : Run σ ι Bool :=
  match (M.topology.transition last).target with
  | none => pure true
  | some target => do
    Engine.leadOn M below trigger target
    pure true

variable {P : Program σ}

/-- A transition that leads to a junction is followed by the legs from the branch that is taken
there. -/
theorem legsFrom_junction {below : Engine σ ι} {t : TransitionId} {v : VertexId}
    (ht : M.topology.junctionAfter t = some v) :
    Engine.legsFrom M below t trigger = Engine.branch M v trigger >>= fun next =>
      below.legs next trigger >>= fun rest => pure (t :: rest) := by
  obtain ⟨htarget, hv⟩ := Option.filter_eq_some_iff.1 ht
  unfold Engine.legsFrom
  rw [htarget]
  exact if_pos (of_decide_eq_true hv)

theorem legsFrom_last {below : Engine σ ι} {t : TransitionId}
    (ht : M.topology.junctionAfter t = none) :
    Engine.legsFrom M below t trigger = pure [t] := by
  unfold Engine.legsFrom
  unfold Topology.junctionAfter at ht
  split
  · rename_i v htarget
    rw [htarget, Option.filter_some] at ht
    split
    · rename_i hv
      simp [hv] at ht
    · rfl
  · rfl

/-- The legs are those of the chain, whatever the depth, if it suffices; only questions were asked
in between. -/
theorem legs_along_chain {t : TransitionId} {legs : List TransitionId} {fault : Option Fault}
    {context : GuardContext σ} (h : M.Chain context trigger t legs fault) :
    ∀ s : Session σ ι, s.guardContext M = context → ∃ s', s.Asks s' ∧ ∀ n, legs.length ≤ n →
      (engine M P n).legs t trigger s =
        (match fault with | some f => .failed (.fault f) | none => .value legs, s') := by
  have hpos : ∀ {n m : Nat}, n + 1 ≤ m → ∃ k, m = k + 1 ∧ n ≤ k := fun {n m} h =>
    ⟨m - 1, by omega, by omega⟩
  induction h with
  | last ht =>
    refine fun s _ => ⟨s, .refl s, fun n hn => ?_⟩
    obtain ⟨k, rfl, -⟩ := hpos hn
    exact congrFun (legsFrom_last ht) s
  | broken ht hv =>
    rintro s rfl
    obtain ⟨s', hasks, hbranch⟩ := branch_junction (M := M) trigger
      (of_decide_eq_true (Option.filter_eq_some_iff.1 ht).2) s
    refine ⟨s', hasks, fun n hn => ?_⟩
    obtain ⟨k, rfl, -⟩ := hpos hn
    rw [hv] at hbranch
    exact (congrFun (legsFrom_junction ht) s).trans (Run.bind_of_failed hbranch)
  | @next t u v legs fault ht hv hu ih =>
    rintro s rfl
    obtain ⟨s', hasks, hbranch⟩ := branch_junction (M := M) trigger
      (of_decide_eq_true (Option.filter_eq_some_iff.1 ht).2) s
    obtain ⟨s'', hasks', hlegs⟩ := ih s' hasks.guardContext_eq
    refine ⟨s'', hasks.trans hasks', fun n hn => ?_⟩
    obtain ⟨k, rfl, hk⟩ := hpos hn
    rw [hv] at hbranch
    refine (congrFun (legsFrom_junction ht) s).trans ((Run.bind_of_value hbranch).trans ?_)
    have hrest := hlegs k hk
    cases fault with
    | none => exact Run.bind_of_value hrest
    | some f => exact Run.bind_of_failed hrest

omit [Instance ι] in
theorem traverseAll_eq_forM (below : Engine σ ι) (trigger : Trigger) : ∀ legs : List TransitionId,
    Engine.traverseAll P below trigger legs = legs.forM fun leg => do
      Run.record (.traversed leg)
      below.performAll trigger false (P.traversal leg)
  | [] => rfl
  | leg :: legs => by
    have hcons : Engine.traverseAll P below trigger (leg :: legs) =
        Run.record (.traversed leg) >>= fun _ =>
          below.performAll trigger false (P.traversal leg) >>= fun _ =>
            Engine.traverseAll P below trigger legs := rfl
    rw [hcons, traverseAll_eq_forM below trigger legs, ← Run.bind_assoc]
    rfl

variable (M) in
/-- What a transition does once its chain is chosen: it fails, or the steps of the legs run in the
order of the chain. -/
def Engine.follow (P : Program σ) (below : Engine σ ι) (trigger : Trigger) (t : TransitionId)
    (legs : List TransitionId) : Option Fault → Run σ ι Bool
  | some f => Run.fail (.fault f)
  | none => do
    legs.forM fun leg => do
      Run.record (.traversed leg)
      below.performAll trigger false (P.traversal leg)
    Engine.arrive M below trigger (legs.getLast?.getD t)

/-- Where the chain from a transition ends, its legs are chosen before anything has happened, and
none is chosen twice. A fault on the way is returned with nothing done; otherwise the steps of the
legs run in order. -/
theorem fire_along_chain (P : Program σ) {t : TransitionId} {legs : List TransitionId}
    {fault : Option Fault} {s : Session σ ι}
    (h : M.Chain (s.guardContext M) trigger t legs fault) :
    legs.Nodup ∧ ∃ s', s.Asks s' ∧ ∀ n, legs.length ≤ n → (engine M P (n + 1)).fire t trigger s =
      Engine.follow M P (engine M P n) trigger t legs fault s' := by
  obtain ⟨s', hasks, hlegs⟩ := legs_along_chain (P := P) h s rfl
  refine ⟨h.nodup, s', hasks, fun n hn => ?_⟩
  have hfire : (engine (ι := ι) M P (n + 1)).fire t trigger =
      (engine M P n).legs t trigger >>= fun legs =>
        Engine.traverseAll P (engine M P n) trigger legs >>= fun _ =>
          Engine.arrive M (engine M P n) trigger (legs.getLast?.getD t) := rfl
  have hchosen := hlegs n hn
  rw [hfire]
  cases fault with
  | some f => exact Run.bind_of_failed hchosen
  | none =>
    rw [Run.bind_of_value hchosen, traverseAll_eq_forM]
    rfl

end

/-- Two junctions in a row, before states `b` and `c`. Each leg that leads to a junction raises the
environment, on which all branches depend. -/
def inARow : Machine Nat :=
  let raise : Action Nat := fun _ env => { env := env + 1 }
  let test (p : Nat → Bool) : Guard Nat := .custom fun _ c => ⟨p c.env, []⟩
  .build "m" { onError := .abort } [
    .addVertex "a" (.state ⟨0⟩) .state, .addVertex "j" (.state ⟨0⟩) (.pseudo .junction),
    .addVertex "k" (.state ⟨0⟩) (.pseudo .junction), .addVertex "b" (.state ⟨0⟩) .state,
    .addVertex "c" (.state ⟨0⟩) .state,
    .addTransition ⟨1⟩ (some ⟨2⟩), .addTransition ⟨2⟩ (some ⟨3⟩), .addTransition ⟨2⟩ (some ⟨3⟩),
    .addTransition ⟨3⟩ (some ⟨4⟩), .addTransition ⟨3⟩ (some ⟨5⟩),
    .modifyTransition ⟨0⟩ fun t => { t with effects := [raise] },
    .modifyTransition ⟨1⟩ fun t => { t with guard := test (· < 2), effects := [raise] },
    .modifyTransition ⟨2⟩ fun t => { t with guard := .otherwise },
    .modifyTransition ⟨3⟩ fun t => { t with guard := test (· = 0) },
    .modifyTransition ⟨4⟩ fun t => { t with guard := test (· < 2) }]

/-- At 1 the way to `c` is open, and it is run to its end though it raises the environment beyond
what its guards would let pass. At 0 the second junction has two open branches, and at 2 none. -/
theorem inARow_fire :
    let s (env : Nat) : Session Nat TableInstance := ⟨env, ⟨"i", {}, {}, false⟩, .first, []⟩
    let fire (env : Nat) := (engine inARow inARow.compile 9).fire ⟨0⟩ (.message "go") (s env)
    let follow := Engine.follow inARow inARow.compile
      (engine (ι := TableInstance) inARow inARow.compile 8) (.message "go") ⟨0⟩
    let ambiguous : Fault := .ambiguousJunction "m.default.k" "\"go\""
    let noEligible : Fault := .noEligibleTransition "m.default.k" "\"go\""
    (inARow.Chain ((s 1).guardContext inARow) (.message "go") ⟨0⟩ [⟨0⟩, ⟨1⟩, ⟨4⟩] none ∧
      (∃ s', (s 1).Asks s' ∧ fire 1 = follow [⟨0⟩, ⟨1⟩, ⟨4⟩] none s') ∧
      (fire 1).1 = .value true ∧ (fire 1).2.env = 3 ∧
      Instance.current inARow.topology ⟨0⟩ (fire 1).2.inst = some ⟨5⟩) ∧
    (inARow.Chain ((s 0).guardContext inARow) (.message "go") ⟨0⟩ [⟨0⟩, ⟨1⟩] (some ambiguous) ∧
      ∃ s', (s 0).Asks s' ∧ fire 0 = (.failed (.fault ambiguous), s')) ∧
    inARow.Chain ((s 2).guardContext inARow) (.message "go") ⟨0⟩ [⟨0⟩, ⟨2⟩] (some noEligible) ∧
      ∃ s', (s 2).Asks s' ∧ fire 2 = (.failed (.fault noEligible), s') := by
  intro s fire follow ambiguous noEligible
  have hopen : inARow.Chain ((s 1).guardContext inARow) (.message "go") ⟨0⟩ [⟨0⟩, ⟨1⟩, ⟨4⟩] none :=
    .next (v := ⟨2⟩) (by decide +kernel) (by decide +kernel)
      (.next (v := ⟨3⟩) (by decide +kernel) (by decide +kernel) (.last (by decide +kernel)))
  have hcrowded : inARow.Chain ((s 0).guardContext inARow) (.message "go") ⟨0⟩ [⟨0⟩, ⟨1⟩]
      (some ambiguous) :=
    .next (v := ⟨2⟩) (by decide +kernel) (by decide +kernel)
      (.broken (v := ⟨3⟩) (by decide +kernel) (by decide +kernel))
  have hshut : inARow.Chain ((s 2).guardContext inARow) (.message "go") ⟨0⟩ [⟨0⟩, ⟨2⟩]
      (some noEligible) :=
    .next (v := ⟨2⟩) (by decide +kernel) (by decide +kernel)
      (.broken (v := ⟨3⟩) (by decide +kernel) (by decide +kernel))
  obtain ⟨-, s₁, hasks₁, hfire₁⟩ := fire_along_chain inARow.compile hopen
  obtain ⟨-, s₀, hasks₀, hfire₀⟩ := fire_along_chain inARow.compile hcrowded
  obtain ⟨-, s₂, hasks₂, hfire₂⟩ := fire_along_chain inARow.compile hshut
  exact ⟨⟨hopen, ⟨s₁, hasks₁, hfire₁ 8 (by decide)⟩, by decide +kernel, by decide +kernel,
    by decide +kernel⟩, ⟨hcrowded, s₀, hasks₀, hfire₀ 8 (by decide)⟩,
    hshut, s₂, hasks₂, hfire₂ 8 (by decide)⟩

end Hsm
