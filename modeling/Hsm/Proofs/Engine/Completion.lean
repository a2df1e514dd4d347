import Hsm.Proofs.Engine.Offers
import Hsm.Proofs.Engine.Settling
import Hsm.Proofs.Machine.Lives

/-!
# Completions are not lost

A call that begins with a state not waiting, where its completion is the only way out, ends so too,
unless one of its own events is a way past the completion; a state that waits between calls has done
so since such a call (`completion_not_lost`). Each of these ways does leave some state waiting
(`completion_lost`).
-/

namespace Hsm

variable {σ ι : Type}

section

variable [Instance ι]

/-- A call on behalf of `i` that succeeds leaves the instance terminated or `s` not waiting, unless
one of its events goes past the completion of `s`. -/
def Outcome.Settles (T : Topology) (s : VertexId) (i : ι) (o : Outcome σ ι (Option Bool)) : Prop :=
  o.result.Succeeds → ¬Instance.isTerminated o.inst → ¬Instance.GoesPast T s i o.events →
    ¬Instance.Waits T s o.inst

/-- Where calls have led since one in which an event went past the completion of `s`, with `s`
waiting whenever the instance was at rest. -/
inductive Machine.Overlooks (M : Machine σ) (s : VertexId) (i₀ : ι) :
    List Event → Machine σ → ι → Prop
  | start (depth : Nat) (env : σ) :
    Instance.GoesPast M.topology s i₀ (M.call i₀ (.start depth env)).events →
    Overlooks M s i₀ (M.call i₀ (.start depth env)).events
      (M.call i₀ (.start depth env)).machine (M.call i₀ (.start depth env)).inst
  | evaluate {events : List Event} {M' : Machine σ} {i : ι} (depth : Nat) (env : σ)
      (message : String) : M.Visits Result.Succeeds i₀ events M' i →
    ¬Instance.Waits M.topology s i →
    Instance.GoesPast M.topology s i (M'.call i (.evaluate depth env message)).events →
    Overlooks M s i₀ (events ++ (M'.call i (.evaluate depth env message)).events)
      (M'.call i (.evaluate depth env message)).machine
      (M'.call i (.evaluate depth env message)).inst
  | stay {events : List Event} {M' : Machine σ} {i : ι} (depth : Nat) (env : σ)
      (message : String) : Overlooks M s i₀ events M' i → Instance.Waits M.topology s i →
    Overlooks M s i₀ (events ++ (M'.call i (.evaluate depth env message)).events)
      (M'.call i (.evaluate depth env message)).machine
      (M'.call i (.evaluate depth env message)).inst

/-- In runs that begin with `i₀` no call loses the completion of `s` but by an event of its own:
neither a start nor an evaluation that begins with `s` not waiting. So if `s` waits, it has waited
since a call with such an event. -/
structure Machine.KeepsCompletion (M : Machine σ) (s : VertexId) (i₀ : ι) : Prop where
  start : ∀ depth env, (M.call i₀ (.start depth env)).Settles M.topology s i₀
  evaluate : ∀ {events : List Event} {M' : Machine σ} {i : ι},
    M.Visits Result.Succeeds i₀ events M' i → ¬Instance.Waits M.topology s i →
      ∀ depth env message, (M'.call i (.evaluate depth env message)).Settles M.topology s i
  run : ∀ {events : List Event} {M' : Machine σ} {i : ι},
    M.Visits Result.Succeeds i₀ events M' i → ¬Instance.isTerminated i →
      Instance.Waits M.topology s i → M.Overlooks s i₀ events M' i

/-- At the end of a run, what happened before it does not matter. -/
theorem Session.Settled.past {T : Topology} {s : VertexId} {i : ι} {z : Session σ ι}
    (h : z.Settled T i s) {events : List Event} (hidle : ∀ e ∈ events, e.Idle) :
    Instance.isTerminated z.inst ∨ Instance.GoesPast T s i (events ++ z.trail.reverse)
      ∨ ¬Instance.Waits T s z.inst := by
  refine or_assoc.1 (h.imp (fun h => h.imp id ?_) id)
  rintro ⟨e, past, ⟨later, ht⟩, hl⟩
  have hsame : Instance.replay T events.reverse i = i :=
    Instance.replay_idle fun e he => hidle e (List.mem_reverse.1 he)
  rw [← ht, List.reverse_append, List.reverse_cons, List.append_assoc]
  refine Instance.goesPast_append.2 (.inr (Instance.goesPast_append.2 (.inr ?_)))
  rw [hsame, List.reverse_reverse]
  exact .inl hl

/-- A call does what its run does. -/
theorem Run.Calms.settles {T : Topology} {J : ι → Prop} {s : VertexId} {i : ι} {α : Type}
    {p : Prop} {x : Run σ ι α} (h : Run.Calms T J i s p x False) (hi : J i)
    (hp : p ∨ ¬Instance.Waits T s i) (M : Machine σ) (env : σ) (source : IndexSource)
    (f : α → Option Bool) : ((M.outcome (x ⟨env, i, source, []⟩)).map f).Settles T s i := by
  intro hsucceeds hend hpast
  obtain ⟨a, ha⟩ := Result.succeeds_map.1 hsucceeds
  obtain ⟨-, hq⟩ := h ⟨env, i, source, []⟩ ⟨hi, rfl⟩ (hp.imp id .inr)
  exact ((((hq a ha).resolve_left id).past fun _ => M.idle_of_mem_preamble).resolve_left
    hend).resolve_left hpast

variable {M : Machine σ} {J : ι → Prop} {s : VertexId} {t : TransitionId}
  (hJ : Instance.Laws M.topology J) (hs : s ∈ M.topology.vertices) (hstate : M.topology.isState s)
  (hout : (M.topology.vertex s).outgoing = [t]) (hguard : M.guard t = .completion s)
include hJ hs hstate hout hguard

variable (hT : M.topology.WellFormed) (hne : s ≠ Topology.root) {i : ι}
include hT hne

theorem startRun_settles (depth : Nat) :
    Run.Calms M.topology J i s True (M.startRun depth M.compile) False := by
  have hn : M.Settles J i s depth := engine_settles hJ hs hstate hout hguard hT depth
  have hroot := Topology.root_mem_vertices (T := M.topology)
  have hnot : ¬M.topology.LooseAfter s (.vertex Topology.root) := by
    rintro (hd | he | ⟨-, r, hr, -⟩)
    · exact hT.not_isDescendant_root hd
    · exact hne he.symm
    · exact absurd (hT.root_parent.symm.trans hr) (Option.some_ne_none r).symm
  refine Run.Spec.startRun (Session.stable_lawful hJ).steady (Session.stable_loose hJ).steady
    ((Run.Spec.enter (Run.Calms.beginEnter_vertex hJ hT hn hroot) (Run.Calms.endEnter hJ
      hT hn hs hstate (x := .vertex Topology.root) hroot fun _ => rfl)).conseq
        (fun _ _ _ => ?_) fun _ _ _ => Or.imp hnot id)
  exact .inl (.inr (.inl (hT.root_mem_vertexAncestry hs)))

omit hne in
theorem evaluateRun_settles (depth : Nat) (message : String) :
    Run.Calms M.topology J i s False (M.evaluateRun depth message M.compile) False := by
  have hn : M.Settles J i s depth := engine_settles hJ hs hstate hout hguard hT depth
  refine Run.Spec.evaluateRun (Session.stable_lawful hJ).steady (Session.stable_loose hJ).steady
    ((hn.offer _ (.message message) Topology.root_mem_vertices hT.isState_root).mono
      False.elim hT.not_isDescendant_root) fun z _ _ hended => .inr (.inl (.inl hended))

section

variable {allowed : Edit σ → Prop} (hM : M.Reachable allowed) {i₀ : ι} (h₀ : J i₀)
include hM h₀

omit hT in
theorem start_settles (depth : Nat) (env : σ) :
    (M.call i₀ (.start depth env)).Settles M.topology s i₀ := by
  rw [hM.call_start]
  exact (startRun_settles (M := M.ready M.settings.source) hJ hs hstate hout hguard hM.wellFormed
    hne depth).settles h₀ (.inl trivial) M env _ _

variable {events : List Event} {M' : Machine σ} (h : M.Visits Result.Succeeds i₀ events M' i)
include h

omit hT hne in
theorem evaluate_settles (hw : ¬Instance.Waits M.topology s i) (depth : Nat) (env : σ)
    (message : String) : (M'.call i (.evaluate depth env message)).Settles M.topology s i := by
  obtain ⟨hi, -⟩ := faithful_of_visits hM hJ.toOrderly h₀ h
  obtain ⟨source, rfl⟩ := h.exists_ready hM
  rw [(hM.ready source).call_evaluate, show (M.ready source).settings.source = source from rfl,
    Machine.ready_ready]
  exact (evaluateRun_settles (M := M.ready source) hJ hs hstate hout hguard hM.wellFormed depth
    message).settles hi (.inr hw) (M.ready source) env _ _

omit hT in
/-- What waits has waited since a call that went past its completion. -/
theorem overlooks_of_visits (hend : ¬Instance.isTerminated i)
    (hw : Instance.Waits M.topology s i) : M.Overlooks s i₀ events M' i := by
  induction h with
  | start depth env ha =>
    exact .start depth env <| Classical.byContradiction fun hno =>
      start_settles hJ hs hstate hout hguard hne hM h₀ depth env ha hend hno hw
  | @evaluate events M' i depth env message h ha ih =>
    by_cases hbefore : Instance.Waits M.topology s i
    · refine .stay depth env message (ih (fun hended => hend ?_) hbefore) hbefore
      -- a run that has ended stays so
      obtain ⟨source, rfl⟩ := h.exists_ready hM
      exact (hM.ready source).call_keeps hJ.kept_isTerminated hended (.evaluate depth env message)
    · exact .evaluate depth env message h hbefore <| Classical.byContradiction fun hno =>
        evaluate_settles hJ hs hstate hout hguard hM h₀ h hbefore depth env message ha hend hno hw

end

omit hT in
theorem keepsCompletion {allowed : Edit σ → Prop} (hM : M.Reachable allowed) {i₀ : ι}
    (h₀ : J i₀) : M.KeepsCompletion s i₀ where
  start := start_settles hJ hs hstate hout hguard hne hM h₀
  evaluate h hw := evaluate_settles hJ hs hstate hout hguard hM h₀ h hw
  run h := overlooks_of_visits hJ hs hstate hout hguard hne hM h₀ h

omit hJ hT in
/-- No completion is lost, but in a call with an event that goes past it: where the only way out of
a state is its completion, a start, or an evaluation that begins with the state not both active and
complete, leads to where it is not, if it succeeds and the run has not ended. Of instances in a tree
the names have to be distinct. -/
theorem completion_not_lost {allowed : Edit σ → Prop} (hM : M.Reachable allowed) (name : String) :
    M.KeepsCompletion s (⟨name, {}, {}, false⟩ : TableInstance) ∧
    ((∀ name, Violation.duplicateQualifiedName name ∉ M.violations) →
      M.KeepsCompletion s ({ name := name } : TreeInstance)) :=
  have hT := hM.wellFormed
  ⟨keepsCompletion (TableInstance.laws hT) hs hstate hout hguard hne hM
      (TableInstance.sound_new M.topology name),
    fun hN => keepsCompletion (TreeInstance.laws hT (Machine.distinctNames hN)) hs hstate hout
      hguard hne hM ⟨_, TableInstance.mirrors_new M.topology name⟩⟩

end

/-- Work, entered by history, that is done once what is beneath it is finished. -/
def nestedWork : Machine Unit := .build "m" {} [
  .addVertex "h" (.state ⟨0⟩) (.pseudo .shallowHistory), .addVertex "work" (.state ⟨0⟩) .state,
  .addVertex "done" (.state ⟨0⟩) .state, .addVertex "i" (.state ⟨2⟩) (.pseudo .initial),
  .addVertex "running" (.state ⟨2⟩) .state, .addVertex "finished" (.state ⟨2⟩) .finalState,
  .addTransition ⟨1⟩ (some ⟨2⟩), .addTransition ⟨2⟩ (some ⟨3⟩), .addTransition ⟨4⟩ (some ⟨5⟩),
  .addTransition ⟨5⟩ (some ⟨6⟩),
  .modifyTransition ⟨3⟩ fun t => { t with guard := .on "finish" }]

theorem nestedWork_completion :
    let started := nestedWork.call (⟨"i", {}, {}, false⟩ : TableInstance) (.start 9 ())
    let i := (started.machine.call started.inst (.evaluate 9 () "finish")).inst
    let started' := nestedWork.call ({ name := "i" } : TreeInstance) (.start 9 ())
    let j := (started'.machine.call started'.inst (.evaluate 9 () "finish")).inst
    (¬Instance.Waits nestedWork.topology ⟨2⟩ started.inst ∧
      ¬Instance.Waits nestedWork.topology ⟨2⟩ i) ∧
    ¬Instance.Waits nestedWork.topology ⟨2⟩ started'.inst ∧
      ¬Instance.Waits nestedWork.topology ⟨2⟩ j := by
  have hM : nestedWork.Reachable fun _ => True := .build (by decide +kernel) fun _ _ => trivial
  have hkept := completion_not_lost (s := ⟨2⟩) (t := ⟨1⟩) (by decide +kernel) (by decide +kernel)
    (by decide +kernel) rfl (by decide) hM "i"
  have htree := hkept.2 fun name => by
    rw [show nestedWork.violations = [] by decide +kernel]
    exact List.not_mem_nil
  have hstart := hkept.1.start 9 () ⟨none, by decide +kernel⟩ (by decide +kernel)
    (by decide +kernel)
  have hstart' := htree.start 9 () ⟨none, by decide +kernel⟩ (by decide +kernel) (by decide +kernel)
  exact ⟨⟨hstart, hkept.1.evaluate (.start 9 () ⟨none, by decide +kernel⟩) hstart 9 () "finish"
      ⟨some true, by decide +kernel⟩ (by decide +kernel) (by decide +kernel)⟩,
    hstart', htree.evaluate (.start 9 () ⟨none, by decide +kernel⟩) hstart' 9 () "finish"
      ⟨some true, by decide +kernel⟩ (by decide +kernel) (by decide +kernel)⟩

/-- Once started, the model rests with the state waiting for a completion that is its only way
out. -/
def Machine.Strands [Instance ι] (M : Machine Unit) (i : ι) (s : VertexId) : Prop :=
  M.Reachable (fun _ => True) ∧ s ∈ M.topology.vertices ∧ M.topology.kind s = .state ∧
    (∃ t, (M.topology.vertex s).outgoing = [t] ∧ M.guard t = .completion s) ∧
    (M.call i (.start 9 ())).result.Succeeds ∧
    ¬Instance.isTerminated (M.call i (.start 9 ())).inst ∧
    Instance.Waits M.topology s (M.call i (.start 9 ())).inst

/-- A model that goes to a state at once, or to what is made of the state by further edits. -/
def entering (target : Nat) (edits : List (Edit Unit)) : Machine Unit := .build "m" {} <|
  [.addVertex "i" (.state ⟨0⟩) (.pseudo .initial), .addVertex "s" (.state ⟨0⟩) .state,
    .addVertex "d" (.state ⟨0⟩) .state] ++ edits ++ [.addTransition ⟨1⟩ (some ⟨target⟩)]

/-- The completion leads nowhere. -/
def internalCompletion : Machine Unit := entering 2 [.addTransition ⟨2⟩ none]

/-- The completion leads to a choice that leads nowhere. -/
def strayingChoice : Machine Unit := entering 2 [
  .addVertex "c" (.state ⟨0⟩) (.pseudo .choice), .addTransition ⟨2⟩ (some ⟨4⟩),
  .addTransition ⟨4⟩ none]

/-- The completion leads to what was removed before. -/
def removedTarget : Machine Unit := entering 2 [.removeVertex ⟨3⟩, .addTransition ⟨2⟩ (some ⟨3⟩)]

/-- What finishes the state is entered from outside it. -/
def outsideIn : Machine Unit := entering 4 [
  .addVertex "f" (.state ⟨2⟩) .finalState, .addTransition ⟨2⟩ (some ⟨3⟩)]

/-- The state is all that is in the region of another. -/
def soleVertex : Machine Unit := entering 2 [
  .addVertex "x" (.state ⟨2⟩) .state, .addTransition ⟨4⟩ (some ⟨3⟩)]

/-- The state was left for another from which its owner is entered again, by no entry point. -/
def noEntryPoint : Machine Unit := entering 4 [
  .addVertex "x" (.state ⟨2⟩) .state, .addVertex "y" (.state ⟨2⟩) .state,
  .addTransition ⟨4⟩ (some ⟨3⟩), .addTransition ⟨3⟩ (some ⟨2⟩)]

/-- The state is resumed by a history of its region. -/
def resumedState (k : PseudoKind) : Machine Unit := entering 4 [
  .addVertex "x" (.state ⟨2⟩) .state, .addVertex "h" (.state ⟨2⟩) (.pseudo k),
  .addTransition ⟨4⟩ (some ⟨3⟩), .addTransition ⟨3⟩ (some ⟨5⟩)]

/-- The state has the name of the one that is entered. -/
def sharedName : Machine Unit := entering 4 [
  .addTransition ⟨2⟩ (some ⟨3⟩), .addVertex "s" (.state ⟨0⟩) .state]

/-- Each of the ways past a completion leaves some state waiting, and so do names that are not
distinct. -/
theorem completion_lost :
    internalCompletion.Strands (⟨"i", {}, {}, false⟩ : TableInstance) ⟨2⟩ ∧
    strayingChoice.Strands (⟨"i", {}, {}, false⟩ : TableInstance) ⟨2⟩ ∧
    removedTarget.Strands (⟨"i", {}, {}, false⟩ : TableInstance) ⟨2⟩ ∧
    outsideIn.Strands (⟨"i", {}, {}, false⟩ : TableInstance) ⟨2⟩ ∧
    soleVertex.Strands (⟨"i", {}, {}, false⟩ : TableInstance) ⟨4⟩ ∧
    noEntryPoint.Strands (⟨"i", {}, {}, false⟩ : TableInstance) ⟨4⟩ ∧
    (resumedState .shallowHistory).Strands (⟨"i", {}, {}, false⟩ : TableInstance) ⟨4⟩ ∧
    (resumedState .deepHistory).Strands (⟨"i", {}, {}, false⟩ : TableInstance) ⟨4⟩ ∧
    sharedName.Strands ({ name := "i" } : TreeInstance) ⟨2⟩ := by
  have hM : ∀ {target : Nat} {edits : List (Edit Unit)}, Edit.AllValid (.ofName "m" {}) ([
      .addVertex "i" (.state ⟨0⟩) (.pseudo .initial), .addVertex "s" (.state ⟨0⟩) .state,
      .addVertex "d" (.state ⟨0⟩) .state] ++ edits ++ [.addTransition ⟨1⟩ (some ⟨target⟩)]) →
      (entering target edits).Reachable fun _ => True := fun h => .build h fun _ _ => trivial
  refine ⟨?_, ?_, ?_, ?_, ?_, ?_, ?_, ?_, ?_⟩ <;>
    exact ⟨hM (by decide +kernel), by decide +kernel, by decide +kernel,
      ⟨⟨0⟩, by decide +kernel, rfl⟩, ⟨none, by decide +kernel⟩, by decide +kernel,
      by decide +kernel⟩

end Hsm
