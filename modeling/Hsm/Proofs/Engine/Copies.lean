import Hsm.Engine.Depth
import Hsm.Proofs.Engine.Inside

/-!
# Copied entries

The compiled entry of a region ends with a copy of the entry of its initial vertex, unless a history
is the entry point of the region or a deep history that of one above it. A deep history that is no
entry point comes to such copies all the same, and they serve there for the decision that would have
been made at run time (`copiedEntry_serves`). A state is alone in the region that it is the initial
vertex of, so the decision is for it too. An initial pseudostate goes on to the last known state, to
which the decision goes directly, and leaves no more behind than its own notes: what was current is
overwritten, and what was traced is not looked at (`Instance.Overwrites`).
-/

namespace Hsm

variable {σ ι : Type}

/-! ## What came before a run -/

/-- The run does not look at what happened before it. -/
def Run.Blind {α : Type} (x : Run σ ι α) : Prop :=
  ∀ s past, x { s with trail := s.trail ++ past } =
    ((x s).1, { (x s).2 with trail := (x s).2.trail ++ past })

/-- Nothing that the engine does depends on what happened before. -/
theorem blind_uniform [Instance ι] {M : Machine σ} {offers : Prop} :
    Run.Uniform (ι := ι) (κ := ι) M (fun _ _ => True) offers (fun _ x _ => x.Blind) where
  pure _ := fun _ _ => rfl
  bind hx hf := by
    intro s past
    simp only [Bind.bind, hx s past]
    rename_i x _ f _
    rcases x s with ⟨result, s'⟩
    cases result with
    | value a => exact hf a s' past
    | failed _ => rfl
    | exhausted => rfl
  stop _ := fun _ _ => rfl
  exhausted := fun _ _ => rfl
  note _ _ _ := fun _ _ => rfl
  act a trigger := fun s past => by
    unfold Run.act
    dsimp only
    split <;> rfl
  draw count := fun s past => by
    unfold Run.draw
    dsimp only
    split <;> rfl
  setCurrent _ _ _ := fun _ _ => rfl
  terminate := fun _ _ => rfl
  trace _ := fun _ _ => rfl
  check _ _ := fun _ _ => rfl
  read hfg := fun s past => by
    have hfs := (hfg { s with trail := s.trail ++ past } s (.refl _)).trans (hfg s s (.refl _)).symm
    exact congrArg (Result.value ·, { s with trail := s.trail ++ past }) hfs

/-! ## What comes after a run -/

section

variable [Instance ι]

/-- The instances show the same to the engine, now and whatever becomes of them. -/
def Instance.Matches (T : Topology) (i j : ι) : Prop :=
  ∀ es, Agree T (replay T es i) (replay T es j)

namespace Instance.Matches

variable {T : Topology} {i j k : ι}

theorem refl (i : ι) : Matches T i i :=
  fun _ => .refl _

theorem agree (h : Matches T i j) : Agree T i j :=
  h []

theorem symm (h : Matches T i j) : Matches T j i :=
  fun es => (h es).symm

theorem trans (h : Matches T i j) (h' : Matches T j k) : Matches T i k :=
  fun es => (h es).trans (h' es)

theorem replay (h : Matches T i j) (es : List Event) :
    Matches T (Instance.replay T es i) (Instance.replay T es j) := fun es' => by
  rw [← Instance.replay_append, ← Instance.replay_append]
  exact h (es' ++ es)

end Instance.Matches

theorem Instance.Matches.setCurrent {T : Topology} {i j : ι} (h : Matches T i j) (r : RegionId)
    (v : VertexId) : Matches T (Instance.setCurrent T r v i) (Instance.setCurrent T r v j) :=
  h.replay [.setCurrent r v]

theorem matches_simulation (T : Topology) :
    Instance.Simulation T (fun _ _ => True) (Instance.Matches (ι := ι) T) where
  agree h := h.agree
  setCurrent h _ := h.setCurrent _ _
  terminate h := h.replay [.terminated]
  trace line h := h.replay [.traced line]

/-- Instances that are related by some simulation match. -/
theorem Instance.Simulation.matches {T : Topology} {R : ι → ι → Prop}
    (hR : Simulation T (fun _ _ => True) R) {i j : ι} (h : R i j) : Matches T i j := by
  refine fun es => hR.agree (?_ : R (replay T es i) (replay T es j))
  induction es with
  | nil => exact h
  | cons e es ih => exact hR.event ih e

/-- Of instances of the kind, what is traced is not looked at, and of a pseudostate that is current
nothing remains when something else becomes current in its region. -/
structure Instance.Overwrites (T : Topology) (ι : Type) [Instance ι] : Prop
    extends Retains T ι where
  matches_trace : ∀ (i : ι) (line : String), Matches T (trace line i) i
  matches_setCurrent : ∀ (i : ι) {u : VertexId} (r v), ¬T.isState u →
    Matches T (setCurrent T r v (setCurrent T r u i)) (setCurrent T r v i)
  name_setCurrent : ∀ (i : ι) (r v), name (setCurrent T r v i) = name i

end

theorem TableInstance.overwrites (T : Topology) : Instance.Overwrites T TableInstance where
  toRetains := retains T
  matches_trace _ _ := .refl _
  matches_setCurrent i u r v hu := by
    have heq : (i.setCurrent T r u).setCurrent T r v = i.setCurrent T r v := by
      simp [setCurrent, hu]
    show Instance.Matches T ((i.setCurrent T r u).setCurrent T r v) _
    exact heq ▸ .refl _
  name_setCurrent _ _ _ := rfl

/-- Trees that differ in what was traced. -/
theorem TreeInstance.traced_simulation (T : Topology) : Instance.Simulation T (fun _ _ => True)
    fun i j : TreeInstance => ∃ lines, j = { i with eventHistory := lines } where
  agree := by
    rintro i _ ⟨lines, rfl⟩
    exact ⟨rfl, fun _ => rfl, fun _ => rfl, rfl⟩
  setCurrent := by
    rintro i _ r v ⟨lines, rfl⟩ -
    refine ⟨lines, ?_⟩
    show TreeInstance.setCurrent T r v _ =
      { TreeInstance.setCurrent T r v i with eventHistory := lines }
    unfold TreeInstance.setCurrent
    dsimp only
    split <;> rfl
  terminate := by
    rintro i _ ⟨lines, rfl⟩
    exact ⟨lines, rfl⟩
  trace := by
    rintro i _ line ⟨lines, rfl⟩
    exact ⟨_, rfl⟩

theorem TreeInstance.overwrites (T : Topology) : Instance.Overwrites T TreeInstance where
  toRetains := retains T
  matches_trace _ _ := ((traced_simulation T).matches ⟨_, rfl⟩).symm
  matches_setCurrent i u r v hu := by
    have heq : (i.setCurrent T r u).setCurrent T r v = i.setCurrent T r v := by
      simp [setCurrent, hu]
    show Instance.Matches T ((i.setCurrent T r u).setCurrent T r v) _
    exact heq ▸ .refl _
  name_setCurrent i r v := by
    show (i.setCurrent T r v).name = i.name
    unfold setCurrent
    dsimp only
    split <;> rfl

/-! ## The same end -/

section

variable [Instance ι]

/-- Both runs that began with `s` came to the same end and leave instances that match. They did the
same, but for the events `extra` that one of them began with, of which the oldest comes first. -/
structure Session.SameEnd (T : Topology) (extra : List Event) (s : Session σ ι) {α : Type}
    (e e' : Result α × Session σ ι) : Prop where
  result : e.1 = e'.1
  env : e.2.env = e'.2.env
  source : e.2.source = e'.2.source
  inst : Instance.Matches T e.2.inst e'.2.inst
  trail : ∃ es, e.2.trail = es ++ extra.reverse ++ s.trail ∧ e'.2.trail = es ++ s.trail

variable {M : Machine σ}

theorem Session.SameEnd.refl {s : Session σ ι} {α : Type} {x : Run σ ι α}
    (hx : x.Adds M.topology fun _ => True) : s.SameEnd M.topology [] (x s) (x s) := by
  obtain ⟨es, htrail, -⟩ := hx s
  exact ⟨rfl, rfl, rfl, .refl _, es, by rw [htrail]; simp, htrail⟩

/-- From sessions that match, but for what came before them, a run comes to the same end. -/
theorem Run.Blind.sameEnd {T : Topology} {α : Type} {x : Run σ ι α} (hblind : x.Blind)
    (hsim : x.Simulates (Instance.Matches T) x) {s z z' : Session σ ι} {extra es : List Event}
    (henv : z.env = z'.env) (hinst : Instance.Matches T z.inst z'.inst)
    (hsource : z.source = z'.source) (htrail : z.trail = es ++ extra.reverse ++ s.trail)
    (htrail' : z'.trail = es ++ s.trail) : s.SameEnd T extra (x z) (x z') := by
  have hz := hblind { z with trail := [] } z.trail
  have hz' := hblind { z' with trail := [] } z'.trail
  obtain ⟨hresult, htwin⟩ := hsim { z with trail := [] } { z' with trail := [] }
    ⟨henv, hinst, hsource, rfl⟩
  generalize x { z with trail := [] } = e at hz hresult htwin
  generalize x { z' with trail := [] } = e' at hz' hresult htwin
  have hxz : x z = (e.1, { e.2 with trail := e.2.trail ++ z.trail }) := hz
  have hxz' : x z' = (e'.1, { e'.2 with trail := e'.2.trail ++ z'.trail }) := hz'
  rw [hxz, hxz', htrail, htrail', ← htwin.trail]
  exact ⟨hresult, htwin.env, htwin.source, htwin.inst, e.2.trail ++ es, by
    simp only [List.append_assoc], by simp only [List.append_assoc]⟩

theorem performAll_blind (M : Machine σ) (P : Program σ) (n : Nat) (trigger : Trigger)
    (deep : Bool) (steps : List (Step σ)) :
    ((engine (ι := ι) M P n).performAll trigger deep steps).Blind :=
  Engine.Related.performAll blind_uniform
    (engine_related blind_uniform P.all_allowed trivial n) trigger deep steps
    fun step _ => step.allowed_all

theorem performAll_simulates (M : Machine σ) (P : Program σ) (n : Nat) (trigger : Trigger)
    (deep : Bool) (steps : List (Step σ)) :
    ((engine (ι := ι) M P n).performAll trigger deep steps).Simulates
      (Instance.Matches M.topology) ((engine M P n).performAll trigger deep steps) :=
  have hU := simulates_uniform (matches_simulation M.topology)
  Engine.Related.performAll hU (engine_related hU P.all_allowed trivial n) trigger deep steps
    fun step _ => step.allowed_all

/-! ## The entry of a region -/

section

variable {P : Program σ} {below : Engine σ ι} {r : RegionId} {i : VertexId}

/-- The vertex that an entry decides on at run time, where there is an initial one. -/
theorem enterRegion_eq (trigger : Trigger) (deep : Bool) (s : Session σ ι) :
    Engine.enterRegion M P below r (some i) trigger deep s =
      below.performAll trigger (deep || M.topology.pseudoKind? i = some .deepHistory)
        (P.enter (.vertex (if deep || M.topology.isHistory i then
          (Instance.lastKnown M.topology r s.inst).getD i else i))) s := by
  have hread : Run.lastKnown M.topology r s =
    (.value (Instance.lastKnown M.topology r s.inst), s) := rfl
  have hor : (if deep || M.topology.isHistory i then
      (Instance.lastKnown M.topology r s.inst).or (some i) else some i) =
      some (if deep || M.topology.isHistory i then
        (Instance.lastKnown M.topology r s.inst).getD i else i) := by
    cases Instance.lastKnown M.topology r s.inst <;> split <;> rfl
  rw [← Engine.enterElement_eq]
  unfold Engine.enterRegion
  rw [Run.bind_of_value hread, Option.bind_some, ← Topology.isHistory, hor]

end

theorem Machine.enter_state (hT : M.topology.WellFormed) {r : RegionId} {v : VertexId}
    (hv : v ∈ M.topology.vertices) (hstate : M.topology.isState v)
    (hvr : (M.topology.vertex v).parent = some r) : M.compile.enter (.vertex v) =
      .enter (.vertex v) :: .setCurrent r v ::
        ((M.stateBehavior v).entry.map .behavior ++ M.compile.endEnter (.vertex v)) := by
  rw [Program.enter, beginEnter_state hT hv hstate, currentSteps_of_parent hvr]
  simp

namespace Machine

/-- It is told that the vertex is entered, and it becomes current. -/
def enterNotes (M : Machine σ) (name : String) (r : RegionId) (v : VertexId) : List Event :=
  let line := "enter" ++ " " ++ M.topology.qualifiedName (.vertex v)
  [.entered (.vertex v), .message .debug (name ++ " " ++ line), .traced line, .setCurrent r v]

/-- What an initial pseudostate that is gone through tells of itself. -/
def passingNotes (M : Machine σ) (name : String) (r : RegionId) (i : VertexId) : List Event :=
  M.enterNotes name r i ++ M.leaveNotes name (.vertex i)

end Machine

/-- The session in which the entry of a vertex has made it current. -/
def Session.entered (M : Machine σ) (r : RegionId) (v : VertexId) (s : Session σ ι) :
    Session σ ι :=
  { s with
    inst := Instance.setCurrent M.topology r v
      (Instance.trace ("enter" ++ " " ++ M.topology.qualifiedName (.vertex v)) s.inst)
    trail := (M.enterNotes (Instance.name s.inst) r v).reverse ++ s.trail }

/-! ## Through an initial pseudostate -/

section

variable (hι : Instance.Overwrites M.topology ι)
include hι

/-- Of a pseudostate that was current in between, the instance shows nothing. -/
theorem Session.matches_through {i : VertexId} (hi : ¬M.topology.isState i) (r : RegionId)
    (v : VertexId) (s : Session σ ι) : Instance.Matches M.topology
      (((s.entered M r i).exited M (.vertex i)).entered M r v).inst (s.entered M r v).inst := by
  have hafter : ∀ line, Instance.Matches M.topology
      (Instance.trace line ((s.entered M r i).exited M (.vertex i)).inst)
      (s.entered M r i).inst := fun _ =>
    (hι.matches_trace _ _).trans (hι.matches_trace _ _)
  have hbefore : ∀ line line', Instance.Matches M.topology (Instance.trace line s.inst)
      (Instance.trace line' s.inst) := fun _ _ =>
    (hι.matches_trace _ _).trans (hι.matches_trace _ _).symm
  exact ((hafter _).setCurrent r v).trans
    ((hι.matches_setCurrent _ r v hi).trans ((hbefore _ _).setCurrent r v))

theorem Session.trail_through (r : RegionId) (i v : VertexId) (s : Session σ ι) :
    ∃ es, (((s.entered M r i).exited M (.vertex i)).entered M r v).trail =
        es ++ (M.passingNotes (Instance.name s.inst) r i).reverse ++ s.trail ∧
      (s.entered M r v).trail = es ++ s.trail := by
  have hname : Instance.name (s.entered M r i).inst = Instance.name s.inst :=
    (hι.name_setCurrent _ _ _).trans (hι.matches_trace _ _).agree.name
  have hname' : Instance.name ((s.entered M r i).exited M (.vertex i)).inst =
      Instance.name s.inst := (hι.matches_trace _ _).agree.name.trans hname
  have hentered : ∀ (z : Session σ ι) (w : VertexId), (z.entered M r w).trail =
      (M.enterNotes (Instance.name z.inst) r w).reverse ++ z.trail := fun _ _ => rfl
  have hexited : ((s.entered M r i).exited M (.vertex i)).trail =
      (M.leaveNotes (Instance.name (s.entered M r i).inst) (.vertex i)).reverse ++
        (s.entered M r i).trail := rfl
  refine ⟨(M.enterNotes (Instance.name s.inst) r v).reverse, ?_, rfl⟩
  rw [hentered, hname', hexited, hname, hentered, Machine.passingNotes, List.reverse_append]
  simp only [List.append_assoc]

variable (hT : M.topology.WellFormed) {r : RegionId} {i v : VertexId}
  (hi : i ∈ M.topology.vertices) (hk : M.topology.kind i = .pseudo .initial)
  (hp : (M.topology.vertex i).parent = some r) {s : Session σ ι}
  (hknown : Instance.lastKnown M.topology r s.inst = some v) (trigger : Trigger)
include hT hi hk hp hknown

/-- Under a deep history, the entry of an initial pseudostate goes on to the last known state. -/
theorem enterInitial_eq (n : Nat) :
    (engine M M.compile (n + 1)).performAll trigger true (M.compile.enter (.vertex i)) s =
      ((engine M M.compile n).perform (.leave (.vertex i)) trigger false >>= fun _ =>
        (engine M M.compile n).performAll trigger true (M.compile.enter (.vertex v)))
        (s.entered M r i) := by
  have hpseudo := Topology.not_isState_of_pseudoKind? (Topology.pseudoKind?_eq hk)
  have hread : Run.lastKnown M.topology r (s.entered M r i) =
      (.value (some v), s.entered M r i) := by
    refine congrArg (Result.value ·, _) ?_
    exact (hι.lastKnown_setCurrent (absurd · hpseudo) r).trans
      ((hι.lastKnown_trace _ _ r).trans hknown)
  have hresume : Engine.resume M M.compile (engine M M.compile n) i trigger true (s.entered M r i) =
      ((engine M M.compile n).perform (.leave (.vertex i)) trigger false >>= fun _ =>
        (engine M M.compile n).performAll trigger true (M.compile.enter (.vertex v)))
        (s.entered M r i) := by
    unfold Engine.resume Engine.historyState
    rw [hp]
    dsimp only
    rw [Bool.true_or, if_pos rfl, Run.bind_of_value hread]
    dsimp only
    rw [Machine.leave_pseudo hT hi hk, Engine.performAll_single, Bool.true_or,
      Engine.enterElement_eq]
  have hsteps : M.compile.enter (.vertex i) =
      [.enter (.vertex i), .setCurrent r i, .resume i] := by
    rw [Program.enter, Machine.beginEnter_pseudo hT hi hk, Machine.endEnter_pseudo hT hi hk,
      Machine.currentSteps_of_parent hp]
    rfl
  rw [hsteps, ← hresume]
  exact congrFun ((engine M M.compile (n + 1)).performAll_single trigger true (.resume i))
    (s.entered M r i)

/-- To go to the last known state through the initial pseudostate or directly comes to the same. -/
theorem enterInitial_sameEnd (hv : v ∈ M.topology.vertices) (hstate : M.topology.isState v)
    (hvr : (M.topology.vertex v).parent = some r) (n : Nat) :
    s.SameEnd M.topology (M.passingNotes (Instance.name s.inst) r i)
      ((engine M M.compile (n + 2)).performAll trigger true (M.compile.enter (.vertex i)) s)
      ((engine M M.compile (n + 1)).performAll trigger true (M.compile.enter (.vertex v)) s) := by
  have hpseudo := Topology.not_isState_of_pseudoKind? (Topology.pseudoKind?_eq hk)
  have hleave : (engine (ι := ι) M M.compile (n + 1)).perform (.leave (.vertex i)) trigger false
      (s.entered M r i) = (.value (), (s.entered M r i).exited M (.vertex i)) := rfl
  have hentered : ∀ z : Session σ ι, (engine M M.compile (n + 1)).performAll trigger true
      (M.compile.enter (.vertex v)) z = (engine M M.compile (n + 1)).performAll trigger true
        ((M.stateBehavior v).entry.map .behavior ++ M.compile.endEnter (.vertex v))
        (z.entered M r v) := fun z => by
    rw [Machine.enter_state hT hv hstate hvr]
    rfl
  obtain ⟨es, htrail, htrail'⟩ := Session.trail_through hι (M := M) r i v s
  rw [enterInitial_eq hι hT hi hk hp hknown trigger, Run.bind_of_value hleave, hentered, hentered]
  exact (performAll_blind M _ _ _ _ _).sameEnd (performAll_simulates M _ _ _ _ _) rfl
    (Session.matches_through hι hpseudo r v s) rfl htrail htrail'

end

/-! ## The copy and the decision -/

/-- The last known state of the region, if there is one, is an attached state of its own. -/
def Instance.OwnOnly (T : Topology) (r : RegionId) (i : ι) : Prop :=
  ∀ v, lastKnown T r i = some v →
    T.isState v ∧ T.isAttached (.vertex v) ∧ (T.vertex v).parent = some r

/-- Where a depth suffices for one of the runs, there is a depth at which the other comes to the
same end, but for the events `extra` of the first. -/
def Session.EndsAlike (T : Topology) (extra : List Event) (s : Session σ ι)
    (x y : Nat → Run σ ι Unit) : Prop :=
  ∀ n, ((x n s).1 ≠ .exhausted → s.SameEnd T extra (x n s) (y (n + 1) s)) ∧
    ((y n s).1 ≠ .exhausted → s.SameEnd T extra (x n s) (y n s))

namespace Machine

/-- To perform the compiled end of the entry of a region. -/
def performCopy (M : Machine σ) (r : RegionId) (trigger : Trigger) (deep : Bool) (n : Nat) :
    Run σ ι Unit :=
  (engine M M.compile n).performAll trigger deep (M.compile.endEnter (.region r))

/-- To decide when the region is entered, with `i` as its initial vertex. -/
def decideEntry (M : Machine σ) (r : RegionId) (i : VertexId) (trigger : Trigger) (deep : Bool)
    (n : Nat) : Run σ ι Unit :=
  (engine M M.compile n).perform (.enterRegion r (some i)) trigger deep

/-- The compiled end of the entry of the region serves for the decision. Under a deep history, it
may go through the initial pseudostate first. -/
structure CopyServes (M : Machine σ) (r : RegionId) (i : VertexId) (trigger : Trigger)
    (s : Session σ ι) : Prop where
  plain : ∀ n, M.decideEntry r i trigger false (n + 1) s = M.performCopy r trigger false n s
  deep : ∃ skipped, (skipped = [] ∨ M.topology.pseudoKind? i = some .initial ∧
      skipped = M.passingNotes (Instance.name s.inst) r i) ∧
    s.EndsAlike M.topology skipped (M.performCopy r trigger true) (M.decideEntry r i trigger true)

omit [Instance ι] in
/-- Where a depth of one does not suffice, none below it does. -/
theorem exists_add_two {x : Nat → Run σ ι Unit} {s : Session σ ι} (h₁ : (x 1 s).1 = .exhausted)
    (hx : ∀ n, n ≤ 1 → (x n).Refines (x 1)) {n : Nat} (h : (x n s).1 ≠ .exhausted) :
    ∃ m, n = m + 2 := by
  refine ⟨n - 2, ?_⟩
  by_contra hn
  exact h (hx n (by omega) s h ▸ h₁)

variable {r : RegionId} {i : VertexId} {trigger : Trigger} {s : Session σ ι}

/-- If the decision is for the copied steps themselves, nothing is skipped. -/
theorem endsAlike_of_eq
    (h : ∀ n, M.decideEntry r i trigger true (n + 1) s = M.performCopy r trigger true n s) :
    s.EndsAlike M.topology [] (M.performCopy r trigger true) (M.decideEntry r i trigger true) := by
  have hrefl : ∀ n, s.SameEnd M.topology [] (M.performCopy r trigger true n s)
      (M.performCopy r trigger true n s) := fun n =>
    .refl (Engine.Related.performAll grows_uniform (engine_grows n) _ _ _
      fun step _ => step.allowed_all)
  refine fun n => ⟨fun _ => h n ▸ hrefl n, fun hends => ?_⟩
  cases n with
  | zero => exact absurd rfl hends
  | succ n =>
    rw [h n] at hends ⊢
    have hdeeper : M.performCopy r trigger true (n + 1) s = M.performCopy r trigger true n s :=
      (engine_succ_refines M M.compile n).performAll _ _ _ s hends
    exact hdeeper ▸ hrefl n

/-- The decision, where no history is the entry point of the region. -/
theorem decideEntry_eq (hhistory : M.topology.isHistory i = false) (deep : Bool) (n : Nat) :
    M.decideEntry r i trigger deep (n + 1) s = (engine M M.compile n).performAll trigger deep
      (M.compile.enter (.vertex
        (if deep then (Instance.lastKnown M.topology r s.inst).getD i else i))) s := by
  have hkind : M.topology.pseudoKind? i ≠ some .deepHistory := fun h => by
    rw [Topology.isHistory, h] at hhistory
    cases hhistory
  refine (enterRegion_eq trigger deep s).trans ?_
  rw [hhistory, decide_eq_false hkind, Bool.or_false]

/-- Nothing is entered in a region that is not in the model. -/
theorem enter_eq_nil (hT : M.topology.WellFormed) (hr : r ∉ M.topology.regions) {v : VertexId}
    (hv : (M.topology.vertex v).parent = some r) : M.compile.enter (.vertex v) = [] := by
  have hsteps : M.compile.steps (.vertex v) = {} :=
    steps_compile_of_not_listed hT fun h => hr (hT.listed_of_parent h hv).1
  rw [Program.enter, Program.beginEnter, Program.endEnter, hsteps]
  rfl

/-- The compiled end of the entry is a copy only if no history is the entry point of the region. -/
theorem isHistory_of_copy (hT : M.topology.WellFormed) (hr : r ∈ M.topology.regions)
    (hi : M.topology.regionInitial r = some i)
    (hcopy : M.compile.endEnter (.region r) = M.compile.enter (.vertex i)) :
    M.topology.isHistory i = false := by
  have hlisted := hT.mem_vertices_of_region hr (Topology.regionInitial_mem hi)
  cases hhistory : M.topology.isHistory i with
  | false => rfl
  | true =>
    obtain ⟨k, hk, -⟩ := (Option.any_eq_true _ _).1 hhistory
    rw [endEnter_region hT hr, regionEntry, hi, Program.enter,
      beginEnter_pseudo hT hlisted (Topology.kind_of_pseudoKind? hk)] at hcopy
    simp [hhistory] at hcopy

section

variable (hT : M.topology.WellFormed) (hi : M.topology.regionInitial r = some i)
  (hcopy : M.compile.endEnter (.region r) = M.compile.enter (.vertex i))
  (hknown : Instance.OwnOnly M.topology r s.inst)
include hT hi hcopy hknown

/-- The decision is for the copied steps, unless it is for a last known state that is not the
initial vertex. -/
theorem decideEntry_eq_performCopy {deep : Bool} (h : r ∈ M.topology.regions → deep →
      (Instance.lastKnown M.topology r s.inst).getD i = i) (n : Nat) :
    M.decideEntry r i trigger deep (n + 1) s = M.performCopy r trigger deep n s := by
  by_cases hr : r ∈ M.topology.regions
  · rw [decideEntry_eq (isHistory_of_copy hT hr hi hcopy), performCopy, hcopy]
    cases deep with
    | false => rfl
    | true => rw [if_pos rfl, h hr rfl]
  · -- whatever the decision is for, it is in the region, and so are the copied steps
    have hir := (hT.mem_vertices r i (Topology.regionInitial_mem hi)).2
    have hgoal : (M.topology.vertex (if deep || M.topology.isHistory i then
        (Instance.lastKnown M.topology r s.inst).getD i else i)).parent = some r := by
      split
      · cases hv : Instance.lastKnown M.topology r s.inst with
        | none => exact hir
        | some v => exact (hknown v hv).2.2
      · exact hir
    refine (enterRegion_eq trigger deep s).trans ?_
    rw [enter_eq_nil hT hr hgoal, performCopy, hcopy, enter_eq_nil hT hr hir]
    rfl

/-- Where the decision is for a last known state, the copy goes through the initial pseudostate. -/
theorem endsAlike_of_ne (hM : M.topology.Marked) (hι : Instance.Overwrites M.topology ι)
    (hr : r ∈ M.topology.regions) {v : VertexId}
    (hv : Instance.lastKnown M.topology r s.inst = some v) (hne : v ≠ i) :
    M.topology.kind i = .pseudo .initial ∧
      s.EndsAlike M.topology (M.passingNotes (Instance.name s.inst) r i)
        (M.performCopy r trigger true) (M.decideEntry r i trigger true) := by
  obtain ⟨hstate, hattached, hvr⟩ := hknown v hv
  have hmem : v ∈ (M.topology.region r).vertices :=
    (hM.mem_vertices_iff (Topology.lt_size_of_parent hvr) hvr).2 hattached
  have hlisted := hT.mem_vertices_of_region hr hmem
  have hilisted := hT.mem_vertices_of_region hr (Topology.regionInitial_mem hi)
  have hir := (hT.mem_vertices r i (Topology.regionInitial_mem hi)).2
  have hhistory := isHistory_of_copy hT hr hi hcopy
  have hk : M.topology.kind i = .pseudo .initial := by
    rcases Topology.regionInitial_cases hi with ⟨k, hk, hinitial⟩ | honly
    · rw [Topology.isHistory, hk, Option.any_some] at hhistory
      rw [PseudoKind.isInitial, hhistory, Bool.or_false, decide_eq_true_iff] at hinitial
      exact hinitial ▸ Topology.kind_of_pseudoKind? hk
    · exact absurd (List.mem_singleton.1 (honly ▸ hmem)) hne
  have hdecide : ∀ n, M.decideEntry r i trigger true (n + 1) s =
      (engine M M.compile n).performAll trigger true (M.compile.enter (.vertex v)) s := fun n => by
    rw [decideEntry_eq hhistory, if_pos rfl, hv, Option.getD_some]
  have hsame : ∀ n, s.SameEnd M.topology (M.passingNotes (Instance.name s.inst) r i)
      (M.performCopy r trigger true (n + 2) s) (M.decideEntry r i trigger true (n + 2) s) :=
    fun n => by
      rw [hdecide, performCopy, hcopy]
      exact enterInitial_sameEnd hι hT hilisted hk hir hv trigger hlisted hstate hvr n
  have hcopy₁ : (M.performCopy r trigger true 1 s).1 = .exhausted := by
    rw [performCopy, hcopy, enterInitial_eq hι hT hilisted hk hir hv trigger 0]
    rfl
  have hdecide₁ : (M.decideEntry r i trigger true 1 s).1 = .exhausted := by
    rw [hdecide 0, enter_state hT hlisted hstate hvr]
    rfl
  refine ⟨hk, fun n => ⟨fun h => ?_, fun h => ?_⟩⟩
  · obtain ⟨m, rfl⟩ : ∃ m, n = m + 2 := exists_add_two hcopy₁
      (fun n hn => (engine_refines M _ hn).performAll _ _ _) h
    have hdeeper : M.decideEntry r i trigger true (m + 2 + 1) s =
        M.decideEntry r i trigger true (m + 2) s :=
      (engine_succ_refines M _ (m + 2)).perform _ _ _ s ((hsame m).result ▸ h)
    exact hdeeper ▸ hsame m
  · obtain ⟨m, rfl⟩ : ∃ m, n = m + 2 := exists_add_two hdecide₁
      (fun n hn => (engine_refines M _ hn).perform _ _ _) h
    exact hsame m

theorem copyServes (hM : M.topology.Marked) (hι : Instance.Overwrites M.topology ι) :
    M.CopyServes r i trigger s where
  plain := decideEntry_eq_performCopy hT hi hcopy hknown fun _ h => nomatch h
  deep := by
    by_cases hgoal : r ∈ M.topology.regions → (Instance.lastKnown M.topology r s.inst).getD i = i
    · exact ⟨[], .inl rfl, endsAlike_of_eq
        (decideEntry_eq_performCopy hT hi hcopy hknown fun hr _ => hgoal hr)⟩
    · obtain ⟨hr, hne⟩ := Classical.not_imp.1 hgoal
      obtain ⟨v, hv⟩ : ∃ v, Instance.lastKnown M.topology r s.inst = some v :=
        Option.ne_none_iff_exists'.1 fun h => hne (by rw [h]; rfl)
      rw [hv, Option.getD_some] at hne
      obtain ⟨hk, hends⟩ := endsAlike_of_ne hT hi hcopy hknown hM hι hr hv hne
      exact ⟨_, .inr ⟨Topology.pseudoKind?_eq hk, rfl⟩, hends⟩

end

end Machine

end

/-- Where the compiled end of the entry of a region is a copy of the entry of its initial vertex, it
serves for the decision at run time, in tables and in trees. -/
theorem copiedEntry_serves {M : Machine σ} {allowed : Edit σ → Prop} (hM : M.Reachable allowed)
    {r : RegionId} {i : VertexId} (hi : M.topology.regionInitial r = some i)
    (hcopy : M.compile.endEnter (.region r) = M.compile.enter (.vertex i)) (trigger : Trigger) :
    (∀ s : Session σ TableInstance, Instance.OwnOnly M.topology r s.inst →
      M.CopyServes r i trigger s) ∧
    ∀ s : Session σ TreeInstance, Instance.OwnOnly M.topology r s.inst →
      M.CopyServes r i trigger s :=
  ⟨fun _ hknown => Machine.copyServes hM.wellFormed hi hcopy hknown hM.marked
      (TableInstance.overwrites _),
    fun _ hknown => Machine.copyServes hM.wellFormed hi hcopy hknown hM.marked
      (TreeInstance.overwrites _)⟩

/-- A deep history beside an initial pseudostate, above a region with a pseudostate of its own. -/
def recalled : Machine Nat := .build "m" {} [
  .addVertex "p" (.state ⟨0⟩) .state,
  .addVertex "h" (.state ⟨1⟩) (.pseudo .deepHistory),
  .addVertex "i" (.state ⟨1⟩) (.pseudo .initial), .addVertex "a" (.state ⟨1⟩) .state,
  .addVertex "i" (.state ⟨4⟩) (.pseudo .initial), .addVertex "x" (.state ⟨4⟩) .state,
  .addVertex "y" (.state ⟨4⟩) .state,
  .addTransition ⟨3⟩ (some ⟨4⟩), .addTransition ⟨5⟩ (some ⟨6⟩),
  .modifyState ⟨7⟩ fun b => { b with entry := [fun _ env => { env := env + 1 }] }]

/-- From the deep history `a` is entered, and `y` in it, through its initial pseudostate or
directly. -/
theorem recalled_serves :
    let i : TableInstance := Instance.setCurrent recalled.topology ⟨2⟩ ⟨7⟩ ⟨"i", {}, {}, false⟩
    let j : TreeInstance := Instance.setCurrent recalled.topology ⟨2⟩ ⟨7⟩ { name := "j" }
    let s : Session Nat TableInstance := ⟨0, i, .first, []⟩
    let t : Session Nat TreeInstance := ⟨0, j, .first, []⟩
    let copy := recalled.performCopy ⟨2⟩ (.message "go") true 4 s
    let decision := recalled.decideEntry ⟨2⟩ ⟨5⟩ (.message "go") true 4 s
    (recalled.Reachable (fun _ => True) ∧ recalled.topology.regionInitial ⟨2⟩ = some ⟨5⟩ ∧
      recalled.compile.endEnter (.region ⟨2⟩) = recalled.compile.enter (.vertex ⟨5⟩) ∧
      Instance.OwnOnly recalled.topology ⟨2⟩ i ∧ Instance.OwnOnly recalled.topology ⟨2⟩ j) ∧
    recalled.CopyServes ⟨2⟩ ⟨5⟩ (.message "go") s ∧ recalled.CopyServes ⟨2⟩ ⟨5⟩ (.message "go") t ∧
    copy.1 = .value () ∧ copy.2.env = 1 ∧ .entered (.vertex ⟨5⟩) ∈ copy.2.trail ∧
    decision.1 = .value () ∧ .entered (.vertex ⟨5⟩) ∉ decision.2.trail := by
  intro i j s t copy decision
  have hM : recalled.Reachable fun _ => True := .build (by decide +kernel) fun _ _ => trivial
  have hinitial : recalled.topology.regionInitial ⟨2⟩ = some ⟨5⟩ := by decide +kernel
  have hcopy : recalled.compile.endEnter (.region ⟨2⟩) = recalled.compile.enter (.vertex ⟨5⟩) := by
    rw [Machine.endEnter_region hM.wellFormed (by decide +kernel), Machine.regionEntry, hinitial]
    exact if_pos (by decide +kernel)
  have hown : ∀ v, some ⟨7⟩ = some v → recalled.topology.isState v ∧
      recalled.topology.isAttached (.vertex v) ∧
        (recalled.topology.vertex v).parent = some ⟨2⟩ := by
    intro v hv
    obtain rfl := Option.some.inj hv
    decide +kernel
  have hi : Instance.OwnOnly recalled.topology ⟨2⟩ i := fun v hv =>
    hown v (hv ▸ by decide +kernel)
  have hj : Instance.OwnOnly recalled.topology ⟨2⟩ j := fun v hv =>
    hown v (hv ▸ by decide +kernel)
  have hruns : copy.1 = .value () ∧ copy.2.env = 1 ∧ .entered (.vertex ⟨5⟩) ∈ copy.2.trail ∧
      decision.1 = .value () ∧ .entered (.vertex ⟨5⟩) ∉ decision.2.trail := by decide +kernel
  clear_value i j copy decision
  have hserves := copiedEntry_serves hM hinitial hcopy (.message "go")
  exact ⟨⟨hM, hinitial, hcopy, hi, hj⟩, hserves.1 s hi, hserves.2 t hj, hruns⟩

end Hsm
