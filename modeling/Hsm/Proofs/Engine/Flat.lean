import Hsm.Proofs.Engine.Enacting
import Hsm.Proofs.Machine.Lives
import Hsm.Proofs.Program.Paths
import Hsm.Proofs.Topology.Way
import Mathlib.Computability.DFA

/-!
# Flat machines

A machine with one region, a pseudostate to start from and states without regions is a finite
automaton: once it is entered with a new instance, every message takes it where the automaton goes
(`Machine.Flat.runs_automaton`). A message that no transition of the current state waits for leaves
it there, and so does one that several wait for, since the engine takes none of them then. On the
way the actions on exit, the effects and the actions on entry are run, also from a state to itself,
and no others. Every call therefore enacts what can be read off the model (`Run.Enacts`), at any
depth from four on.
-/

namespace Hsm

variable {σ : Type}

/-- A model whose root has one region, and in it an initial pseudostate and states that have no
regions. One transition leads out of the pseudostate, to a state; all others are external, lead
from state to state, and wait for a message each. Faults that can be passed over are, and no action
fails. -/
structure Machine.Flat (M : Machine σ) where
  region : RegionId
  initial : VertexId
  states : List VertexId
  /-- The transition out of the pseudostate. -/
  first : TransitionId
  start : VertexId
  /-- The message that a transition waits for. -/
  label : TransitionId → String
  regions_root : (M.topology.vertex Topology.root).regions = [region]
  vertices_iff : ∀ v, v ∈ (M.topology.region region).vertices ↔ v = initial ∨ v ∈ states
  kind_initial : M.topology.pseudoKind? initial = some .initial
  isState : ∀ s ∈ states, M.topology.isState s
  regions : ∀ s ∈ states, (M.topology.vertex s).regions = []
  outgoing_initial : (M.topology.vertex initial).outgoing = [first]
  target_first : (M.topology.transition first).target = some start
  start_mem : start ∈ states
  /-- An internal transition leads nowhere. -/
  kind_first : (M.topology.transition first).kind ≠ .internal
  kind : ∀ t ∈ M.topology.transitions, t ≠ first → (M.topology.transition t).kind = .external
  source : ∀ t ∈ M.topology.transitions, t ≠ first → (M.topology.transition t).source ∈ states
  target : ∀ t ∈ M.topology.transitions, t ≠ first →
    ∃ s ∈ states, (M.topology.transition t).target = some s
  guard : ∀ t ∈ M.topology.transitions, t ≠ first → M.guard t = .on (label t)
  onError : M.settings.onError = .ignoreAndLog
  entry : ∀ v ∈ M.topology.vertices, ∀ a ∈ (M.stateBehavior v).entry, a.Succeeds
  exit : ∀ v ∈ M.topology.vertices, ∀ a ∈ (M.stateBehavior v).exit, a.Succeeds
  effects : ∀ t ∈ M.topology.transitions, ∀ a ∈ M.effects t, a.Succeeds

namespace Machine.Flat

variable {M : Machine σ} (F : M.Flat)

/-! ## The automaton -/

/-- The transition out of a state that is the only one to wait for the message. -/
def taken (s : VertexId) (message : String) : Option TransitionId :=
  match (M.topology.vertex s).outgoing.filter fun t => F.label t = message with
  | [t] => some t
  | _ => none

/-- Where the automaton goes. -/
def next (s : VertexId) (message : String) : VertexId :=
  ((F.taken s message).bind fun t => (M.topology.transition t).target).getD s

/-- The automaton. It accepts where nothing leads on. -/
def automaton : DFA String VertexId where
  step := F.next
  start := F.start
  accept := {s | M.topology.isFinal s}

/-- What is done on the way. -/
def deeds (s : VertexId) (message : String) : List (Action σ) :=
  match F.taken s message with
  | some t =>
    (M.stateBehavior s).exit ++ M.effects t ++ (M.stateBehavior (F.next s message)).entry
  | none => []

/-- What is done when the machine is entered. -/
def opening : List (Action σ) :=
  (M.stateBehavior Topology.root).entry ++
    (M.effects F.first ++ (M.stateBehavior F.start).entry)

/-- What the message makes of an instance. -/
def moved (i : TableInstance) (s : VertexId) (message : String) : TableInstance :=
  match F.taken s message with
  | some _ => i.setCurrent M.topology F.region (F.next s message)
  | none => i

/-- The instance is in the state, and its run has not ended. -/
def At (i : TableInstance) (s : VertexId) : Prop :=
  i.lastKnown.get? F.region = some s ∧ i.terminated = false

/-! ## What the model consists of -/

section

variable (hT : M.topology.WellFormed)
include hT

theorem owner_region : (M.topology.region F.region).parent = Topology.root :=
  (hT.mem_regions Topology.root F.region (F.regions_root ▸ List.mem_singleton_self _)).2

omit hT in
theorem region_mem : F.region ∈ M.topology.regions :=
  Topology.mem_regions.2 ⟨Topology.root, Topology.root_mem_vertices,
    F.regions_root ▸ List.mem_singleton_self _⟩

variable {F} {v s : VertexId} {t : TransitionId}

theorem parent (hv : v = F.initial ∨ v ∈ F.states) :
    (M.topology.vertex v).parent = some F.region :=
  (hT.mem_vertices F.region v ((F.vertices_iff v).2 hv)).2

theorem mem_vertices (hv : v = F.initial ∨ v ∈ F.states) : v ∈ M.topology.vertices :=
  hT.mem_vertices_of_region F.region_mem ((F.vertices_iff v).2 hv)

theorem ne_root (hv : v = F.initial ∨ v ∈ F.states) : v ≠ Topology.root := by
  rintro rfl
  exact Option.some_ne_none _ ((parent hT hv).symm.trans hT.root_parent)

omit hT in
theorem initial_notMem : F.initial ∉ F.states := fun h =>
  Topology.not_isState_of_pseudoKind? F.kind_initial (F.isState _ h)

theorem eq_root_or_mem (hv : v ∈ M.topology.vertices) :
    v = Topology.root ∨ v = F.initial ∨ v ∈ F.states := by
  refine hT.vertices_induction (p := fun v => v = Topology.root ∨ v = F.initial ∨ v ∈ F.states)
    (.inl rfl) (fun u r w _ hr hw hu => .inr ?_) v hv
  rcases hu with rfl | rfl | hu
  · obtain rfl : r = F.region := List.mem_singleton.1 (F.regions_root ▸ hr)
    exact (F.vertices_iff w).1 hw
  · exact absurd (hT.isState_of_regions _ (List.ne_nil_of_mem hr))
      (Topology.not_isState_of_pseudoKind? F.kind_initial)
  · rw [F.regions u hu] at hr
    cases hr

theorem source_first : (M.topology.transition F.first).source = F.initial :=
  (hT.mem_outgoing F.initial F.first (F.outgoing_initial ▸ List.mem_singleton_self _)).2

theorem first_mem : F.first ∈ M.topology.transitions :=
  Topology.mem_transitions.2 ⟨F.initial, mem_vertices hT (.inl rfl),
    F.outgoing_initial ▸ List.mem_singleton_self _⟩

/-- The first transition does not leave a state. -/
theorem of_outgoing (hs : s ∈ F.states) (ht : t ∈ (M.topology.vertex s).outgoing) :
    t ∈ M.topology.transitions ∧ t ≠ F.first := by
  refine ⟨Topology.mem_transitions.2 ⟨s, mem_vertices hT (.inr hs), ht⟩, ?_⟩
  rintro rfl
  have hsource := (hT.mem_outgoing s F.first ht).2
  exact initial_notMem (source_first hT ▸ hsource ▸ hs)

variable (F) in
include F in
/-- Nothing leads out of the root. -/
theorem outgoing_root : (M.topology.vertex Topology.root).outgoing = [] := by
  refine List.eq_nil_iff_forall_not_mem.2 fun t ht => ?_
  have hsource := (hT.mem_outgoing Topology.root t ht).2
  by_cases hfirst : t = F.first
  · exact ne_root hT (F := F) (.inl rfl) ((source_first hT).symm.trans (hfirst ▸ hsource))
  · have hmem := F.source t (Topology.mem_transitions.2 ⟨_, Topology.root_mem_vertices, ht⟩) hfirst
    exact ne_root hT (.inr hmem) hsource

variable (F) in
omit hT in
theorem regionInitial : M.topology.regionInitial F.region = some F.initial := by
  have hinitial : F.initial ∈ (M.topology.region F.region).vertices.reverse :=
    List.mem_reverse.2 ((F.vertices_iff _).2 (.inl rfl))
  have hkind : (M.topology.pseudoKind? F.initial).any PseudoKind.isInitial := by
    rw [F.kind_initial]
    rfl
  obtain ⟨w, hw⟩ := Option.isSome_iff_exists.1 (List.find?_isSome
    (p := fun v => (M.topology.pseudoKind? v).any PseudoKind.isInitial) |>.2 ⟨_, hinitial, hkind⟩)
  have hw' : w = F.initial := by
    have hkind := List.find?_some hw
    refine ((F.vertices_iff w).1 (List.mem_reverse.1 (List.mem_of_find?_eq_some hw))).resolve_right
      fun hs => ?_
    rw [Topology.isState_iff_pseudoKind?.1 (F.isState w hs)] at hkind
    cases hkind
  unfold Topology.regionInitial
  dsimp only
  rw [hw, hw']

theorem vertexAncestry (hv : v = F.initial ∨ v ∈ F.states) :
    M.topology.vertexAncestry v = [Topology.root] ++ [v] := by
  rw [hT.vertexAncestry_of_parent (parent hT hv), F.owner_region hT, hT.vertexAncestry_root]

/-! ## What it compiles to -/

theorem leave_eq (hs : s ∈ F.states) : M.compile.leave (.vertex s) =
    .leave (.vertex s) :: (M.stateBehavior s).exit.map .behavior := by
  rw [leave_state hT (mem_vertices hT (.inr hs)) (F.isState s hs), F.regions s hs]
  rfl

theorem beginEnter_eq (hs : s ∈ F.states) : M.compile.beginEnter (.vertex s) =
    .enter (.vertex s) :: .setCurrent F.region s :: (M.stateBehavior s).entry.map .behavior := by
  rw [beginEnter_state hT (mem_vertices hT (.inr hs)) (F.isState s hs),
    currentSteps_of_parent (parent hT (.inr hs))]
  rfl

theorem endEnter_eq (hs : s ∈ F.states) : M.compile.endEnter (.vertex s) = [] := by
  rw [endEnter_state hT (mem_vertices hT (.inr hs)) (F.isState s hs), F.regions s hs]
  rfl

/-- Between siblings only the source is left and only the target entered. -/
theorem externalSteps_eq {u : VertexId} (hu : u = F.initial ∨ u ∈ F.states) (hs : s ∈ F.states)
    (effects : List (Action σ)) : M.externalSteps M.compile u s effects =
      M.compile.leave (.vertex u) ++ effects.map .behavior ++ M.compile.beginEnter (.vertex s) := by
  rw [Machine.externalSteps_eq (vertexAncestry hT hu) (vertexAncestry hT (.inr hs))
    (splitIndex_siblings _ _ _), endEnter_eq hT hs, List.append_nil]
  rfl

theorem traversal_eq (hs : s ∈ F.states) (ht : t ∈ (M.topology.vertex s).outgoing) {w : VertexId}
    (hw : w ∈ F.states) (htarget : (M.topology.transition t).target = some w) :
    M.compile.traversal t = M.compile.leave (.vertex s) ++ (M.effects t).map .behavior ++
      M.compile.beginEnter (.vertex w) := by
  obtain ⟨hmem, hfirst⟩ := of_outgoing hT hs ht
  rw [traversal_compile hmem, traversalSteps, F.kind t hmem hfirst, htarget,
    (hT.mem_outgoing s t ht).2]
  exact externalSteps_eq hT (.inr hs) hw _

theorem traversal_first : M.compile.traversal F.first =
    M.compile.leave (.vertex F.initial) ++ (M.effects F.first).map .behavior ++
      M.compile.beginEnter (.vertex F.start) := by
  have hstays : M.staysWithin F.initial F.start = false := by
    have hne : F.initial ≠ F.start := fun h => initial_notMem (h ▸ F.start_mem)
    refine Bool.eq_false_iff.2 fun h => ?_
    rcases Bool.or_eq_true_iff.1 h with h | h
    · exact hne (of_decide_eq_true h).symm
    · obtain ⟨hmem, -⟩ := Topology.isDescendant_iff.1 h
      rw [vertexAncestry hT (.inr F.start_mem)] at hmem
      simp [hne, ne_root hT (F := F) (.inl rfl)] at hmem
  rw [traversal_compile (first_mem hT), traversalSteps, F.target_first, source_first hT]
  cases hkind : (M.topology.transition F.first).kind with
  | internal => exact absurd hkind F.kind_first
  | external => exact externalSteps_eq hT (.inl rfl) F.start_mem _
  | within =>
    -- A local transition that ends outside its source is compiled like an external one.
    dsimp only
    rw [hstays, if_neg Bool.false_ne_true]
    exact externalSteps_eq hT (.inl rfl) F.start_mem _

/-! ## How the engine runs it -/

variable {n : Nat} {i : TableInstance} {trigger asked : Trigger} {w : VertexId}

theorem passing (hs : s ∈ F.states) :
    (Engine.passing M asked (M.topology.vertex s).outgoing).Enacts trigger [] i i
      ((M.topology.vertex s).outgoing.filter fun t => asked.isMessage (F.label t)) :=
  .passing fun t ht context => by
    obtain ⟨hmem, hfirst⟩ := of_outgoing hT hs ht
    rw [F.guard t hmem hfirst]
    rfl

omit hT in
/-- An offer that nothing beneath takes comes to nothing where no transition passes. -/
theorem offer_none {P : Program σ} {v : VertexId}
    (hbeneath : (Engine.offerBeneath M (engine M P n) v asked).Enacts trigger [] i i false)
    (hpassing : (Engine.passing M asked (M.topology.vertex v).outgoing).Enacts trigger [] i i []) :
    ((engine M P (n + 1)).offer v asked).Enacts trigger [] i i false :=
  (Run.Enacts.record rfl).after (hbeneath.after (hpassing.after .pure))

omit hT in
theorem offerBeneath_completion {P : Program σ} (v : VertexId) :
    (Engine.offerBeneath M (engine M P n) v (.completion v)).Enacts trigger [] i i false := by
  have hpure : Engine.offerBeneath M (engine (ι := TableInstance) M P n) v (.completion v) =
      pure false := if_pos (decide_eq_true rfl)
  rw [hpure]
  exact .pure

/-- No transition waits for a completion. -/
theorem offer_completion (hv : v = Topology.root ∨ v ∈ F.states) :
    ((engine M M.compile (n + 1)).offer v (.completion v)).Enacts trigger [] i i false := by
  refine offer_none (offerBeneath_completion v) ?_
  rcases hv with rfl | hv
  · rw [F.outgoing_root hT]
    exact .pure
  · have hnone : ((M.topology.vertex v).outgoing.filter fun t =>
        (Trigger.completion v).isMessage (F.label t)) = [] :=
      List.filter_eq_nil_iff.2 fun _ _ => Bool.false_ne_true
    exact hnone ▸ passing hT hv

theorem offerCompletion (hv : v = Topology.root ∨ v ∈ F.states) :
    (Engine.offerCompletion M (engine M M.compile (n + 1)) v).Enacts trigger [] i i () := by
  refine (Run.Enacts.read (a := Instance.isComplete M.topology i v) fun _ hs => by rw [hs]).after ?_
  split
  · exact (offer_completion hT hv).after .pure
  · exact .pure

/-- A transition to a state runs what leaves its source, its effects and the entry of the state. -/
theorem fire (hw : w ∈ F.states) {u : VertexId} {as : List (Action σ)}
    (ht : t ∈ M.topology.transitions) (htarget : (M.topology.transition t).target = some w)
    (htraversal : M.compile.traversal t = M.compile.leave (.vertex u) ++
      (M.effects t).map .behavior ++ M.compile.beginEnter (.vertex w))
    (hleave : ((engine M M.compile (n + 1)).performAll trigger false
      (M.compile.leave (.vertex u))).Enacts trigger as i i ()) :
    ((engine M M.compile (n + 2)).fire t trigger).Enacts trigger
      (as ++ M.effects t ++ (M.stateBehavior w).entry) i (i.setCurrent M.topology F.region w)
      true := by
  have hkind := Topology.isState_iff_pseudoKind?.1 (F.isState w hw)
  have hlegs : ((engine M M.compile (n + 1)).legs t trigger).Enacts trigger [] i i [t] := by
    have hlast : M.topology.junctionAfter t = none := by
      rw [Topology.junctionAfter, htarget, Option.filter_some, hkind]
      rfl
    show (Engine.legsFrom M (engine M M.compile n) t trigger).Enacts trigger [] i i [t]
    rw [legsFrom_last hlast]
    exact .pure
  have henter : ((engine M M.compile (n + 1)).performAll trigger false
      (M.compile.beginEnter (.vertex w))).Enacts trigger (M.stateBehavior w).entry i
        (i.setCurrent M.topology F.region w) () := by
    rw [beginEnter_eq hT hw]
    exact .performAll_cons (.enter _) (.performAll_cons (.setCurrent _ _)
      (.behaviors (F.entry w (mem_vertices hT (.inr hw)))))
  have hsteps : ((engine M M.compile (n + 1)).performAll trigger false
      (M.compile.traversal t)).Enacts trigger
        (as ++ M.effects t ++ (M.stateBehavior w).entry) i (i.setCurrent M.topology F.region w) () := by
    rw [htraversal]
    exact .performAll_append (.performAll_append hleave (.behaviors (F.effects t ht))) henter
  have hlead : (Engine.leadOn M (engine M M.compile (n + 1)) trigger w).Enacts trigger []
      (i.setCurrent M.topology F.region w) (i.setCurrent M.topology F.region w) () := by
    unfold Engine.leadOn
    rw [hkind, if_neg (by simp), if_pos (F.isState w hw)]
    exact offerCompletion hT (.inr hw)
  show (Engine.fireTransition M M.compile (engine M M.compile (n + 1)) t trigger).Enacts ..
  refine hlegs.after (.before (a := ()) ((Run.Enacts.record rfl).after (hsteps.before .pure)) ?_)
  rw [List.getLast?_singleton, Option.getD_some, htarget]
  exact hlead.after .pure

variable {message : String}

omit hT in
variable (F) in
/-- The transitions of a state that pass for a message. -/
theorem filter_isMessage (ts : List TransitionId) :
    (ts.filter fun t => (Trigger.message message).isMessage (F.label t)) =
      ts.filter fun t => F.label t = message :=
  List.filter_congr fun _ _ => decide_eq_decide.2 eq_comm

theorem of_taken (hs : s ∈ F.states) (ht : F.taken s message = some t) :
    t ∈ (M.topology.vertex s).outgoing ∧ F.next s message ∈ F.states ∧
      (M.topology.transition t).target = some (F.next s message) := by
  have hmem : t ∈ (M.topology.vertex s).outgoing := by
    unfold taken at ht
    split at ht
    · rename_i u hu
      obtain rfl := Option.some.inj ht
      exact (List.mem_filter.1 (hu ▸ List.mem_singleton_self u)).1
    · cases ht
  obtain ⟨w, hw, htarget⟩ := F.target t (of_outgoing hT hs hmem).1 (of_outgoing hT hs hmem).2
  have hnext : F.next s message = w := by
    rw [next, ht, Option.bind_some, htarget, Option.getD_some]
  exact ⟨hmem, hnext ▸ hw, hnext ▸ htarget⟩

/-- A state takes a message along the only transition that waits for it. -/
theorem offer_state (hs : s ∈ F.states) :
    ((engine M M.compile (n + 3)).offer s (.message message)).Enacts (.message message)
      (F.deeds s message) i (F.moved i s message) (F.taken s message).isSome := by
  have hbeneath : (Engine.offerBeneath M (engine M M.compile (n + 2)) s (.message message)).Enacts
      (.message message) [] i i false := by
    unfold Engine.offerBeneath
    rw [F.regions s hs]
    exact .pure
  refine (Run.Enacts.record rfl).after (hbeneath.after ((passing hT hs).after ?_))
  rw [F.filter_isMessage]
  rcases hts : (M.topology.vertex s).outgoing.filter fun t => F.label t = message with
    _ | ⟨t, _ | ⟨u, ts⟩⟩
  case nil =>
    have htaken : F.taken s message = none := by rw [taken, hts]
    rw [deeds, moved, htaken]
    exact .pure
  case cons.nil =>
    have htaken : F.taken s message = some t := by rw [taken, hts]
    obtain ⟨hmem, hnext, htarget⟩ := of_taken hT hs htaken
    have hleave : ((engine M M.compile (n + 1)).performAll (.message message) false
        (M.compile.leave (.vertex s))).Enacts (.message message) (M.stateBehavior s).exit i i () := by
      rw [leave_eq hT hs]
      exact .performAll_cons (.leave _) (.behaviors (F.exit s (mem_vertices hT (.inr hs))))
    rw [deeds, moved, htaken]
    exact (Run.Enacts.record rfl).after (fire hT hnext (of_outgoing hT hs hmem).1 htarget
      (traversal_eq hT hs hmem hnext htarget) hleave)
  case cons.cons =>
    -- The ambiguity is told of, and no transition taken.
    have htaken : F.taken s message = none := by rw [taken, hts]
    rw [deeds, moved, htaken]
    exact (Run.Enacts.report F.onError _).after .pure

/-- The root is complete when the state is final, and waits for nothing. -/
theorem offer_root (hs : s ∈ F.states) (hi : F.At i s) :
    ((engine M M.compile (n + 4)).offer Topology.root (.message message)).Enacts (.message message)
      (F.deeds s message) i (F.moved i s message) (F.taken s message).isSome := by
  have hbeneath : (Engine.offerBeneath M (engine M M.compile (n + 3)) Topology.root
      (.message message)).Enacts (.message message) (F.deeds s message) i (F.moved i s message)
        (F.taken s message).isSome := by
    unfold Engine.offerBeneath
    rw [F.regions_root]
    refine (Run.Enacts.read (a := some s) fun _ hj => hj ▸ hi.1).after
      ((offer_state hT hs).before ?_)
    cases (F.taken s message).isSome with
    | false => exact .pure
    | true =>
      exact (Run.Enacts.read (a := true) fun _ _ => hT.isActiveIn_root).after
        (Run.Enacts.pure.after .pure)
  refine (Run.Enacts.record rfl).after (hbeneath.before ?_)
  cases (F.taken s message).isSome with
  | false =>
    rw [F.outgoing_root hT]
    exact .after .pure .pure
  | true => exact (offerCompletion (F := F) hT (.inl rfl)).after .pure

/-! ## The first entry -/

variable (F) in
/-- The pseudostate is entered and resumed along the first transition. -/
theorem resume : ((engine M M.compile (n + 3)).perform (.resume F.initial) trigger false).Enacts
    trigger (M.effects F.first ++ (M.stateBehavior F.start).entry) i
      (i.setCurrent M.topology F.region F.start) () := by
  have hhistory : (Engine.historyState M F.initial false : Run σ TableInstance _).Enacts trigger []
      i i none := by
    unfold Engine.historyState
    rw [parent hT (.inl rfl), F.kind_initial]
    exact .pure
  have hleave : ((engine M M.compile (n + 1)).performAll trigger false
      (M.compile.leave (.vertex F.initial))).Enacts trigger [] i i () := by
    rw [leave_pseudo hT (mem_vertices hT (.inl rfl))
      (Topology.kind_of_pseudoKind? F.kind_initial)]
    exact .performAll_cons (.leave _) .pure
  have hfire := fire hT F.start_mem (first_mem hT) F.target_first (traversal_first hT) hleave
  refine hhistory.after ?_
  rw [F.outgoing_initial]
  exact hfire.before .pure

variable (F) in
theorem onInitialise : ((engine M M.compile (n + 3)).performAll trigger false
    M.compile.onInitialise).Enacts trigger F.opening i
      ((i.setCurrent M.topology F.region F.initial).setCurrent M.topology F.region F.start) () := by
  have hroot : ((engine M M.compile (n + 3)).performAll trigger false
      (M.compile.beginEnter (.vertex Topology.root))).Enacts trigger
        (M.stateBehavior Topology.root).entry i i () := by
    rw [beginEnter_state hT Topology.root_mem_vertices hT.isState_root, currentSteps,
      hT.root_parent]
    exact .performAll_cons (.enter _) (.behaviors (F.entry _ Topology.root_mem_vertices))
  have hinitial := mem_vertices hT (F := F) (.inl rfl)
  have hkind := Topology.kind_of_pseudoKind? F.kind_initial
  have hregion : M.regionEntry M.compile F.region =
      [.enter (.vertex F.initial), .setCurrent F.region F.initial, .resume F.initial] := by
    have hhistory : M.topology.isHistory F.initial = false := by
      unfold Topology.isHistory
      rw [F.kind_initial]
      rfl
    unfold regionEntry
    rw [F.regionInitial, F.owner_region hT, hT.deepAbove_root]
    dsimp only
    rw [hhistory, Program.enter, beginEnter_pseudo hT hinitial hkind,
      endEnter_pseudo hT hinitial hkind, currentSteps_of_parent (parent hT (.inl rfl))]
    rfl
  have henter : M.compile.endEnter (.vertex Topology.root) = [.enter (.region F.region),
      .enter (.vertex F.initial), .setCurrent F.region F.initial, .resume F.initial] := by
    rw [endEnter_state hT Topology.root_mem_vertices hT.isState_root, F.regions_root,
      List.flatMap_singleton, Program.enter, beginEnter_region hT F.region_mem,
      endEnter_region hT F.region_mem, hregion]
    rfl
  rw [onInitialise_compile, Program.enter, henter]
  exact .performAll_append hroot (.performAll_cons (.enter _) (.performAll_cons (.enter _)
    (.performAll_cons (.setCurrent _ _) ((resume F hT).before .pure))))

omit hT in
theorem at_setCurrent (hs : s ∈ F.states) (hi : i.terminated = false) :
    F.At (i.setCurrent M.topology F.region s) s := by
  refine ⟨?_, hi⟩
  show (if M.topology.isState s then i.lastKnown.insert F.region s else i.lastKnown).get? _ = _
  rw [if_pos (F.isState s hs), Assoc.get?_insert, if_pos rfl]

variable (message) in
/-- The instance is in the state that the automaton goes to. -/
theorem at_moved (hs : s ∈ F.states) (hi : F.At i s) :
    F.next s message ∈ F.states ∧ F.At (F.moved i s message) (F.next s message) := by
  unfold moved
  cases htaken : F.taken s message with
  | none =>
    have hnext : F.next s message = s := by
      rw [next, htaken]
      rfl
    rw [hnext]
    exact ⟨hs, hi⟩
  | some t =>
    obtain ⟨-, hnext, -⟩ := of_taken hT hs htaken
    exact ⟨hnext, at_setCurrent hnext hi.2⟩

/-- In the state the root and the state are active, and nothing else. -/
theorem isActive_iff (hi : F.At i s) (hv : v ∈ M.topology.vertices) :
    Instance.isActive M.topology i v ↔ v = Topology.root ∨ v = s := by
  have hroot : Instance.isActive M.topology i Topology.root := hT.isActiveIn_root
  rcases eq_root_or_mem (F := F) hT hv with rfl | hmem
  · exact iff_of_true hroot (.inl rfl)
  · have hactive : Instance.isActive M.topology i v ↔
        Instance.isActive M.topology i (M.topology.region F.region).parent ∧
          Instance.lastKnown M.topology F.region i = some v :=
      hT.isActiveIn_of_parent (parent hT hmem)
    have hlast : Instance.lastKnown M.topology F.region i = some s := hi.1
    rw [F.owner_region hT, hlast] at hactive
    refine hactive.trans ⟨fun h => .inr (Option.some.inj h.2).symm, fun h => ?_⟩
    exact ⟨hroot, congrArg some (h.resolve_left (ne_root hT hmem)).symm⟩

omit hT in
/-- The machine is complete where the automaton accepts. -/
theorem isComplete_iff (hi : F.At i s) :
    Instance.isComplete M.topology i Topology.root ↔ s ∈ F.automaton.accept := by
  have hlast : Instance.lastKnown M.topology F.region i = some s := hi.1
  unfold Instance.isComplete Instance.isCompleteRegion
  rw [F.regions_root, List.all_cons, List.all_nil, Bool.and_true, hlast]
  exact Iff.rfl

/-! ## Calls -/

variable (F) in
theorem startRun : (M.startRun (n + 3) M.compile).Enacts .initialise F.opening i
    ((i.setCurrent M.topology F.region F.initial).setCurrent M.topology F.region F.start) () :=
  (Run.Enacts.read (a := i.name) fun _ hj => congrArg TableInstance.name hj).after
    ((Run.Enacts.say _ _).after (onInitialise F hT))

variable (message) in
theorem evaluateRun (hs : s ∈ F.states) (hi : F.At i s) :
    (M.evaluateRun (n + 4) message M.compile).Enacts (.message message) (F.deeds s message) i
      (F.moved i s message) (F.taken s message).isSome :=
  (Run.Enacts.read (a := i.name) fun _ hj => congrArg TableInstance.name hj).after
    ((Run.Enacts.say _ _).after ((Run.Enacts.trace _).after
      ((Run.Enacts.read (a := false) fun _ hj => hj ▸ hi.2).after (offer_root hT hs hi))))

end

/-- A model that was compiled is flat as before. -/
def ready (source : IndexSource) : (M.ready source).Flat :=
  { F with }

variable {allowed : Edit σ → Prop} (hM : M.Reachable allowed) {depth : Nat}
include hM

theorem start_call (hdepth : 4 ≤ depth) (env : σ) {i : TableInstance} (hi : i.terminated = false) :
    (M.start depth env i).result = .value () ∧
      (M.start depth env i).machine = M.ready M.settings.source ∧
      F.At (M.start depth env i).inst F.start ∧
      Performs .initialise F.opening env ((M.start depth env i).events.filter Event.isAct)
        (M.start depth env i).env := by
  obtain ⟨n, rfl⟩ := Nat.exists_eq_add_of_le' hdepth
  have hstart : M.start (n + 4) env i = _ :=
    hM.whenClean_ready env i fun N => N.startRun (n + 4)
  have hrun := (F.ready M.settings.source).startRun (n := n + 1) (i := i)
    (hM.ready M.settings.source).wellFormed
  obtain ⟨hresult, hmachine, hinst, hacts⟩ := hrun.outcome (M := M) env M.settings.source
  rw [hstart]
  exact ⟨hresult, hmachine, hinst ▸ at_setCurrent F.start_mem hi, hacts⟩

theorem evaluate_call (hdepth : 4 ≤ depth) (env : σ) {i : TableInstance} {s : VertexId}
    (hs : s ∈ F.states) (hi : F.At i s) (message : String) :
    (M.evaluate depth env i message).result = .value (F.taken s message).isSome ∧
      (M.evaluate depth env i message).machine = M.ready M.settings.source ∧
      (M.evaluate depth env i message).inst = F.moved i s message ∧
      Performs (.message message) (F.deeds s message) env
        ((M.evaluate depth env i message).events.filter Event.isAct)
        (M.evaluate depth env i message).env := by
  obtain ⟨n, rfl⟩ := Nat.exists_eq_add_of_le' hdepth
  have hevaluate : M.evaluate (n + 4) env i message = _ :=
    hM.whenClean_ready env i fun N => N.evaluateRun (n + 4) message
  have hrun := evaluateRun (F := F.ready M.settings.source) (n := n)
    (hM.ready M.settings.source).wellFormed message hs hi
  rw [hevaluate]
  exact hrun.outcome (M := M) env M.settings.source

end Machine.Flat

/-! ## Messages in a row -/

/-- The model and the instance after messages, each with the environment in which it is
evaluated. -/
def Machine.afterMessages (M : Machine σ) (depth : Nat) (i : TableInstance) :
    List (σ × String) → Machine σ × TableInstance
  | [] => (M, i)
  | (env, message) :: rest =>
    (M.evaluate depth env i message).machine.afterMessages depth
      (M.evaluate depth env i message).inst rest

namespace Machine.Flat

variable {M : Machine σ}

/-- The model `N` does with the instance what the automaton does from the state `s`. The state is
what is active besides the root, and the machine is complete if the automaton accepts. Any message,
in any environment, is answered by whether the automaton has a transition for it, and the actions
that are run are those on its way. -/
structure Stands (F : M.Flat) (depth : Nat) (N : Machine σ) (i : TableInstance) (s : VertexId) :
    Prop where
  mem : s ∈ F.states
  isActive_iff : ∀ v ∈ M.topology.vertices,
    Instance.isActive N.topology i v ↔ v = Topology.root ∨ v = s
  isComplete_iff : Instance.isComplete N.topology i Topology.root ↔ s ∈ F.automaton.accept
  result : ∀ env message,
    (N.evaluate depth env i message).result = .value (F.taken s message).isSome
  performs : ∀ env message, Performs (.message message) (F.deeds s message) env
    ((N.evaluate depth env i message).events.filter Event.isAct)
    (N.evaluate depth env i message).env

variable (F : M.Flat) {allowed : Edit σ → Prop} (hM : M.Reachable allowed) {depth : Nat}
include hM

/-- Messages leave a compiled model as it is, and take the instance along with the automaton. -/
theorem at_afterMessages (hready : M.ready M.settings.source = M) (hdepth : 4 ≤ depth) :
    ∀ (told : List (σ × String)) {i : TableInstance} {s : VertexId}, s ∈ F.states → F.At i s →
      (M.afterMessages depth i told).1 = M ∧
        F.automaton.evalFrom s (told.map Prod.snd) ∈ F.states ∧
        F.At (M.afterMessages depth i told).2 (F.automaton.evalFrom s (told.map Prod.snd))
  | [], _, _, hs, hi => ⟨rfl, hs, hi⟩
  | (env, message) :: rest, i, s, hs, hi => by
    obtain ⟨-, hmachine, hinst, -⟩ := F.evaluate_call hM hdepth env hs hi message
    obtain ⟨hnext, hat⟩ := at_moved hM.wellFormed message hs hi
    rw [afterMessages, hmachine, hready, hinst]
    exact at_afterMessages hready hdepth rest hnext hat

/-- Entered with a new instance, a flat machine stands after any messages where its automaton is
then. -/
theorem runs_automaton (hdepth : 4 ≤ depth) (name : String) (env : σ)
    (told : List (σ × String)) :
    let started := M.start depth env (⟨name, {}, {}, false⟩ : TableInstance)
    let after := started.machine.afterMessages depth started.inst told
    started.result = .value () ∧
      F.Stands depth after.1 after.2 (F.automaton.eval (told.map Prod.snd)) := by
  intro started after
  obtain ⟨hresult, hmachine, hat, -⟩ :=
    F.start_call hM hdepth env (i := ⟨name, {}, {}, false⟩) rfl
  let N := M.ready M.settings.source
  let G := F.ready M.settings.source
  have hN : N.Reachable allowed := hM.ready M.settings.source
  have hafter : after = N.afterMessages depth started.inst told :=
    congrArg (fun K : Machine σ => K.afterMessages depth started.inst told) hmachine
  obtain ⟨hmachine, hmem, hat⟩ := G.at_afterMessages hN (ready_ready _ _) hdepth told F.start_mem hat
  rw [← hafter] at hmachine hat
  have hcall := fun env message => G.evaluate_call hN hdepth env hmem hat message
  refine ⟨hresult, ?_⟩
  rw [hmachine]
  exact {
    mem := hmem
    isActive_iff := fun v hv => isActive_iff hN.wellFormed hat hv
    isComplete_iff := isComplete_iff hat
    result := fun env message => (hcall env message).1
    performs := fun env message => (hcall env message).2.2.2 }

end Machine.Flat

/-- A turnstile that lets through whoever has paid, and is undecided about a push that comes before.
Its actions leave notes in the environment. -/
def turnstile : Machine (List String) :=
  let note (text : String) : Action (List String) := fun _ env => { env := env ++ [text] }
  .build "turnstile" {} [
    .addVertex "i" (.state ⟨0⟩) (.pseudo .initial), .addVertex "shut" (.state ⟨0⟩) .state,
    .addVertex "open" (.state ⟨0⟩) .state, .addTransition ⟨1⟩ (some ⟨2⟩),
    .addTransition ⟨2⟩ (some ⟨3⟩), .addTransition ⟨3⟩ (some ⟨3⟩), .addTransition ⟨3⟩ (some ⟨2⟩),
    .addTransition ⟨2⟩ (some ⟨2⟩), .addTransition ⟨2⟩ (some ⟨3⟩),
    .modifyState ⟨3⟩ fun b => { b with entry := [note "open"], exit := [note "close"] },
    .modifyTransition ⟨1⟩ fun t => { t with guard := .on "coin" },
    .modifyTransition ⟨2⟩ fun t => { t with guard := .on "coin", effects := [note "return"] },
    .modifyTransition ⟨3⟩ fun t => { t with guard := .on "push", effects := [note "pass"] },
    .modifyTransition ⟨4⟩ fun t => { t with guard := .on "push" },
    .modifyTransition ⟨5⟩ fun t => { t with guard := .on "push" }]

def turnstile.flat : turnstile.Flat where
  region := ⟨0⟩
  initial := ⟨1⟩
  states := [⟨2⟩, ⟨3⟩]
  first := ⟨0⟩
  start := ⟨2⟩
  label t := if t.index < 3 then "coin" else "push"
  regions_root := by decide +kernel
  vertices_iff v := by
    rw [show (turnstile.topology.region ⟨0⟩).vertices = [⟨1⟩, ⟨2⟩, ⟨3⟩] by decide +kernel,
      List.mem_cons]
  kind_initial := by decide +kernel
  isState := by decide +kernel
  regions := by decide +kernel
  outgoing_initial := by decide +kernel
  target_first := by decide +kernel
  start_mem := by decide +kernel
  kind_first := by decide +kernel
  kind := by decide +kernel
  source := by decide +kernel
  target := by decide +kernel
  guard := by
    rw [show turnstile.topology.transitions = [⟨0⟩, ⟨1⟩, ⟨4⟩, ⟨5⟩, ⟨2⟩, ⟨3⟩] by decide +kernel]
    simp only [List.forall_mem_cons]
    exact ⟨fun h => absurd rfl h, fun _ => rfl, fun _ => rfl, fun _ => rfl, fun _ => rfl,
      fun _ => rfl, List.forall_mem_nil _⟩
  onError := rfl
  entry := by
    rw [show turnstile.topology.vertices = [⟨0⟩, ⟨1⟩, ⟨2⟩, ⟨3⟩] by decide +kernel]
    simp only [List.forall_mem_cons]
    exact ⟨List.forall_mem_nil _, List.forall_mem_nil _, List.forall_mem_nil _,
      List.forall_mem_singleton.2 fun _ _ => rfl, List.forall_mem_nil _⟩
  exit := by
    rw [show turnstile.topology.vertices = [⟨0⟩, ⟨1⟩, ⟨2⟩, ⟨3⟩] by decide +kernel]
    simp only [List.forall_mem_cons]
    exact ⟨List.forall_mem_nil _, List.forall_mem_nil _, List.forall_mem_nil _,
      List.forall_mem_singleton.2 fun _ _ => rfl, List.forall_mem_nil _⟩
  effects := by
    rw [show turnstile.topology.transitions = [⟨0⟩, ⟨1⟩, ⟨4⟩, ⟨5⟩, ⟨2⟩, ⟨3⟩] by decide +kernel]
    simp only [List.forall_mem_cons]
    exact ⟨List.forall_mem_nil _, List.forall_mem_nil _, List.forall_mem_nil _,
      List.forall_mem_nil _, List.forall_mem_singleton.2 fun _ _ => rfl,
      List.forall_mem_singleton.2 fun _ _ => rfl, List.forall_mem_nil _⟩

/-- After a push that comes to nothing and a coin the turnstile is open: a second coin comes back,
and a push shuts it. -/
theorem turnstile_runs :
    let started := turnstile.start 4 [] (⟨"i", {}, {}, false⟩ : TableInstance)
    let after := started.machine.afterMessages 4 started.inst [([], "push"), ([], "coin")]
    let coin := after.1.evaluate 4 [] after.2 "coin"
    let push := coin.machine.evaluate 4 [] coin.inst "push"
    turnstile.Reachable (fun _ => True) ∧ 4 ≤ 4 ∧ started.result = .value () ∧
      turnstile.flat.Stands 4 after.1 after.2 ⟨3⟩ ∧
      coin.result = .value true ∧ coin.env = ["close", "return", "open"] ∧
      push.result = .value true ∧ push.env = ["close", "pass"] ∧
      (push.machine.evaluate 4 [] push.inst "push").result = .value false := by
  intro started after coin push
  have hM : turnstile.Reachable fun _ => True := .build (by decide +kernel) fun _ _ => trivial
  obtain ⟨hstarted, hstands⟩ := turnstile.flat.runs_automaton hM (Nat.le_refl 4) "i" []
    [([], "push"), ([], "coin")]
  exact ⟨hM, Nat.le_refl 4, hstarted, hstands, by decide +kernel⟩

end Hsm
