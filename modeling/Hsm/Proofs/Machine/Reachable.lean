import Hsm.Machine.Edit
import Hsm.Program.Compile
import Hsm.Proofs.Topology.Grown
import Hsm.Proofs.Topology.Marked

/-!
# Models that can be built

A model grows by edits from one that has only its root; between the edits it may be compiled and
used, which leaves it clean and moves its source of choices (`Machine.Reachable`). Its topology is
well-formed, and as long as it is clean its program is the one of its present form.
-/

namespace Hsm

variable {σ : Type}

/-- One edit of a model. -/
inductive Edit (σ : Type)
  | setSettings (settings : Settings)
  | setSeparator (separator : String)
  | addRegion (name : String) (state : VertexId)
  | defaultRegion (state : VertexId)
  | addVertex (name : String) (place : Place) (kind : VertexKind)
  | addTransition (source : VertexId) (target : Option VertexId)
  | setTransitionKind (t : TransitionId) (kind : TransitionKind)
  | modifyTransition (t : TransitionId) (f : TransitionBehavior σ → TransitionBehavior σ)
  | modifyState (v : VertexId) (f : StateBehavior σ → StateBehavior σ)
  | removeTransition (t : TransitionId)
  | removeVertex (v : VertexId)
  | removeRegion (r : RegionId)

namespace Edit

/-- The handles that the edit builds on exist, and only states get regions. A model has one
machine. -/
def Valid (T : Topology) : Edit σ → Prop
  | addRegion _ state | defaultRegion state => state.index < T.vertexNodes.size ∧ T.isState state
  | addVertex _ place kind => T.Valid place ∧ kind ≠ .machine
  | addTransition source target =>
    source.index < T.vertexNodes.size ∧ ∀ x ∈ target, x.index < T.vertexNodes.size
  | _ => True

instance (T : Topology) : ∀ place : Place, Decidable (T.Valid place)
  | .region r => inferInstanceAs (Decidable (r.index < _))
  | .state v => inferInstanceAs (Decidable (v.index < _ ∧ _))

instance (T : Topology) : ∀ e : Edit σ, Decidable (e.Valid T)
  | addRegion _ state | defaultRegion state => inferInstanceAs (Decidable (state.index < _ ∧ _))
  | addVertex _ place kind => inferInstanceAs (Decidable (T.Valid place ∧ kind ≠ _))
  | addTransition source target =>
    inferInstanceAs (Decidable (source.index < _ ∧ ∀ x ∈ target, x.index < _))
  | setSettings _ | setSeparator _ | setTransitionKind _ _ | modifyTransition _ _
  | modifyState _ _ | removeTransition _ | removeVertex _ | removeRegion _ =>
    inferInstanceAs (Decidable True)

def removes : Edit σ → Bool
  | removeTransition _ | removeVertex _ | removeRegion _ => true
  | _ => false

def apply (M : Machine σ) : Edit σ → Machine σ
  | setSettings settings => M.setSettings settings
  | setSeparator separator => M.setSeparator separator
  | addRegion name state => (M.addRegion name state).2
  | defaultRegion state => (M.defaultRegion state).2
  | addVertex name place kind => (M.addVertex name place kind).2
  | addTransition source target => (M.addTransition source target).2
  | setTransitionKind t kind => M.setTransitionKind t kind
  | modifyTransition t f => M.modifyTransition t f
  | modifyState v f => M.modifyState v f
  | removeTransition t => (M.removeTransition t).toOption.getD M
  | removeVertex v => (M.removeVertex v).toOption.getD M
  | removeRegion r => (M.removeRegion r).toOption.getD M

/-- Each edit is valid where it is made, after those before it. -/
def AllValid (M : Machine σ) : List (Edit σ) → Prop
  | [] => True
  | e :: es => e.Valid M.topology ∧ AllValid (e.apply M) es

instance AllValid.decidable : ∀ (M : Machine σ) (es : List (Edit σ)), Decidable (AllValid M es)
  | _, [] => inferInstanceAs (Decidable True)
  | M, e :: es => have := decidable (e.apply M) es; inferInstanceAs (Decidable (_ ∧ _))

end Edit

/-- The model that edits make of one that has only its root. -/
def Machine.build (name : String) (settings : Settings) (edits : List (Edit σ)) : Machine σ :=
  edits.foldl (fun M e => e.apply M) (.ofName name settings)

/-- Models that can be built by edits of which each is allowed. -/
inductive Machine.Reachable (allowed : Edit σ → Prop) : Machine σ → Prop
  | ofName (name : String) (settings : Settings) : Reachable allowed (.ofName name settings)
  | edit {M : Machine σ} {e : Edit σ} : Reachable allowed M → e.Valid M.topology → allowed e →
    Reachable allowed (e.apply M)
  | initialise {M : Machine σ} : Reachable allowed M → Reachable allowed M.initialise
  | draw {M : Machine σ} (source : IndexSource) : Reachable allowed M →
    Reachable allowed { M with settings.source := source }

theorem Topology.WellFormed.setSeparator {T : Topology} (hT : T.WellFormed) (separator : String) :
    WellFormed { T with separator := separator } :=
  ⟨hT.root_lt, hT.root_parent, hT.root_kind, hT.eq_root, hT.parent_lt, hT.region_parent_lt,
    hT.mem_vertices, hT.mem_regions, hT.nodup_vertices, hT.nodup_regions, hT.default_lt,
    hT.isState_of_regions, hT.mem_outgoing⟩

namespace Edit

/-- A removal makes the lists of the topology shorter at most. -/
theorem trims_of_removes {M : Machine σ} {e : Edit σ} (h : e.removes) :
    M.topology.Trims (e.apply M).topology := by
  cases e with
  | removeTransition t =>
    simp only [apply, Machine.removeTransition]
    split
    · exact Topology.trims_detachTransition _ t
    · exact .refl _
  | removeVertex v =>
    simp only [apply, Machine.removeVertex]
    split
    · exact .refl _
    · split
      · exact Topology.trims_detachVertex v
      · exact .refl _
  | removeRegion r =>
    simp only [apply, Machine.removeRegion]
    split
    · exact Topology.trims_detachRegion r
    · exact .refl _
  | _ => cases h

theorem wellFormed_apply {M : Machine σ} {e : Edit σ} (hM : M.topology.WellFormed)
    (h : e.Valid M.topology) : (e.apply M).topology.WellFormed := by
  cases e with
  | setSettings settings => exact hM
  | setSeparator separator => exact hM.setSeparator separator
  | addRegion name state => exact hM.addRegion h.1 h.2 name
  | defaultRegion state => exact (hM.defaultRegion h.1 h.2).1
  | addVertex name place kind => exact hM.addVertex h.1 name kind
  | addTransition source target => exact hM.addTransition source target .external
  | setTransitionKind t kind => exact (Topology.trims_setTransitionKind t kind).wellFormed hM
  | modifyTransition t f => exact hM
  | modifyState v f => exact hM
  | removeTransition t => exact (trims_of_removes rfl).wellFormed hM
  | removeVertex v => exact (trims_of_removes rfl).wellFormed hM
  | removeRegion r => exact (trims_of_removes rfl).wellFormed hM

theorem grown_apply {M : Machine σ} {e : Edit σ} (hM : M.topology.Grown)
    (h : e.Valid M.topology) (hr : ¬e.removes) : (e.apply M).topology.Grown := by
  cases e with
  | setSettings settings => exact hM
  | setSeparator separator =>
    exact ⟨hM.toWellFormed.setSeparator separator, hM.vertex_listed, hM.region_listed,
      hM.target_lt⟩
  | addRegion name state => exact hM.addRegion h.1 h.2 name
  | defaultRegion state => exact hM.defaultRegion h.1 h.2
  | addVertex name place kind => exact hM.addVertex h.1 name kind
  | addTransition source target => exact hM.addTransition h.2 .external
  | setTransitionKind t kind => exact hM.setTransitionKind t kind
  | modifyTransition t f => exact hM
  | modifyState v f => exact hM
  | removeTransition t | removeVertex v | removeRegion r => exact absurd rfl hr

theorem marked_apply {M : Machine σ} {e : Edit σ} (hM : M.topology.Marked)
    (h : e.Valid M.topology) : (e.apply M).topology.Marked := by
  have hW := wellFormed_apply hM.toWellFormed h
  cases e with
  | setSettings settings | modifyTransition t f | modifyState v f => exact hM
  | setSeparator separator =>
    have hsame : M.topology.SamePlaces { M.topology with separator := separator } :=
      ⟨rfl, rfl, fun _ => rfl, fun _ => rfl, fun _ => rfl⟩
    exact hsame.marked hW hM
  | addRegion name state => exact hM.addRegion h.1 h.2 name
  | defaultRegion state => exact hM.defaultRegion h.1 h.2
  | addVertex name place kind => exact hM.addVertex h.1 name kind
  | addTransition source target =>
    exact (Topology.samePlaces_addTransition source target .external).marked hW hM
  | setTransitionKind t kind =>
    have hsame : M.topology.SamePlaces (M.topology.setTransitionKind t kind) :=
      ⟨rfl, rfl, fun _ => rfl, fun _ => rfl, fun _ => rfl⟩
    exact hsame.marked hW hM
  | removeTransition t =>
    refine Topology.SamePlaces.marked ?_ hW hM
    simp only [apply, Machine.removeTransition]
    split
    · exact Topology.samePlaces_detachTransition _ t
    · exact .refl _
  | removeVertex v =>
    simp only [apply, Machine.removeVertex]
    split
    · exact hM
    · split
      · exact hM.detachVertex ‹_›
      · exact hM
  | removeRegion r =>
    simp only [apply, Machine.removeRegion]
    split
    · exact hM.detachRegion r
    · exact hM

/-- After an edit the model is dirty, unless the edit was refused. -/
theorem apply_dirty (M : Machine σ) (e : Edit σ) : (e.apply M).clean = false ∨ e.apply M = M := by
  cases e with
  | removeTransition t =>
    simp only [apply, Machine.removeTransition]
    split
    · exact .inl rfl
    · exact .inr rfl
  | removeVertex v =>
    simp only [apply, Machine.removeVertex]
    split
    · exact .inr rfl
    · split
      · exact .inl rfl
      · exact .inr rfl
  | removeRegion r =>
    simp only [apply, Machine.removeRegion]
    split
    · exact .inl rfl
    · exact .inr rfl
  | _ => exact .inl rfl

end Edit

namespace Machine

variable {M : Machine σ}

/-! ## What a program is compiled from -/

/-- The model after use: compiled or not, and with its source of choices elsewhere. -/
def used (M : Machine σ) (source : IndexSource) (clean : Bool) (program : Option (Program σ)) :
    Machine σ :=
  { M with settings.source := source, clean := clean, program := program }

variable (M) (source : IndexSource) (clean : Bool) (program : Option (Program σ))

theorem draftWithin_used : ∀ n, (M.used source clean program).draftWithin n = M.draftWithin n
  | 0 => rfl
  | n + 1 => by
    funext v deepAbove D
    unfold draftWithin
    rw [draftWithin_used n]
    rfl

/-- Use does not change what a model compiles to. -/
theorem compile_used : (M.used source clean program).compile = M.compile := by
  unfold compile draft
  rw [draftWithin_used]
  rfl

namespace Reachable

variable {M} {allowed : Edit σ → Prop}

theorem edits : ∀ (es : List (Edit σ)) {N : Machine σ}, N.Reachable allowed →
    Edit.AllValid N es → (∀ e ∈ es, allowed e) →
      (es.foldl (fun M e => e.apply M) N).Reachable allowed
  | [], _, hN, _, _ => hN
  | e :: es, _, hN, hv, ha =>
    edits es (.edit hN hv.1 (ha e List.mem_cons_self)) hv.2
      fun e he => ha e (List.mem_cons_of_mem _ he)

theorem build {name : String} {settings : Settings} {es : List (Edit σ)}
    (hv : Edit.AllValid (.ofName name settings) es) (ha : ∀ e ∈ es, allowed e) :
    (Machine.build name settings es).Reachable allowed :=
  edits es (.ofName name settings) hv ha

theorem wellFormed (hM : M.Reachable allowed) : M.topology.WellFormed := by
  induction hM with
  | ofName name settings => exact Topology.wellFormed_ofName name
  | edit _ hv _ ih => exact Edit.wellFormed_apply ih hv
  | initialise _ ih => exact ih
  | draw source _ ih => exact ih

theorem marked (hM : M.Reachable allowed) : M.topology.Marked := by
  induction hM with
  | ofName name settings => exact Topology.marked_ofName name
  | edit _ hv _ ih => exact Edit.marked_apply ih hv
  | initialise _ ih => exact ih
  | draw source _ ih => exact ih

/-- A model built without removals lists everything that it has. -/
theorem grown (hM : M.Reachable fun e => ¬e.removes) : M.topology.Grown := by
  induction hM with
  | ofName name settings => exact Topology.grown_ofName name
  | edit _ hv he ih => exact Edit.grown_apply ih hv he
  | initialise _ ih => exact ih
  | draw source _ ih => exact ih

/-- A clean model holds the program of its present form. -/
theorem program_eq (hM : M.Reachable allowed) : M.clean → M.program = some M.compile := by
  induction hM with
  | ofName name settings => exact fun h => absurd h Bool.false_ne_true
  | @edit M e _ _ _ ih =>
    rcases e.apply_dirty M with h | h
    · exact fun hc => absurd (h.symm.trans hc) Bool.false_ne_true
    · rw [h]; exact ih
  | @initialise M _ _ =>
    exact fun _ => congrArg some (M.compile_used M.settings.source true (some M.compile)).symm
  | @draw M source _ ih =>
    exact fun h => (ih h).trans (congrArg some (M.compile_used source M.clean M.program).symm)

end Reachable

end Machine

end Hsm
