import Hsm.Proofs.Engine.Rules
import Hsm.Proofs.Instance.Sound
import Hsm.Proofs.Machine.Calls

/-!
# Configurations are complete

A model in which every region has an entry point, and pseudostates lead on within their region,
never rests half entered: an active state has an active state in each of its regions
(`active_child`). While a run is under way, regions are left open for steps that come later; a
step closes some and may open others (`Step.Closes`, `Step.Opens`), and what the operations of the
engine leave open is what their callers go on to close (`Machine.Closes`).
-/

namespace Hsm

variable {σ ι : Type}

namespace Topology

variable (T : Topology)

/-- Every region in the model has a state, or an initial or history pseudostate, as entry point,
and the transitions out of pseudostates stay in their region. -/
structure Enters : Prop where
  initial : ∀ r ∈ T.regions, (T.region r).vertices ≠ [] →
    ∃ v ∈ T.regionInitial r, T.isState v ∨ (T.pseudoKind? v).any PseudoKind.isInitial
  leading : ∀ t ∈ T.transitions, ¬T.isState (T.transition t).source →
    (T.transition t).kind = .external ∧ ∃ x ∈ (T.transition t).target,
      (T.vertex x).parent = (T.vertex (T.transition t).source).parent

/-- What is open between the halves of the entry of an element: of a region itself, of a state its
regions, and of a pseudostate its own region unless it ends the run. -/
def OpenWithin : Element → RegionId → Prop
  | .region s, r => r = s
  | .vertex v, r => T.isState v ∧ r ∈ (T.vertex v).regions
    ∨ ∃ k, T.pseudoKind? v = some k ∧ k ≠ .terminate ∧ (T.vertex v).parent = some r

/-- What is still open once an element is entered: the region of a choice or junction. -/
def OpenAfter : Element → RegionId → Prop
  | .region _, _ => False
  | .vertex v, r => (T.pseudoKind? v = some .choice ∨ T.pseudoKind? v = some .junction)
    ∧ (T.vertex v).parent = some r

/-- What a transition has to close: the region of the pseudostate that it leads out of. -/
def OpenBefore (t : TransitionId) (r : RegionId) : Prop :=
  ¬T.isState (T.transition t).source ∧ (T.vertex (T.transition t).source).parent = some r

/-- What a transition leaves open at its end. -/
def OpenBeyond (t : TransitionId) (r : RegionId) : Prop :=
  ∃ x, (T.transition t).target = some x ∧ T.OpenAfter (.vertex x) r

variable {T}

theorem not_openAfter {v : VertexId} {r : RegionId}
    (h : T.isState v ∨ (T.pseudoKind? v).any PseudoKind.isInitial) :
    ¬T.OpenAfter (.vertex v) r := by
  rintro ⟨hk | hk, -⟩ <;> rcases h with h | h
  · exact absurd h (not_isState_of_pseudoKind? hk)
  · rw [hk] at h; cases h
  · exact absurd h (not_isState_of_pseudoKind? hk)
  · rw [hk] at h; cases h

end Topology

/-- The regions that a step closes. -/
def Step.Closes (T : Topology) : Step σ → RegionId → Prop
  | .setCurrent s v, r => T.isState v ∧ r = s
  | .enterRegion s _, r => r = s
  | .resume v, r => (T.vertex v).parent = some r
  | .terminate, _ => True
  | _, _ => False

/-- The regions that a step leaves open. -/
def Step.Opens (T : Topology) : Step σ → RegionId → Prop
  | .setCurrent _ v, r => T.isState v ∧ r ∈ (T.vertex v).regions
  | .traverseWithin t, r => T.OpenBeyond t r
  | _, _ => False

section

variable [Instance ι]

namespace Instance

/-- Unless the run has ended, the regions of every state that is the last known of its region have
a last known state, but for those left open. -/
def Filled (T : Topology) (H : RegionId → Prop) (i : ι) : Prop :=
  isTerminated i ∨ ∀ v ∈ T.vertices, T.isState v →
    (∀ s, (T.vertex v).parent = some s → lastKnown T s i = some v) →
    ∀ r ∈ (T.vertex v).regions, (T.region r).vertices ≠ [] → (lastKnown T r i).isSome ∨ H r

variable {T : Topology} {H H' : RegionId → Prop} {i : ι}

theorem Filled.mono (h : Filled T H i)
    (hH : ∀ r ∈ T.regions, (T.region r).vertices ≠ [] → H r → H' r) : Filled T H' i := by
  refine h.imp id fun h v hv hs hk r hr hne => (h v hv hs hk r hr hne).imp id (hH r ?_ hne)
  exact Topology.mem_regions.2 ⟨v, hv, hr⟩

theorem Filled.of_alike {j : ι} (hij : Alike T i j) (h : Filled T H i) : Filled T H j := by
  unfold Filled at h ⊢
  simp only [hij.lastKnown, hij.isTerminated]
  exact h

theorem Filled.setCurrent (hT : T.WellFormed) {J : ι → Prop} (hJ : Laws T J) (hi : J i)
    {s : RegionId} {v : VertexId} (hv : T.Holds s v)
    (h : Filled T (fun r => H r ∨ T.isState v ∧ r = s) i) :
    Filled T (fun r => H r ∨ T.isState v ∧ r ∈ (T.vertex v).regions) (setCurrent T s v i) := by
  refine h.imp (fun h => (hJ.isTerminated_setCurrent i s v).trans h) fun h w hw hs hk r hr hne => ?_
  have hnew := hJ.lastKnown_setCurrent hi hv
  by_cases hwv : T.isState v ∧ w = v
  · exact .inr (.inr ⟨hwv.1, hwv.2 ▸ hr⟩)
  · have hold : ∀ s', (T.vertex w).parent = some s' → lastKnown T s' i = some w := by
      intro s' hs'
      have h' := hk s' hs'
      rw [hnew s' (hT.listed_of_parent hw hs').1] at h'
      split at h'
      · rename_i hv
        exact absurd ⟨hv.2, (Option.some.inj h').symm⟩ hwv
      · exact h'
    rw [hnew r (Topology.mem_regions.2 ⟨w, hw, hr⟩)]
    split
    · exact .inl rfl
    · rename_i hv
      rcases h w hw hs hold r hr hne with h | h | h
      · exact .inl h
      · exact .inr (.inl h)
      · exact absurd ⟨h.2, h.1⟩ hv

/-- When nothing has been entered yet, only the regions of the root are open. -/
theorem filled_new (hT : T.WellFormed) (h : ∀ r ∈ T.regions, lastKnown T r i = none) :
    Filled T (· ∈ (T.vertex Topology.root).regions) i := by
  refine .inr fun v hv _ hk r hr _ => .inr ?_
  rcases hT.eq_root_or_listed hv with rfl | ⟨s, hs, hp, -⟩
  · exact hr
  · exact absurd ((h s hs).symm.trans (hk s hp)) (Option.some_ne_none v).symm

end Instance

/-- The run keeps `J`, and begun with `H` open it ends with `H'` open. -/
abbrev Run.Fills (T : Topology) (J : ι → Prop) {α : Type} (H : RegionId → Prop) (x : Run σ ι α)
    (H' : RegionId → Prop) : Prop :=
  Run.Spec (fun s => J s.inst) (fun s => Instance.Filled T H s.inst) x fun _ s =>
    Instance.Filled T H' s.inst

/-- With calls nested at most `n` deep, steps close and open their regions, transitions close the
region of the pseudostate that they lead out of, and offers leave nothing open. -/
structure Machine.Closes (M : Machine σ) (J : ι → Prop) (n : Nat) : Prop where
  perform : ∀ step trigger deep (H : RegionId → Prop), M.Fits step →
    Run.Fills M.topology J (fun r => H r ∨ step.Closes M.topology r)
      ((engine M M.compile n).perform step trigger deep) fun r => H r ∨ step.Opens M.topology r
  offer : ∀ v trigger H, v ∈ M.topology.vertices → M.topology.isState v →
    Run.Fills M.topology J H ((engine M M.compile n).offer v trigger) H
  fire : ∀ t trigger (H : RegionId → Prop), t ∈ M.topology.transitions →
    Run.Fills M.topology J (fun r => H r ∨ M.topology.OpenBefore t r)
      ((engine M M.compile n).fire t trigger) H

namespace Run.Fills

variable {M : Machine σ} {n : Nat} {J : ι → Prop} {H H' K : RegionId → Prop} {trigger : Trigger}
  {deep : Bool}

theorem pre {α : Type} {x : Run σ ι α} (h : Fills M.topology J H x K)
    (hH : ∀ r ∈ M.topology.regions, (M.topology.region r).vertices ≠ [] → H' r → H r) :
    Fills M.topology J H' x K :=
  Spec.pre h fun _ _ hs => hs.mono hH

theorem post {α : Type} {x : Run σ ι α} (h : Fills M.topology J H x K)
    (hH : ∀ r ∈ M.topology.regions, (M.topology.region r).vertices ≠ [] → K r → H' r) :
    Fills M.topology J H x H' :=
  Spec.post h fun _ _ _ hs => hs.mono hH

section

variable (hJ : Instance.Laws M.topology J)
include hJ

theorem stable : Session.Stable M.topology fun s : Session σ ι => Instance.Filled M.topology H s.inst :=
  hJ.stable_of_alike fun _ _ => Instance.Filled.of_alike

theorem quiet {α : Type} {x : Run σ ι α} (h : x.Adds M.topology Event.Quiet) :
    Fills M.topology J H x H :=
  Spec.quiet h hJ.stable (stable hJ)

theorem inert (hT : M.topology.WellFormed) {steps : List (Step σ)}
    (h : ∀ step ∈ steps, step.Inert) :
    Fills M.topology J H ((engine M M.compile n).performAll trigger deep steps) H :=
  Spec.inert hT hJ.stable (stable hJ) h

variable (hn : M.Closes J n)
include hn

/-! ## Elements -/

omit hJ in
/-- Becoming current closes the region of a state and opens those that it owns. -/
theorem currentSteps {v : VertexId} (hv : v ∈ M.topology.vertices) :
    Fills M.topology J (fun r => H r ∨ M.topology.isState v ∧ (M.topology.vertex v).parent = some r)
      ((engine M M.compile n).performAll trigger deep (M.currentSteps v))
      fun r => H r ∨ M.topology.isState v ∧ r ∈ (M.topology.vertex v).regions := by
  have hfits := Machine.fits_currentSteps hv
  unfold Machine.currentSteps at hfits ⊢
  split
  · rename_i s hs
    rw [hs] at hfits
    refine pre (Spec.single (hn.perform _ trigger deep H (hfits _ List.mem_cons_self)))
      fun r _ _ hr => ?_
    exact hr.imp id fun h => ⟨h.1, (Option.some.inj (hs.symm.trans h.2)).symm⟩
  · rename_i hs
    refine post (Spec.nil (e := engine M M.compile n)) fun r _ _ hr => ?_
    exact hr.imp id fun h => absurd (hs.symm.trans h.2) (Option.some_ne_none r).symm

variable (hT : M.topology.WellFormed)
include hT

theorem beginEnter_vertex {v : VertexId} (hv : v ∈ M.topology.vertices) :
    Fills M.topology J (fun r => H r ∨ (M.topology.vertex v).parent = some r)
      ((engine M M.compile n).performAll trigger deep (M.compile.beginEnter (.vertex v)))
      fun r => H r ∨ M.topology.OpenWithin (.vertex v) r := by
  have henter : ∀ H, Fills M.topology J H
      ((engine M M.compile n).perform (.enter (.vertex v)) trigger deep) H := fun _ =>
    quiet hJ (engine_perform_quiet (Machine.inert_leave hT) n _ trigger deep trivial)
  by_cases hs : M.topology.isState v
  · rw [Machine.beginEnter_state hT hv hs]
    refine Spec.append (Spec.cons (henter _) ((currentSteps hn hv).pre ?_))
      ((inert hJ hT (Step.inert_behaviors _)).post fun r _ _ hr => hr.imp id .inl)
    exact fun r _ _ hr => hr.imp id fun h => ⟨hs, h⟩
  · obtain ⟨k, hk⟩ := Topology.exists_pseudo hs
    rw [Machine.beginEnter_pseudo hT hv hk]
    have hcurrent : Fills M.topology J (fun r => H r ∨ (M.topology.vertex v).parent = some r)
        ((engine M M.compile n).performAll trigger deep (M.currentSteps v))
        fun r => H r ∨ (M.topology.vertex v).parent = some r :=
      ((currentSteps hn hv).pre fun _ _ _ h => .inl h).post fun r _ _ hr =>
        hr.elim id fun h => absurd h.1 hs
    refine Spec.append (Spec.cons (henter _) hcurrent) ?_
    split
    · refine post (pre (Spec.single (hn.perform _ trigger deep H trivial)) fun r _ _ hr => ?_)
        fun r _ _ hr => ?_
      · exact hr.imp id fun _ => trivial
      · exact hr.imp id fun h => h.elim
    · rename_i hne
      refine post (Spec.nil (e := engine M M.compile n)) fun r _ _ hr => ?_
      exact hr.imp id fun h => .inr ⟨k, Topology.pseudoKind?_eq hk, hne, h⟩

variable (hE : M.topology.Enters)
include hE

omit hn hE in
/-- If the second half of its entry closes a region, so does the whole entry. -/
theorem enter_region {s : RegionId} (hs : s ∈ M.topology.regions)
    (hend : ∀ H : RegionId → Prop, Fills M.topology J (fun r => H r ∨ M.topology.OpenWithin (.region s) r)
      ((engine M M.compile n).performAll trigger deep (M.compile.endEnter (.region s)))
      fun r => H r ∨ M.topology.OpenAfter (.region s) r) :
    Fills M.topology J (fun r => H r ∨ r = s)
      ((engine M M.compile n).performAll trigger deep (M.compile.enter (.region s))) H := by
  refine Spec.enter (inert hJ hT ?_) (post (hend H) fun r _ _ hr => hr.elim id False.elim)
  rw [Machine.beginEnter_region hT hs]
  exact fun step h => List.mem_singleton.1 h ▸ trivial

/-- The second half of an entry closes what the first left open. -/
theorem endEnter {x : Element} (hx : M.topology.Listed x) : ∀ H : RegionId → Prop,
    Fills M.topology J (fun r => H r ∨ M.topology.OpenWithin x r)
      ((engine M M.compile n).performAll trigger deep (M.compile.endEnter x))
      fun r => H r ∨ M.topology.OpenAfter x r := by
  refine Machine.endEnter_induction hT (p := fun x steps => ∀ H : RegionId → Prop,
    Fills M.topology J (fun r => H r ∨ M.topology.OpenWithin x r)
      ((engine M M.compile n).performAll trigger deep steps)
      fun r => H r ∨ M.topology.OpenAfter x r) ?enterRegion ?copy ?state ?resume ?rest x hx
  case enterRegion =>
    exact fun s hs H => Spec.single
      (hn.perform (.enterRegion s (M.topology.regionInitial s)) trigger deep H ⟨hs, rfl⟩)
  case copy =>
    intro s hs v hv ih H
    have hvm := Topology.regionInitial_mem hv
    obtain ⟨w, hw, hinitial⟩ := hE.initial s hs (List.ne_nil_of_mem hvm)
    obtain rfl : v = w := Option.some.inj (hv.symm.trans hw)
    refine pre (post (Spec.enter (beginEnter_vertex hJ hn hT (hT.mem_vertices_of_region hs hvm))
      (ih H)) fun r _ _ hr => ?_) fun r _ _ hr => ?_
    · exact .inl (hr.elim id fun h => absurd h (Topology.not_openAfter hinitial))
    · exact hr.imp id fun h => (hT.mem_vertices s v hvm).2.trans (congrArg some h.symm)
  case state =>
    intro v hv hs ih H
    -- open are the regions that are still to be entered
    have hregions : Fills M.topology J (fun r => H r ∨ r ∈ (M.topology.vertex v).regions)
        ((engine M M.compile n).performAll trigger deep
          ((M.topology.vertex v).regions.flatMap fun r => M.compile.enter (.region r)))
        fun r => H r ∨ r ∈ [] :=
      Spec.flatMap (p := fun rest (s : Session σ ι) =>
          Instance.Filled M.topology (fun r => H r ∨ r ∈ rest) s.inst) fun r hr rest =>
        (enter_region hJ hT (Topology.mem_regions.2 ⟨v, hv, hr⟩) (ih r hr)).pre fun q _ _ hq =>
          hq.elim (fun h => .inl (.inl h)) fun h =>
            (List.mem_cons.1 h).elim .inr fun h => .inl (.inr h)
    refine pre (post hregions fun r _ _ hr => ?_) fun r _ _ hr => hr.imp id fun h => ?_
    · exact .inl (hr.elim id fun h => absurd h List.not_mem_nil)
    · rcases h with h | ⟨k, hk, -⟩
      · exact h.2
      · exact absurd hs (Topology.not_isState_of_pseudoKind? hk)
  case resume =>
    intro v hv k hk hi H
    have hs := Topology.not_isState_of_pseudoKind? (Topology.pseudoKind?_eq hk)
    refine pre (post (Spec.single (hn.perform (.resume v) trigger deep H ⟨hv, k, hk, hi⟩))
      fun r _ _ hr => hr.imp id False.elim) fun r _ _ hr => hr.imp id fun h => ?_
    exact h.elim (fun h => absurd h.1 hs) fun ⟨_, _, _, h⟩ => h
  case rest =>
    intro v _ k hk hi H
    have hk' := Topology.pseudoKind?_eq hk
    refine post (Spec.nil (e := engine M M.compile n)) fun r _ _ hr => hr.imp id fun h => ?_
    rcases h with h | ⟨k', hk'', hne, hp⟩
    · exact absurd h.1 (Topology.not_isState_of_pseudoKind? hk')
    · obtain rfl : k = k' := Option.some.inj (hk'.symm.trans hk'')
      exact ⟨(Topology.branches_of_not_isInitial hi hne).imp (hk'.trans <| congrArg _ ·)
        (hk'.trans <| congrArg _ ·), hp⟩

theorem onInitialise :
    Fills M.topology J (· ∈ (M.topology.vertex Topology.root).regions)
      ((engine M M.compile n).performAll trigger deep M.compile.onInitialise) fun _ => False := by
  have hroot := Topology.root_mem_vertices (T := M.topology)
  have hbegin : Fills M.topology J (· ∈ (M.topology.vertex Topology.root).regions)
      ((engine M M.compile n).performAll trigger deep (M.compile.beginEnter (.vertex Topology.root)))
      fun r => False ∨ M.topology.OpenWithin (.vertex Topology.root) r :=
    post (pre (beginEnter_vertex hJ hn hT hroot) fun r _ _ => .inl) fun r _ _ hr =>
      .inr (hr.elim (fun h => .inl ⟨hT.isState_root, h⟩) id)
  refine post (Spec.enter hbegin (endEnter hJ hn hT hE (x := .vertex Topology.root) hroot _))
    fun r _ _ hr => hr.elim id fun h => ?_
  exact absurd h (Topology.not_openAfter (.inl hT.isState_root))

theorem enterVertex {v : VertexId} (hv : v ∈ M.topology.vertices) :
    Fills M.topology J (fun r => H r ∨ (M.topology.vertex v).parent = some r)
      (Engine.enterElement M.compile (engine M M.compile n) (.vertex v) trigger deep)
      fun r => H r ∨ M.topology.OpenAfter (.vertex v) r :=
  Spec.enterElement (beginEnter_vertex hJ hn hT hv) (endEnter hJ hn hT hE (x := .vertex v) hv H)

/-- The entry of a state, or of an initial or history pseudostate, closes its region. -/
theorem enterInto {s : RegionId} {v : VertexId} (hv : v ∈ M.topology.vertices)
    (hp : (M.topology.vertex v).parent = some s)
    (hkind : M.topology.isState v ∨ (M.topology.pseudoKind? v).any PseudoKind.isInitial) :
    Fills M.topology J (fun r => H r ∨ r = s)
      (Engine.enterElement M.compile (engine M M.compile n) (.vertex v) trigger deep) H := by
  refine pre (post (enterVertex (H := H) hJ hn hT hE hv) fun r _ _ hr => ?_) fun r _ _ hr => ?_
  · exact hr.elim id fun h => absurd h (Topology.not_openAfter hkind)
  · exact hr.imp id fun h => hp.trans (congrArg some h.symm)

/-! ## Paths -/

/-- The entry from an index of an ancestry down to its vertex `x`. -/
theorem enterPath {x : VertexId} (hx : x ∈ M.topology.vertices) {i : Nat}
    (hi : i < (M.topology.vertexAncestry x).length)
    (hH : ∀ r, H' r → H r ∨ (M.topology.vertex (M.topology.vertexAncestry x)[i]).parent = some r) :
    Fills M.topology J H' ((engine M M.compile n).performAll trigger deep
        (M.compile.cascade M.topology ((M.topology.vertexAncestry x).drop i)))
      fun r => H r ∨ M.topology.OpenWithin (.vertex x) r := by
  refine pre (Spec.cascade_drop hT hx
    (p := fun v (s : Session σ ι) => Instance.Filled M.topology
      (fun r => H r ∨ (M.topology.vertex v).parent = some r) s.inst)
    (q := fun v s => Instance.Filled M.topology
      (fun r => H r ∨ M.topology.OpenWithin (.vertex v) r) s.inst)
    (fun v hv => beginEnter_vertex hJ hn hT (hT.mem_vertices_of_mem_vertexAncestry hx hv))
    (fun w hw v next hp ho hr hv => ?_) hi) fun r _ _ => hH r
  have hs := hT.isState_of_regions v (List.ne_nil_of_mem hr)
  have hbeside : Fills M.topology J
      (fun r => (H r ∨ r = next) ∨ r ∈ (M.topology.vertex v).regions)
      ((engine M M.compile n).performAll trigger deep
        (M.compile.enterBeside (some next) (M.topology.vertex v).regions))
      fun r => (H r ∨ r = next) ∨ r ∈ [] := by
    have hlisted : ∀ s ∈ (M.topology.vertex v).regions, s ∈ M.topology.regions :=
      fun s hs => Topology.mem_regions.2 ⟨v, hv, hs⟩
    refine Spec.enterBeside (p := fun rest (s : Session σ ι) =>
      Instance.Filled M.topology (fun r => (H r ∨ r = next) ∨ r ∈ rest) s.inst)
      (fun s hs _ rest => ?_) fun hnext rest => ?_
    · refine (enter_region hJ hT (hlisted s hs)
        (endEnter hJ hn hT hE (x := .region s) (hlisted s hs))).pre fun r _ _ hr => ?_
      exact hr.elim (fun h => .inl (.inl h)) fun h =>
        (List.mem_cons.1 h).elim .inr fun h => .inl (.inr h)
    · rw [Machine.beginEnter_region hT (hlisted next hnext)]
      have hinert : ∀ step ∈ [Step.enter (σ := σ) (.region next)], step.Inert :=
        fun step h => List.mem_singleton.1 h ▸ trivial
      refine post (inert hJ hT hinert) fun r _ _ hr => ?_
      exact hr.elim .inl fun h => (List.mem_cons.1 h).elim (fun h => .inl (.inr h)) .inr
  refine pre (post hbeside fun r _ _ hr => ?_) fun r _ _ hr => ?_
  · rcases hr with (h | rfl) | h
    · exact .inl h
    · exact .inr hp
    · exact absurd h List.not_mem_nil
  · rcases hr with h | h | ⟨k, hk, -⟩
    · exact .inl (.inl h)
    · exact .inr h.2
    · exact absurd hs (Topology.not_isState_of_pseudoKind? hk)

/-- An external transition closes the region of a pseudostate that it leads out of, since it
stays there. -/
theorem externalSteps {source target : VertexId} (hx : target ∈ M.topology.vertices)
    (hleading : ¬M.topology.isState source →
      (M.topology.vertex target).parent = (M.topology.vertex source).parent)
    (effects : List (Action σ)) :
    Fills M.topology J
      (fun r => H r ∨ ¬M.topology.isState source ∧ (M.topology.vertex source).parent = some r)
      ((engine M M.compile n).performAll trigger deep
        (M.externalSteps M.compile source target effects))
      fun r => H r ∨ M.topology.OpenAfter (.vertex target) r := by
  unfold Machine.externalSteps
  have hi : Machine.splitIndex (M.topology.vertexAncestry source) (M.topology.vertexAncestry target)
      < (M.topology.vertexAncestry target).length :=
    Machine.splitIndex_lt (Topology.vertexAncestry_ne_nil target)
  refine Spec.append (Spec.append (Spec.append (inert hJ hT (Machine.inert_leave hT _))
    (inert hJ hT (Step.inert_behaviors _)))
    (enterPath hJ hn hT hE hx hi fun r hr => hr.imp id fun h => ?_))
    (endEnter hJ hn hT hE (x := .vertex target) hx H)
  obtain ⟨hs, hr⟩ := h
  have hp := (hleading hs).trans hr
  rw [(List.getElem_eq_iff hi).2 (Machine.getElem?_splitIndex_siblings hT hr hp)]
  exact hp

theorem traversal {t : TransitionId} (ht : t ∈ M.topology.transitions)
    (htarget : ∀ x, (M.topology.transition t).target = some x → x ∈ M.topology.vertices) :
    Fills M.topology J (fun r => H r ∨ M.topology.OpenBefore t r)
      ((engine M M.compile n).performAll trigger deep (M.compile.traversal t))
      fun r => H r ∨ M.topology.OpenBeyond t r := by
  have hclosed : M.topology.isState (M.topology.transition t).source → ∀ r,
      H r ∨ M.topology.OpenBefore t r → H r := fun hs r hr => hr.elim id fun h => absurd hs h.1
  refine Machine.traversal_cases (p := fun steps => Fills M.topology J
    (fun r => H r ∨ M.topology.OpenBefore t r)
    ((engine M M.compile n).performAll trigger deep steps)
    fun r => H r ∨ M.topology.OpenBeyond t r) ht (fun hno => ?_) (fun x hx hkind _ => ?_)
    fun x hx _ => ?_
  · have hs : M.topology.isState (M.topology.transition t).source :=
      Classical.byContradiction fun hs => by
        obtain ⟨hkind, x, hx, -⟩ := hE.leading t ht hs
        exact absurd (hkind.symm.trans (hno x hx)) (by decide)
    have hcomplete : Fills M.topology J H ((engine M M.compile n).perform
        (.completeInternal (M.topology.transition t).source) trigger deep) H :=
      pre (post (hn.perform (.completeInternal _) trigger deep H
        (hT.source_of_mem_transitions ht).1) fun r _ _ hr => hr.elim id False.elim)
        fun r _ _ => .inl
    exact pre (post (Spec.internalSteps (inert hJ hT (Step.inert_behaviors _)) hcomplete
      fun _ _ => id) fun r _ _ => .inl) fun r _ _ => hclosed hs r
  · refine pre (Spec.single (hn.perform (.traverseWithin t) trigger deep H ⟨ht, hkind⟩))
      fun r _ _ hr => .inl (hclosed (Classical.byContradiction fun hs => ?_) r hr)
    exact absurd (hkind.symm.trans (hE.leading t ht hs).1) (by decide)
  · refine post (externalSteps hJ hn hT hE (htarget x hx) (fun hs => ?_) _)
      fun r _ _ hr => hr.imp id fun h => ⟨x, hx, h⟩
    obtain ⟨-, y, hy, hp⟩ := hE.leading t ht hs
    exact Option.some.inj (hx.symm.trans hy) ▸ hp

/-! ## Operations -/

omit hJ hT hE in
theorem offerCompletion {v : VertexId} (hv : v ∈ M.topology.vertices) (hs : M.topology.isState v) :
    Fills M.topology J H (Engine.offerCompletion M (engine M M.compile n) v) H :=
  Spec.offerCompletion (Spec.pre (hn.offer v _ H hv hs) fun _ _ h => h.1) fun _ _ h _ => h

theorem resume {v : VertexId} (hv : v ∈ M.topology.vertices) {k : PseudoKind}
    (hk : M.topology.kind v = .pseudo k) :
    Fills M.topology J (fun r => H r ∨ (M.topology.vertex v).parent = some r)
      (Engine.resume M M.compile (engine M M.compile n) v trigger deep) H := by
  have hs : ¬M.topology.isState v :=
    Topology.not_isState_of_pseudoKind? (Topology.pseudoKind?_eq hk)
  refine Spec.resume hT hJ hJ.stable (stable hJ) (fun _ s hp state => ?_)
    fun t ht => ?_
  · intro x hI hx
    have hs := (hT.listed_of_parent hv hp).1
    obtain ⟨hmem, hparent⟩ := hJ.holds hI hx.2 hT hs
    refine pre (enterInto hJ hn hT hE hmem hparent (.inl (hJ.isState hI hx.2)))
      (fun r _ _ hr => hr.imp id fun h => ?_) x hI hx.1
    exact (Option.some.inj (hp.symm.trans h)).symm
  · have hsource := (hT.mem_outgoing v t ht).2
    exact pre (hn.fire t trigger H (Topology.mem_transitions.2 ⟨v, hv, ht⟩)) fun r _ _ hr =>
      hr.imp id fun h => ⟨hsource ▸ hs, hsource ▸ h⟩

theorem enterRegion {s : RegionId} (hs : s ∈ M.topology.regions) {initial : Option VertexId}
    (hinitial : M.topology.regionInitial s = initial) :
    Fills M.topology J (fun r => H r ∨ r = s)
      (Engine.enterRegion M M.compile (engine M M.compile n) s initial trigger deep) H := by
  refine Spec.enterRegion (fun _ v => ?_) (fun v hv => ?_) fun hnone => ?_
  · intro x hI hx
    obtain ⟨hmem, hparent⟩ := hJ.holds hI hx.2 hT hs
    exact enterInto hJ hn hT hE hmem hparent (.inl (hJ.isState hI hx.2)) x hI hx.1
  · have hmem := Topology.regionInitial_mem (hinitial.trans hv)
    obtain ⟨w, hw, hkind⟩ := hE.initial s hs (List.ne_nil_of_mem hmem)
    obtain rfl : v = w := Option.some.inj (hv.symm.trans (hinitial.symm.trans hw))
    exact enterInto hJ hn hT hE (hT.mem_vertices_of_region hs hmem) (hT.mem_vertices s v hmem).2 hkind
  · have hnil : (M.topology.region s).vertices = [] := Classical.byContradiction fun hne => by
      obtain ⟨w, hw, -⟩ := hE.initial s hs hne
      exact absurd (hnone.symm.trans (hinitial.symm.trans hw)) (Option.some_ne_none w).symm
    rw [hnil]
    refine Spec.pure fun _ _ h => h.mono fun r _ hne hr => hr.elim id fun h => ?_
    exact absurd (h ▸ hnil) hne

variable (htarget : ∀ t x, (M.topology.transition t).target = some x → x ∈ M.topology.vertices)

include htarget in
theorem performStep {step : Step σ} (hstep : M.Fits step) :
    Fills M.topology J (fun r => H r ∨ step.Closes M.topology r)
      (Engine.performStep M M.compile (engine M M.compile n) step trigger deep)
      fun r => H r ∨ step.Opens M.topology r := by
  have hinert : ∀ step : Step σ, step.Inert → ∀ K,
      Fills M.topology J K (Engine.performStep M M.compile (engine M M.compile n) step trigger deep) K :=
    fun _ h _ => quiet hJ (engine_perform_quiet (Machine.inert_leave hT) (n + 1) _ trigger deep h)
  cases step with
  | enter x => exact hinert (.enter x) trivial _
  | leave x => exact hinert (.leave x) trivial _
  | behavior a => exact hinert (.behavior a) trivial _
  | leaveActive s => exact hinert (.leaveActive s) trivial _
  | setCurrent s v =>
    exact fun s hI h => ⟨hJ.setCurrent hI hstep, fun _ _ => h.setCurrent hT hJ hI hstep⟩
  | enterRegion s initial =>
    exact post (enterRegion hJ hn hT hE hstep.1 hstep.2) fun r _ _ => .inl
  | resume v =>
    obtain ⟨hv, k, hk, -⟩ := hstep
    exact post (resume hJ hn hT hE hv hk) fun r _ _ => .inl
  | terminate => exact fun s hI _ =>
    ⟨hJ.terminate hI, fun _ _ => .inl (hJ.isTerminated_terminate s.inst)⟩
  | completeInternal v =>
    exact Spec.ite (fun hs => pre (post (offerCompletion hn hstep hs) fun r _ _ => .inl)
      fun r _ _ hr => hr.elim id False.elim) fun _ => Spec.pure fun _ _ h => h
  | traverseWithin t =>
    refine pre (H := H) (Spec.traverseWithin hT hJ hJ.stable (stable hJ)
      (r := fun x s => Instance.Filled M.topology
        (fun r => H r ∨ M.topology.OpenWithin (.vertex x) r) s.inst)
      (fun x hx i hi => ?_) fun x hx => ?_) fun r _ _ hr => hr.elim id False.elim
    · exact Spec.pre (enterPath hJ hn hT hE (htarget t x hx) hi fun _ => .inl) fun _ _ h => h.1
    · exact post (endEnter hJ hn hT hE (x := .vertex x) (htarget t x hx) H) fun r _ _ hr =>
        hr.imp id fun h => ⟨x, hx, h⟩

omit hE in
theorem offerState {v : VertexId} (hv : v ∈ M.topology.vertices) (hs : M.topology.isState v) :
    Fills M.topology J H (Engine.offerState M (engine M M.compile n) v trigger) H := by
  have hregions : Spec (fun s : Session σ ι => J s.inst)
      (fun s => Instance.Filled M.topology H s.inst)
      (Engine.offerRegions M (engine M M.compile n) v trigger (M.topology.vertex v).regions)
      fun b s => if b then Instance.Filled M.topology H s.inst
        else Instance.Filled M.topology H s.inst := by
    refine Spec.offerRegions (fun r hr w s hI h => ?_) (fun _ _ h _ => h) (fun _ _ h => h) _
      fun _ h => h
    have hr := Topology.mem_regions.2 ⟨v, hv, hr⟩
    exact Spec.either (hn.offer w trigger H (hJ.holds hI h.2 hT hr).1 (hJ.isState hI h.2)) s hI h.1
  refine Spec.offerState hJ.stable.steady (stable hJ).steady (fun _ => hregions)
    (offerCompletion hn hv hs) (fun t ht => ?_) fun _ _ h => h
  have hsource := (hT.mem_outgoing v t ht).2
  refine Spec.bind (r := fun _ s => Instance.Filled M.topology H s.inst)
    (fun s hI h => ⟨hI, fun _ _ => h⟩)
    fun _ => pre (hn.fire t trigger H (Topology.mem_transitions.2 ⟨v, hv, ht⟩)) fun r _ _ => .inl

include htarget in
theorem fireTransition {t : TransitionId} (ht : t ∈ M.topology.transitions) :
    Fills M.topology J (fun r => H r ∨ M.topology.OpenBefore t r)
      (Engine.fireTransition M M.compile (engine M M.compile n) t trigger) H := by
  refine Spec.pre (Spec.fireTransition
    (b := fun t s => t ∈ M.topology.transitions ∧
      Instance.Filled M.topology (fun r => H r ∨ M.topology.OpenBefore t r) s.inst)
    (a := fun t s => Instance.Filled M.topology (fun r => H r ∨ M.topology.OpenBeyond t r) s.inst)
    hJ.stable.steady (fun t => (hJ.stable_of_alike fun _ _ h =>
      And.imp_right (Instance.Filled.of_alike h)).steady)
    (fun t => ?_) (fun t u v hv hk hu s _ h => ?_) (fun t x hx hk => ?_) (fun t hnone s _ h => ?_) t)
    fun s _ h => ⟨ht, h⟩
  · refine Spec.pull fun ht => Spec.bind (r := fun _ s => Instance.Filled M.topology
      (fun r => H r ∨ M.topology.OpenBefore t r) s.inst)
      (fun s hI h => ⟨hI, fun _ _ => h⟩) fun _ => traversal hJ hn hT hE ht (htarget t)
  · have hsource := (hT.mem_outgoing v u hu).2
    refine ⟨Topology.mem_transitions.2 ⟨v, htarget t v hv, hu⟩, h.mono fun r _ _ hr => ?_⟩
    refine hr.imp id fun ⟨x, hx, hopen⟩ => ?_
    obtain rfl : v = x := Option.some.inj (hv.symm.trans hx)
    refine ⟨fun hs => ?_, hsource ▸ hopen.2⟩
    exact Topology.not_isState_of_pseudoKind? hk (hsource ▸ hs)
  · have hclosed : ∀ r, ¬M.topology.OpenAfter (.vertex x) r → H r ∨ M.topology.OpenBeyond t r → H r :=
      fun r hr h => h.elim id fun ⟨y, hy, h⟩ =>
        absurd (Option.some.inj (hy.symm.trans hx) ▸ h) hr
    refine Spec.leadOn hJ.stable.steady (stable hJ).steady (fun hc u hu => ?_)
      (fun hs => ?_) fun hc hs s _ h => h.mono fun r _ _ hr => ?_
    · have hsource := (hT.mem_outgoing x u hu).2
      refine pre (hn.fire u trigger H (Topology.mem_transitions.2 ⟨x, htarget t x hx, hu⟩))
        fun r _ _ hr => hr.imp id fun ⟨y, hy, h⟩ => ⟨fun hs => ?_, ?_⟩
      · exact Topology.not_isState_of_pseudoKind? hc (hsource ▸ hs)
      · exact hsource ▸ Option.some.inj (hy.symm.trans hx) ▸ h.2
    · exact pre (offerCompletion hn (htarget t x hx) hs) fun r _ _ =>
        hclosed r (Topology.not_openAfter (.inl hs))
    · exact hclosed r (fun h => h.1.elim hc hk) hr
  · exact h.mono fun r _ _ hr => hr.elim id fun ⟨x, hx, _⟩ =>
      absurd (hnone.symm.trans hx) (Option.some_ne_none x).symm

end

end Run.Fills

theorem engine_closes {M : Machine σ} {J : ι → Prop} (hJ : Instance.Laws M.topology J)
    (hT : M.topology.Grown) (hE : M.topology.Enters) : ∀ n, M.Closes J n
  | 0 => ⟨fun _ _ _ _ _ => .exhausted, fun _ _ _ _ _ => .exhausted, fun _ _ _ _ => .exhausted⟩
  | n + 1 => by
    have hn := engine_closes hJ hT hE n
    have htarget := fun t x (hx : (M.topology.transition t).target = some x) => hT.mem_target hx
    exact ⟨fun _ _ _ _ hstep => Run.Fills.performStep hJ hn hT.toWellFormed hE htarget hstep,
      fun _ _ _ hv hs => Run.Fills.offerState hJ hn hT.toWellFormed hv hs,
      fun _ _ _ ht => Run.Fills.fireTransition hJ hn hT.toWellFormed hE htarget ht⟩

/-- A start and evaluations that succeed leave no region open. -/
theorem filled_of_visits {M : Machine σ} (hM : M.Reachable fun e => ¬e.removes)
    (hE : M.topology.Enters) {J : ι → Prop} (hJ : Instance.Laws M.topology J) {i₀ : ι} (h₀ : J i₀)
    (hnew : ∀ r ∈ M.topology.regions, Instance.lastKnown M.topology r i₀ = none)
    {events : List Event} {M' : Machine σ} {i : ι}
    (h : M.Visits Result.Succeeds i₀ events M' i) :
    J i ∧ Instance.Filled M.topology (fun _ => False) i := by
  have hT := hM.wellFormed
  refine h.induction hM (I := fun _ i => J i ∧ Instance.Filled M.topology (fun _ => False) i)
    (fun depth env e he ha => ?_) fun source events i depth env message hi e he ha => ?_
  · obtain ⟨a, ha⟩ := Result.succeeds_map.1 ha
    have hclosed := engine_closes (M := M.ready M.settings.source) hJ
      (hM.ready M.settings.source).grown hE depth
    subst he
    obtain ⟨hi, hfilled⟩ := Run.Spec.startRun (M := M.ready M.settings.source) hJ.stable.steady
      (Run.Fills.stable hJ).steady
      (Run.Fills.onInitialise (M := M.ready M.settings.source) hJ hclosed hT hE)
      ⟨env, i₀, M.settings.source, []⟩ h₀
      (Instance.filled_new hT hnew)
    exact ⟨hi, hfilled a ha⟩
  · obtain ⟨a, ha⟩ := Result.succeeds_map.1 ha
    have hclosed := engine_closes (M := M.ready source) hJ (hM.ready source).grown hE depth
    subst he
    obtain ⟨hi, hfilled⟩ := Run.Spec.evaluateRun (M := M.ready source) hJ.stable.steady
      (Run.Fills.stable hJ).steady
      (hclosed.offer _ (.message message) (fun _ => False) Topology.root_mem_vertices
        hT.isState_root) (fun _ _ h _ => h) ⟨env, i, source, []⟩ hi.1 hi.2
    exact ⟨hi, hfilled a ha⟩

end

/-- In a model whose regions have entry points and whose pseudostates lead on within their region,
once a start and any evaluations have succeeded and the run has not ended, an active state has an
active state in each of its regions that are not empty. -/
theorem active_child {M : Machine σ} (hM : M.Reachable fun e => ¬e.removes)
    (hE : M.topology.Enters) {name : String} {events : List Event} {M' : Machine σ}
    {i : TableInstance} (h : M.Visits Result.Succeeds ⟨name, {}, {}, false⟩ events M' i)
    (hi : ¬i.terminated) {v : VertexId} (hv : v ∈ M.topology.vertices) (hs : M.topology.isState v)
    (hactive : Instance.isActive M.topology i v) {r : RegionId}
    (hr : r ∈ (M.topology.vertex v).regions) (hne : (M.topology.region r).vertices ≠ []) :
    ∃ c ∈ (M.topology.region r).vertices, M.topology.isState c
      ∧ Instance.lastKnown M.topology r i = some c ∧ Instance.isActive M.topology i c := by
  have hT := hM.wellFormed
  obtain ⟨hsound, hfilled⟩ := filled_of_visits hM hE (TableInstance.laws hT)
    (TableInstance.sound_new M.topology name) (fun _ _ => rfl) h
  have hlast : ∀ s, (M.topology.vertex v).parent = some s →
      Instance.lastKnown M.topology s i = some v :=
    fun s hs => ((hT.isActiveIn_of_parent hs).1 hactive).2
  obtain ⟨c, hc⟩ := Option.isSome_iff_exists.1
    ((hfilled.resolve_left hi v hv hs hlast r hr hne).resolve_right id)
  obtain ⟨-, hmem, hcs⟩ := hsound.listed r c hc
  refine ⟨c, hmem, hcs, hc, ?_⟩
  exact (hT.isActiveIn_of_parent (hT.mem_vertices r c hmem).2).2
    ⟨(hT.mem_regions v r hr).2.symm ▸ hactive, hc⟩

/-- A state with two regions, of which one is entered by history and the other holds a nested
state. -/
def orthogonal : Machine Unit := .build "m" {} [
  .addVertex "i" (.state ⟨0⟩) (.pseudo .initial), .addVertex "b" (.state ⟨0⟩) .state,
  .addTransition ⟨1⟩ (some ⟨2⟩), .addRegion "p" ⟨2⟩, .addRegion "q" ⟨2⟩,
  .addVertex "h" (.region ⟨1⟩) (.pseudo .shallowHistory), .addVertex "x" (.region ⟨1⟩) .state,
  .addTransition ⟨3⟩ (some ⟨4⟩), .addVertex "y" (.region ⟨2⟩) .state,
  .addVertex "z" (.state ⟨5⟩) .state, .addTransition ⟨4⟩ (some ⟨2⟩),
  .modifyTransition ⟨2⟩ fun t => { t with guard := .on "go" }]

theorem orthogonal_active_child :
    let started := orthogonal.call (⟨"i", {}, {}, false⟩ : TableInstance) (.start 9 ())
    let i := (started.machine.call started.inst (.evaluate 9 () "go")).inst
    ∃ c ∈ (orthogonal.topology.region ⟨1⟩).vertices, orthogonal.topology.isState c
      ∧ Instance.lastKnown orthogonal.topology ⟨1⟩ i = some c
      ∧ Instance.isActive orthogonal.topology i c := by
  have hM : orthogonal.Reachable fun e => ¬e.removes :=
    .build (by decide +kernel) (by decide +kernel)
  exact active_child (v := ⟨2⟩) hM ⟨by decide +kernel, by decide +kernel⟩
    (.evaluate 9 () "go" (.start 9 () ⟨none, by decide +kernel⟩) ⟨some true, by decide +kernel⟩)
    (by decide +kernel) (by decide +kernel) (by decide +kernel) (by decide +kernel)
    (by decide +kernel) (by decide +kernel)

end Hsm
