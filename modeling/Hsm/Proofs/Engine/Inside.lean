import Hsm.Engine.Depth
import Hsm.Proofs.Engine.Leaving
import Hsm.Proofs.Engine.Within
import Hsm.Proofs.Program.Split

/-!
# What a local transition keeps

A local transition turns at one region beneath its source: it leaves what is current there, has its
effects, and enters down to its target from there. Whatever it tells to be left, and every step of
its entry, is in that region (`Topology.not_keeps`), so its source, what is above the source and the
other regions of the source are kept, and so are the active vertices on the way to the target. The
target itself is left exactly if one comes to it from the region by way of what is current
(`Topology.follows_iff`), which is to say that it was active wherever what is current is the last
known state. A vertex that rests in a choice is current without being active, and the state that it
came from is active without being current (`resting_keeps`).
-/

namespace Hsm

variable {σ ι : Type}

/-! ## What is kept -/

namespace Topology

/-- The source `s` of a local transition to `x` and all above it, what is in the regions of `s` that
are not on the way to `x`, and the active vertices on that way but for `x`. -/
def Keeps (T : Topology) (active : VertexId → Prop) (s x : VertexId) (e : Element) : Prop :=
  e ∈ T.ancestry (.vertex s) ∨
  (∃ q, (T.region q).parent = s ∧ .region q ∉ T.ancestry (.vertex x) ∧
    .region q ∈ T.ancestry e) ∨
  ∃ v ∈ T.vertexAncestry x, active v ∧ v ≠ x ∧ e = .vertex v

namespace WellFormed

variable {T : Topology} (hT : T.WellFormed) {x a : VertexId} {above rest : List VertexId}
  {r : RegionId} (hsplit : T.vertexAncestry x = above ++ a :: rest)
  (hr : (T.vertex a).parent = some r)
include hT hsplit hr

theorem not_along_of_above {v : VertexId} (hv : v ∈ above) : ¬T.Along v r := by
  rintro ⟨b, hb, hbr⟩
  have ha : a ∈ T.vertexAncestry x := hsplit ▸ List.mem_append_right _ List.mem_cons_self
  have hvx : v ∈ T.vertexAncestry x := hsplit ▸ List.mem_append_left _ hv
  have hbx : b ∈ T.vertexAncestry x := Forest.mem_ancestors_trans (F := T.stateTree) hb hvx
  obtain rfl := hT.eq_of_mem_way ha hbx hr hbr rfl
  exact Forest.not_mem_ancestors_of_append (F := T.stateTree) hsplit hv hb

omit hT in
theorem along_of_below {v : VertexId} (hv : v ∈ a :: rest) : T.Along v r :=
  ⟨a, Forest.mem_ancestors_of_append (F := T.stateTree) hsplit hv, hr⟩

omit hT hr in
/-- The active vertices on the way, but for its end, come before the one that is turned at. -/
theorem mem_above_of_active {lastKnown : RegionId → Option VertexId}
    (hturn : a = x ∨ ¬T.isActiveIn lastKnown a) {v : VertexId} (hv : v ∈ T.vertexAncestry x)
    (hactive : T.isActiveIn lastKnown v) (hne : v ≠ x) : v ∈ above := by
  refine (List.mem_append.1 (hsplit ▸ hv)).resolve_right fun hbelow => ?_
  have hav : a ∈ T.vertexAncestry v := Forest.mem_ancestors_of_append (F := T.stateTree) hsplit hbelow
  obtain rfl := hturn.resolve_right (not_not_intro (isActiveIn_of_mem hav hactive))
  have hle := Forest.height_le_of_mem (F := T.stateTree) hav
  have hge := Forest.height_le_of_mem (F := T.stateTree) hv
  exact hne (congrArg VertexId.mk (Nat.le_antisymm hge hle))

/-- Nothing in the region that a local transition turns at is kept. -/
theorem not_keeps {lastKnown : RegionId → Option VertexId} {s : VertexId} (hs : s ∈ above)
    (hturn : a = x ∨ ¬T.isActiveIn lastKnown a) {e : Element} (he : .region r ∈ T.ancestry e) :
    ¬T.Keeps (fun v => T.isActiveIn lastKnown v) s x e := by
  have hsource : .region r ∉ T.ancestry (.vertex s) := fun h =>
    hT.not_along_of_above hsplit hr hs ((hT.region_mem_ancestry r s).1 h)
  have hx : .region r ∈ T.ancestry (.vertex x) := (hT.region_mem_ancestry r x).2
    ⟨a, hsplit ▸ List.mem_append_right _ List.mem_cons_self, hr⟩
  rintro (h | ⟨q, hq, hqx, hqe⟩ | ⟨v, hv, hactive, hne, rfl⟩)
  · exact hsource (Forest.mem_ancestors_trans (F := T.ownership) he h)
  · rcases Forest.mem_ancestors_total (F := T.ownership) he hqe with h | h
    · replace h : .region r ∈ T.ancestry (.region q) := h
      rw [WellFormed.ancestry_region, hq, List.mem_append, List.mem_singleton] at h
      rcases h with h | h
      · exact hsource h
      · exact hqx (h ▸ hx)
    · exact hqx (Forest.mem_ancestors_trans (F := T.ownership) h hx)
  · exact hT.not_along_of_above hsplit hr (mem_above_of_active hsplit hturn hv hactive hne)
      ((hT.region_mem_ancestry r v).1 he)

end WellFormed

/-! ## What one comes to by way of what is current -/

section

variable {T : Topology} (hT : T.WellFormed) {current : RegionId → Option VertexId}
  (hparent : ∀ q w, current q = some w → (T.vertex w).parent = some q) {r : RegionId}
include hT hparent

/-- From a region one comes to what is in it, over vertices that are current. -/
theorem current_of_follows {e : Element} (h : T.Follows current (.region r) e) :
    .region r ∈ T.ancestry e ∧ ∀ v, .vertex v ∈ T.ancestry e → T.Along v r →
      ∀ q, (T.vertex v).parent = some q → current q = some v := by
  induction h with
  | refl =>
    refine ⟨Forest.mem_ancestors_self (F := T.ownership) _, fun v hv halong => ?_⟩
    have hrv := (hT.region_mem_ancestry r v).2 halong
    have hle := Forest.height_le_of_mem (F := T.ownership) hv
    have hge := Forest.height_le_of_mem (F := T.ownership) hrv
    have heq : 2 * v.index = 2 * (T.region r).parent.index + 1 := Nat.le_antisymm hle hge
    omega
  | @tail b c _ hc ih =>
    cases b with
    | region q =>
      obtain ⟨w, hw, rfl⟩ := List.mem_map.1 hc
      have hcurrent : current q = some w := Option.mem_toList.1 hw
      have hp := hparent q w hcurrent
      rw [hT.ancestry_vertex hp]
      refine ⟨List.mem_append_left _ ih.1, fun v hv halong p hvp => ?_⟩
      rcases List.mem_append.1 hv with hv | hv
      · exact ih.2 v hv halong p hvp
      · obtain rfl := Element.vertex.inj (List.mem_singleton.1 hv)
        obtain rfl := Option.some.inj (hp.symm.trans hvp)
        exact hcurrent
    | vertex u =>
      obtain ⟨q, hq, rfl⟩ := List.mem_map.1 hc
      rw [WellFormed.ancestry_region, (hT.mem_regions u q hq).2]
      refine ⟨List.mem_append_left _ ih.1, fun v hv halong p hvp => ?_⟩
      exact ih.2 v ((List.mem_append.1 hv).resolve_right fun h => nomatch List.mem_singleton.1 h)
        halong p hvp

omit hparent in
/-- One comes to a vertex in the region if all the vertices on the way to it are current. -/
theorem follows_of_current {x : VertexId} (hx : x ∈ T.vertices) (halong : T.Along x r)
    (hcurrent : ∀ v ∈ T.vertexAncestry x, T.Along v r →
      ∀ q, (T.vertex v).parent = some q → current q = some v) :
    T.Follows current (.region r) (.vertex x) := by
  suffices h : ∀ v, v ∈ T.vertexAncestry x → T.Along v r →
      T.Follows current (.region r) (.vertex v) from h x (mem_vertexAncestry_self x) halong
  intro v
  induction v using T.stateTree.induction with
  | hroot v hp =>
    rintro - ⟨b, hb, hbr⟩
    obtain rfl := (Forest.mem_ancestors_root hp).1 hb
    rw [hT.parentState_eq hbr] at hp
    cases hp
  | hparent v u hu ih =>
    intro hvx hvr
    obtain ⟨q, hp, rfl⟩ := hT.parent_of_parentState hu
    have hq := (hT.listed_of_parent (hT.mem_vertices_of_mem_vertexAncestry hx hvx) hp).1
    have hstep : Element.vertex v ∈ T.currentBelow current (.region q) :=
      List.mem_map_of_mem (Option.mem_toList.2 (hcurrent v hvx hvr q hp))
    by_cases hqr : q = r
    · exact hqr ▸ .single hstep
    · -- the region of `v` lies deeper than `r`, so its owner is in `r` too
      have howner := (hT.along_iff_of_parent hp).1 hvr
      rw [WellFormed.ancestry_region, List.mem_append, List.mem_singleton] at howner
      have hor := (hT.region_mem_ancestry r _).1
        (howner.resolve_right fun h => hqr (Element.region.inj h).symm)
      have hox : (T.region q).parent ∈ T.vertexAncestry x := Forest.mem_ancestors_trans
        (F := T.stateTree) ((hT.mem_vertexAncestry_of_parent hp).2 (.inr
          (mem_vertexAncestry_self _))) hvx
      have hregion : Element.region q ∈ T.currentBelow current (.vertex (T.region q).parent) :=
        List.mem_map_of_mem (hT.owner_of_mem_regions hq).2
      exact ((ih hox hor).tail hregion).tail hstep

/-- Where the vertices on the way to `x` are in the region from `a` on, one comes to `x` exactly if
all of these are current. -/
theorem follows_iff {x a : VertexId} {above rest : List VertexId} (hx : x ∈ T.vertices)
    (hsplit : T.vertexAncestry x = above ++ a :: rest) (hr : (T.vertex a).parent = some r) :
    T.Follows current (.region r) (.vertex x) ↔
      ∀ v ∈ a :: rest, ∀ q, (T.vertex v).parent = some q → current q = some v := by
  refine ⟨fun h v hv => ?_, fun h => follows_of_current hT hx ?_ fun v hv halong => h v ?_⟩
  · have hvx : v ∈ T.vertexAncestry x := hsplit ▸ List.mem_append_right _ hv
    exact (current_of_follows hT hparent h).2 v ((hT.vertex_mem_ancestry v x).2 hvx)
      (WellFormed.along_of_below hsplit hr hv)
  · exact ⟨a, hsplit ▸ List.mem_append_right _ List.mem_cons_self, hr⟩
  · exact (List.mem_append.1 (hsplit ▸ hv)).resolve_left fun hv =>
      hT.not_along_of_above hsplit hr hv halong

end

end Topology

/-! ## What is left -/

/-- Of elements, the event tells at most that one to which `a` leads, over what is current, is
left. -/
def Event.Unwinds (T : Topology) (current : RegionId → Option VertexId) (a : Element) :
    Event → Prop
  | .left e => T.Listed e ∧ T.Follows current a e
  | .message .. | .traced _ | .acted .. => True
  | _ => False

theorem Event.quiet_of_unwinds {T : Topology} {current : RegionId → Option VertexId}
    {a : Element} (e : Event) (h : e.Unwinds T current a) : e.Quiet := by
  cases e <;> trivial

theorem Machine.LeaveStep.follows {M : Machine σ} {current : RegionId → Option VertexId}
    {e b : Element} {step : Step σ} (h : M.LeaveStep e step) (hb : b ∈ M.topology.subjects step) :
    M.topology.Follows current e b := by
  induction h with
  | leave | active => exact List.mem_singleton.1 hb ▸ .refl
  | behavior => cases hb
  | owned hr _ ih => exact .head (List.mem_map_of_mem hr) (ih hb)

/-- The steps of leaving an element are about the element and its regions. -/
theorem Machine.follows_leave {M : Machine σ} (hT : M.topology.WellFormed)
    {current : RegionId → Option VertexId} {e : Element} : ∀ step ∈ M.compile.leave e,
      ∀ b ∈ M.topology.subjects step, M.topology.Follows current e b :=
  fun _ hs _ hb => (leaveStep_of_mem hT hs).follows hb

section

variable [Instance ι]

theorem Instance.Tracing.agree_replay [Instance.Tracing ι] {T : Topology} (i : ι)
    {es : List Event} (hes : ∀ e ∈ es, e.Quiet) : Agree T (replay T es i) i := by
  induction es with
  | nil => exact .refl i
  | cons e es ih =>
    have ih := ih fun e h => hes e (List.mem_cons_of_mem _ h)
    have he := hes e List.mem_cons_self
    cases e with
    | traced line => exact (agree T line (replay T es i)).trans ih
    | setCurrent | terminated | selected | traversed => exact he.elim
    | _ => exact ih

variable [Instance.Tracing ι] {M : Machine σ} (hT : M.topology.WellFormed) {s₀ : Session σ ι}
  {a : Element}

/-- Beginning with `s₀`, the run tells of nothing but the leaving of what `a` leads to over what is
current. -/
abbrev Run.Unwinds (M : Machine σ) (s₀ : Session σ ι) (a : Element) (x : Run σ ι Unit) : Prop :=
  Run.Spec (s₀.Leads M.topology
    (Event.Unwinds M.topology (fun r => Instance.current M.topology r s₀.inst) a))
    (fun _ => True) x fun _ _ => True

omit [Instance.Tracing ι] in
theorem Run.Unwinds.of_adds {x : Run σ ι Unit} (hx : x.Adds M.topology (Event.Unwinds M.topology
    (fun r => Instance.current M.topology r s₀.inst) a)) : x.Unwinds M s₀ a :=
  Run.Spec.of_adds hx (fun _ _ h hs => hs.trans h) fun _ _ _ h => h

include hT

theorem Run.Unwinds.leaveCurrent {n : Nat} {r : RegionId} {trigger : Trigger}
    (hr : M.topology.Follows (fun r => Instance.current M.topology r s₀.inst) a (.region r))
    (h : ∀ step : Step σ, step.Exits → M.Fits step → (∀ b ∈ M.topology.subjects step,
      M.topology.Follows (fun r => Instance.current M.topology r s₀.inst) a b) →
      ((engine M M.compile n).perform step trigger false).Unwinds M s₀ a) :
    (Engine.leaveCurrent M M.compile (engine M M.compile n) r trigger).Unwinds M s₀ a := by
  refine Run.Spec.read.bind fun v s hI hv => ?_
  obtain ⟨es, -, hes, hinst⟩ := id hI
  have hcurrent : v = Instance.current M.topology r s₀.inst := by
    rw [hv.2, hinst]
    exact (Instance.Tracing.agree_replay s₀.inst fun e he =>
      e.quiet_of_unwinds (hes e he)).current r
  cases v with
  | none => exact ⟨hI, fun _ _ => trivial⟩
  | some w =>
    have hw : M.topology.Follows (fun r => Instance.current M.topology r s₀.inst) a (.vertex w) :=
      hr.tail (List.mem_map_of_mem (Option.mem_toList.2 hcurrent.symm))
    exact Run.Spec.all (p := fun _ => True) (fun step hs => h step (Machine.exits_leave hT step hs)
      ((Machine.all_fits hT).leave _ step hs)
      fun b hb => hw.trans (Machine.follows_leave hT step hs b hb)) s hI trivial

theorem engine_unwinds : ∀ (n : Nat) (trigger : Trigger) (deep : Bool) (step : Step σ),
    step.Exits → M.Fits step → (∀ b ∈ M.topology.subjects step,
      M.topology.Follows (fun r => Instance.current M.topology r s₀.inst) a b) →
    ((engine M M.compile n).perform step trigger deep).Unwinds M s₀ a
  | 0, _, _, _, _, _, _ => .exhausted
  | n + 1, trigger, deep, step, hexits, hfits, hsubjects => by
    cases step with
    | leave e =>
      refine .of_adds ((Run.Adds.note (e := .left e) ⟨hfits, hsubjects e List.mem_cons_self⟩
        trivial).bind fun _ => (Run.Adds.read _).bind fun _ => ?_)
      exact (Run.Adds.say (fun _ _ => trivial) _ _).bind fun _ => .trace (fun _ => trivial) _
    | behavior act => exact .of_adds (Run.Adds.act (fun _ _ => trivial) act trigger)
    | leaveActive r =>
      exact .leaveCurrent hT (hsubjects (.region r) List.mem_cons_self)
        (engine_unwinds n trigger false)
    | _ => exact hexits.elim

/-- Whichever way it ends, leaving what is current in a region tells of nothing but what is found
there over what is current. -/
theorem leaveCurrent_unwinds (n : Nat) (r : RegionId) (trigger : Trigger) :
    (Engine.leaveCurrent M M.compile (engine M M.compile n) r trigger).Unwinds M s₀ (.region r) :=
  .leaveCurrent hT .refl (engine_unwinds hT n trigger false)

/-- If no action fails, leaving what is current in a region comes to its end, and tells of each
vertex that is found there over what is current. -/
theorem leaveCurrent_arrives {n : Nat} (hn : M.topology.vertexNodes.size ≤ n) {r : RegionId}
    (hparent : ∀ q w, Instance.current M.topology q s₀.inst = some w →
      (M.topology.vertex w).parent = some q)
    (hown : ∀ q ∈ M.topology.regions, ∀ w ∈ Instance.current M.topology q s₀.inst,
      w ∈ (M.topology.region q).vertices) (trigger : Trigger) :
    (Engine.leaveCurrent M M.compile (engine M M.compile n) r trigger).Arrives s₀ fun s =>
      ∀ x ∈ M.topology.vertices,
        M.topology.Follows (fun q => Instance.current M.topology q s₀.inst) (.region r) (.vertex x) →
          s₀.Tells (.left (.vertex x)) s := by
  by_cases hr : r ∈ M.topology.regions
  · have hwalk : ∃ order, PostOrder
        (M.topology.currentBelow fun q => Instance.current M.topology q s₀.inst)
        (M.topology.currentBelow (fun q => Instance.current M.topology q s₀.inst) (.region r)) order ∧
        ((engine (ι := ι) M M.compile (n + 1)).perform (.leaveActive r) trigger false).Departs M
          (fun q => Instance.current M.topology q s₀.inst) trigger order :=
      leaveActive_departs false fun w hw => leaveVertex_departs trigger hT hown w
        (hT.mem_vertices_of_region hr (hown r hr w hw)) n (Nat.le_trans hn (Nat.le_add_left _ _))
        false
    obtain ⟨order, horder, hdeparts⟩ := hwalk
    refine (hdeparts s₀ fun _ => rfl).mono fun s h x _ hx => ?_
    obtain ⟨events, ht, hleaves⟩ := h.trail
    refine ⟨events.reverse, ht, List.mem_reverse.2 (hleaves.left_mem _ (horder.mem_iff.2 ?_))⟩
    obtain heq | hstep := Relation.ReflTransGen.cases_head hx
    · cases heq
    · exact hstep
  · -- no vertex in the region is in the model, so there is nothing to do
    have hnone : ∀ {w}, (M.topology.vertex w).parent = some r → ¬M.topology.Listed (.vertex w) :=
      fun hw h => hr (hT.listed_of_along h (Topology.along_of_parent hw))
    refine .inr ⟨(), ?_, fun x hx hfollows => ?_⟩
    · have hread : Run.current M.topology r s₀ =
          (.value (Instance.current M.topology r s₀.inst), s₀) := rfl
      unfold Engine.leaveCurrent
      rw [Run.bind_of_value hread]
      cases hc : Instance.current M.topology r s₀.inst with
      | none => rfl
      | some w =>
        show ((engine M M.compile n).performAll trigger false (M.compile.leave (.vertex w)) s₀).1 = _
        rw [Program.leave, Machine.steps_compile_of_not_listed hT (hnone (hparent r w hc))]
        rfl
    · have hrx := (Topology.current_of_follows hT hparent hfollows).1
      exact absurd (hT.listed_of_along hx ((hT.region_mem_ancestry r x).1 hrx)) hr

/-- A vertex is told to be left, where the leaving has come to its end, if it is found over what is
current. -/
theorem leaveCurrent_tells_iff {n : Nat} {r : RegionId} {trigger : Trigger}
    (hparent : ∀ q w, Instance.current M.topology q s₀.inst = some w →
      (M.topology.vertex w).parent = some q)
    (hown : ∀ q ∈ M.topology.regions, ∀ w ∈ Instance.current M.topology q s₀.inst,
      w ∈ (M.topology.region q).vertices)
    (hvalue : (Engine.leaveCurrent M M.compile (engine M M.compile n) r trigger s₀).1 = .value ())
    (x : VertexId) :
    s₀.Tells (.left (.vertex x))
        (Engine.leaveCurrent M M.compile (engine M M.compile n) r trigger s₀).2 ↔
      x ∈ M.topology.vertices ∧ M.topology.Follows
        (fun q => Instance.current M.topology q s₀.inst) (.region r) (.vertex x) := by
  constructor
  · rintro ⟨es, htrail, hmem⟩
    obtain ⟨es', htrail', hes, -⟩ := (leaveCurrent_unwinds hT n r trigger s₀ (.refl s₀) trivial).1
    obtain rfl := List.append_cancel_right (htrail.symm.trans htrail')
    exact hes _ hmem
  · rintro ⟨hlisted, hfollows⟩
    have hrefines := engine_refines (ι := ι) M M.compile
      (Nat.le_max_left n M.topology.vertexNodes.size)
    have hdeeper := hrefines.leaveCurrent (M := M) (P := M.compile) r trigger s₀
      fun h => nomatch hvalue.symm.trans h
    obtain ⟨message, hfail⟩ | ⟨-, -, htells⟩ :=
      leaveCurrent_arrives hT (Nat.le_max_right n _) hparent hown trigger (r := r)
    · rw [hdeeper, hvalue] at hfail
      cases hfail
    · rw [hdeeper] at htells
      exact htells x hlisted hfollows

end

/-! ## What is entered -/

theorem Program.mem_cascade_of_mem {P : Program σ} {T : Topology} {v : VertexId}
    {step : Step σ} : ∀ {path : List VertexId}, v ∈ path → step ∈ P.beginEnter (.vertex v) →
      step ∈ P.cascade T path
  | [], hv, _ => nomatch hv
  | [_], hv, hs => List.mem_singleton.1 hv ▸ hs
  | _ :: w :: rest, hv, hs => by
    rw [cascade, List.append_assoc, List.mem_append, List.mem_append]
    rcases List.mem_cons.1 hv with rfl | hv
    · exact .inl hs
    · exact .inr (.inr (mem_cascade_of_mem hv hs))

/-- The step enters or leaves the element, or makes it current, or makes something current in it. -/
def Step.Names (y : Element) : Step σ → Prop
  | .enter e | .leave e => e = y
  | .setCurrent r v => y = .region r ∨ y = .vertex v
  | _ => False

/-- The event tells that the element was entered or left, or became current, or that something
became current in it. -/
def Event.Names (y : Element) : Event → Prop
  | .entered e | .left e => e = y
  | .setCurrent r v => y = .region r ∨ y = .vertex v
  | _ => False

namespace Machine

variable {M : Machine σ}

/-- The steps of entering down the way to `x`. -/
def arrival (M : Machine σ) (way : List VertexId) (x : VertexId) : List (Step σ) :=
  M.compile.cascade M.topology way ++ M.compile.endEnter (.vertex x)

variable (hT : M.topology.WellFormed)
include hT

theorem enters_arrival {way : List VertexId} {x : VertexId} :
    ∀ step ∈ M.arrival way x, step.Enters ∧ M.Fits step := by
  intro step hs
  rcases List.mem_append.1 hs with hs | hs
  · obtain ⟨-, -, e, -, h | h⟩ := Program.mem_cascade hs
    · exact ⟨enters_beginEnter hT step h, (all_fits hT).beginEnter _ step h⟩
    · exact ⟨enters_endEnter hT step h, (all_fits hT).endEnter _ step h⟩
  · exact ⟨enters_endEnter hT step hs, (all_fits hT).endEnter _ step hs⟩

/-- What the steps name is in the region that the way begins in. -/
theorem names_arrival {x a : VertexId} {above rest : List VertexId} {r : RegionId}
    (hsplit : M.topology.vertexAncestry x = above ++ a :: rest)
    (hr : (M.topology.vertex a).parent = some r) {step : Step σ} (hs : step ∈ M.arrival (a :: rest) x)
    {y : Element} (hy : step.Names y) : .region r ∈ M.topology.ancestry y := by
  have hax : a ∈ M.topology.vertexAncestry x := hsplit ▸ List.mem_append_right _ List.mem_cons_self
  have hon : step.On M.topology (.vertex a) := (List.mem_append.1 hs).elim
    (on_cascade hT hsplit step)
    fun hs => (on_endEnter hT step hs).trans ((hT.vertex_mem_ancestry a x).2 hax)
  have hfits := (enters_arrival hT step hs).2
  have hra : .region r ∈ M.topology.ancestry (.vertex a) :=
    (hT.region_mem_ancestry r a).2 (Topology.along_of_parent hr)
  have hin : ∀ e ∈ M.topology.subjects step, .region r ∈ M.topology.ancestry e :=
    fun e he => Forest.mem_ancestors_trans (F := M.topology.ownership) hra (hon e he)
  cases step with
  | enter e | leave e =>
    obtain rfl : e = y := hy
    exact hin e List.mem_cons_self
  | setCurrent q v =>
    have hv := hin (.vertex v) List.mem_cons_self
    obtain rfl | rfl := hy
    · exact (hT.along_iff_of_parent hfits.2).1 ((hT.region_mem_ancestry r v).1 hv)
    · exact hv
  | _ => exact hy.elim

theorem enter_mem_arrival {x a : VertexId} {above rest : List VertexId}
    (hsplit : M.topology.vertexAncestry x = above ++ a :: rest) :
    .enter (.vertex x) ∈ M.arrival (a :: rest) x ↔ x ∈ M.topology.vertices := by
  refine ⟨fun h => (enters_arrival hT _ h).2, fun hx => List.mem_append_left _ ?_⟩
  have hlast : x ∈ a :: rest := by
    have h := Forest.getLast?_ancestors (F := M.topology.stateTree) x
    rw [show M.topology.stateTree.ancestors x = above ++ a :: rest from hsplit,
      List.getLast?_append_of_ne_nil _ (List.cons_ne_nil _ _)] at h
    exact List.mem_of_getLast? h
  exact Program.mem_cascade_of_mem hlast (enter_mem hT hx)

end Machine

/-! ## The run along a local transition -/

/-- From `s`, the run along the local transition `t` leaves what is current in `r`, has the effects
of the transition, and enters `way`, the end of the way to `x`. -/
structure Machine.TurnsInside [Instance ι] (M : Machine σ) (n : Nat) (t : TransitionId)
    (x : VertexId) (trigger : Trigger) (deep : Bool) (s : Session σ ι) (r : RegionId)
    (way : List VertexId) : Prop where
  parts : (engine M M.compile (n + 1)).performAll trigger deep (M.compile.traversal t) s =
    (Engine.leaveCurrent M M.compile (engine M M.compile n) r trigger >>= fun _ =>
      Run.actAll trigger (M.effects t) >>= fun _ =>
        (engine M M.compile n).performAll trigger false (M.arrival way x)) s
  /-- Nothing is told but leaving, and nothing that is kept is left. -/
  leaves : ∃ events,
    (Engine.leaveCurrent M M.compile (engine M M.compile n) r trigger s).2.trail =
      events ++ s.trail ∧
    ∀ e ∈ events,
      e.Unwinds M.topology (fun q => Instance.current M.topology q s.inst) (.region r) ∧
      ∀ y, M.topology.Keeps (fun v => Instance.isActive M.topology s.inst v)
        (M.topology.transition t).source x y → ¬e.Names y
  /-- The steps enter, and they enter nothing that is kept. -/
  enters : ∀ step ∈ M.arrival way x, step.Enters ∧
    ∀ y, M.topology.Keeps (fun v => Instance.isActive M.topology s.inst v)
      (M.topology.transition t).source x y → ¬step.Names y
  /-- The leaving comes to its end, unless an action fails. -/
  ends : M.topology.vertexNodes.size ≤ n →
    (Engine.leaveCurrent M M.compile (engine M M.compile n) r trigger).Arrives s fun _ => True
  /-- The target is left if what is current leads to it. -/
  leaves_target :
    (Engine.leaveCurrent M M.compile (engine M M.compile n) r trigger s).1 = .value () →
    (s.Tells (.left (.vertex x))
        (Engine.leaveCurrent M M.compile (engine M M.compile n) r trigger s).2 ↔
      x ∈ M.topology.vertices ∧ ∀ v ∈ way, ∀ q, (M.topology.vertex v).parent = some q →
        Instance.current M.topology q s.inst = some v)
  enters_target : .enter (.vertex x) ∈ M.arrival way x ↔ x ∈ M.topology.vertices

section

variable [Instance ι] {T : Topology} {i : ι}

/-- Where what is current is the last known state, all that is on the way from the turn on is
current exactly if the end of the way is active. -/
theorem isActive_iff_current {x a : VertexId} {above rest : List VertexId}
    (hsplit : T.vertexAncestry x = above ++ a :: rest)
    (habove : ∀ b ∈ above, Instance.isActive T i b)
    (hsame : ∀ v ∈ T.vertexAncestry x, ∀ q, (T.vertex v).parent = some q →
      Instance.current T q i = Instance.lastKnown T q i) :
    (∀ v ∈ a :: rest, ∀ q, (T.vertex v).parent = some q → Instance.current T q i = some v) ↔
      Instance.isActive T i x := by
  rw [Instance.isActive_iff]
  constructor
  · intro h v hv q hq
    rcases List.mem_append.1 (hsplit ▸ hv) with hv' | hv'
    · exact Instance.isActive_iff.1 (habove v hv') v (Topology.mem_vertexAncestry_self v) q hq
    · exact (hsame v hv q hq).symm.trans (h v hv' q hq)
  · intro h v hv q hq
    have hvx : v ∈ T.vertexAncestry x := hsplit ▸ List.mem_append_right _ hv
    exact (hsame v hvx q hq).trans (h v hvx q hq)

end

open Machine in
/-- A local transition that leads from an active source to beneath it turns in one region: it leaves
what is current there, has its effects, and enters from there, and what it has to keep it neither
leaves nor enters. It enters its target, and leaves it before if the target was current with all
that is on the way to it from the turn on, that is, if it was active as far as what is current is
known last. -/
theorem Machine.Reachable.turns_inside [Instance ι] [Instance.Tracing ι] {M : Machine σ}
    {allowed : Edit σ → Prop} (hM : M.Reachable allowed) {t : TransitionId} {x : VertexId}
    (ht : M.compile.traversal t = [.traverseWithin t])
    (hx : (M.topology.transition t).target = some x)
    (hbelow : M.topology.isDescendant x (M.topology.transition t).source) (n : Nat)
    (trigger : Trigger) (deep : Bool) {s : Session σ ι}
    (hactive : Instance.isActive M.topology s.inst (M.topology.transition t).source)
    (hcurrent : ∀ r w, Instance.current M.topology r s.inst = some w →
      M.topology.isAttached (.vertex w) ∧ (M.topology.vertex w).parent = some r) :
    ∃ above a rest r, M.topology.vertexAncestry x = above ++ a :: rest ∧
      (∀ b ∈ above, Instance.isActive M.topology s.inst b) ∧
      (a = x ∨ ¬Instance.isActive M.topology s.inst a) ∧
      (M.topology.vertex a).parent = some r ∧
      M.TurnsInside n t x trigger deep s r (a :: rest) ∧
      ((∀ v ∈ M.topology.vertexAncestry x, ∀ q, (M.topology.vertex v).parent = some q →
          Instance.current M.topology q s.inst = Instance.lastKnown M.topology q s.inst) →
        ((∀ v ∈ a :: rest, ∀ q, (M.topology.vertex v).parent = some q →
            Instance.current M.topology q s.inst = some v) ↔
          Instance.isActive M.topology s.inst x)) := by
  have hT := hM.wellFormed
  have hparent := fun q w h => (hcurrent q w h).2
  have hown : ∀ q ∈ M.topology.regions, ∀ w ∈ Instance.current M.topology q s.inst,
      w ∈ (M.topology.region q).vertices := fun q _ w hw => by
    obtain ⟨hwa, hp⟩ := hcurrent q w hw
    exact (hM.marked.mem_vertices_iff (Topology.lt_size_of_parent hp) hp).2 hwa
  obtain ⟨hsx, hne⟩ := M.topology.isDescendant_iff.1 hbelow
  obtain ⟨above, a, rest, hsplit, habove, hturn, heq⟩ :=
    traverseWithin_eq M.compile (engine (ι := ι) M M.compile n) trigger hx s
  have hs : (M.topology.transition t).source ∈ above :=
    Topology.WellFormed.mem_above_of_active hsplit hturn hsx hactive hne
  cases hr : (M.topology.vertex a).parent with
  | none =>
    have hroot := eq_root_of_turn hT (hM.linked.target_lt t x hx) hsplit hturn hr
    exact absurd (hroot ▸ hbelow) (Topology.isDescendant_root hT _)
  | some r =>
    rw [hr] at heq
    refine ⟨above, a, rest, r, hsplit, habove, hturn, hr, ?_, isActive_iff_current hsplit habove⟩
    have hnot : ∀ {y}, .region r ∈ M.topology.ancestry y →
        ¬M.topology.Keeps (fun v => Instance.isActive M.topology s.inst v)
          (M.topology.transition t).source x y := fun hy => hT.not_keeps hsplit hr hs hturn hy
    obtain ⟨es, htrail, hes, -⟩ := (leaveCurrent_unwinds hT n r trigger s (.refl s) trivial).1
    exact {
      parts := by
        rw [ht, Engine.performAll_single, arrival, Engine.performAll_append]
        exact heq
      leaves := by
        refine ⟨es, htrail, fun e he => ⟨hes e he, fun y hy hnames => ?_⟩⟩
        have hunwinds := hes e he
        cases e with
        | left e =>
          obtain rfl : e = y := hnames
          exact hnot (Topology.current_of_follows hT hparent hunwinds.2).1 hy
        | entered | setCurrent => exact hunwinds
        | _ => exact hnames
      enters := fun step hstep => ⟨(enters_arrival hT step hstep).1, fun y hy hnames =>
        hnot (names_arrival hT hsplit hr hstep hnames) hy⟩
      ends := fun hn => (leaveCurrent_arrives hT hn hparent hown trigger).mono fun _ _ => trivial
      leaves_target := fun hvalue => (leaveCurrent_tells_iff hT hparent hown hvalue x).trans
        (and_congr_right fun hlisted => Topology.follows_iff hT hparent hlisted hsplit hr)
      enters_target := enter_mem_arrival hT hsplit }

/-- A state with two regions and local transitions to what is in the first, to the choice there that
it rests in after "x", and to a state that was put into a third region after this was removed. -/
def resting : Machine Unit := .build "m" {} [
  .addVertex "i" (.state ⟨0⟩) (.pseudo .initial), .addVertex "s" (.state ⟨0⟩) .state,
  .addVertex "i" (.state ⟨2⟩) (.pseudo .initial), .addVertex "a" (.state ⟨2⟩) .state,
  .addVertex "c" (.state ⟨2⟩) (.pseudo .choice),
  .addRegion "q" ⟨2⟩, .addVertex "b" (.region ⟨2⟩) .state,
  .addRegion "z" ⟨2⟩, .removeRegion ⟨3⟩, .addVertex "d" (.region ⟨3⟩) .state,
  .addTransition ⟨1⟩ (some ⟨2⟩), .addTransition ⟨3⟩ (some ⟨4⟩), .addTransition ⟨4⟩ (some ⟨5⟩),
  .addTransition ⟨5⟩ none,
  .addTransition ⟨2⟩ (some ⟨4⟩), .addTransition ⟨2⟩ (some ⟨5⟩), .addTransition ⟨2⟩ (some ⟨7⟩),
  .setTransitionKind ⟨4⟩ .within, .setTransitionKind ⟨5⟩ .within, .setTransitionKind ⟨6⟩ .within,
  .modifyTransition ⟨2⟩ fun t => { t with guard := .on "x" }]

/-- What is current in a table is an entry of it. -/
theorem TableInstance.forall_current {T : Topology} {i : TableInstance}
    {p : RegionId → VertexId → Prop} (h : ∀ e ∈ i.current.entries, p e.1 e.2) :
    ∀ r w, Instance.current T r i = some w → p r w := by
  intro r w hw
  obtain ⟨before, after, hsplit, -⟩ := List.lookup_eq_some_iff.1 hw
  exact h (r, w) (hsplit ▸ by simp)

/-- At first `a` is active, and it is left and entered again. -/
theorem resting_turns :
    let i := (resting.call (⟨"i", {}, {}, false⟩ : TableInstance) (.start 30 ())).inst
    let s : Session Unit TableInstance := ⟨(), i, .first, []⟩
    let trail := ((engine resting resting.compile 9).performAll (.message "go") false
      (resting.compile.traversal ⟨4⟩) s).2.trail
    (resting.Reachable (fun _ => True) ∧ resting.compile.traversal ⟨4⟩ = [.traverseWithin ⟨4⟩] ∧
      (resting.topology.transition ⟨4⟩).target = some ⟨4⟩ ∧
      resting.topology.isDescendant ⟨4⟩ (resting.topology.transition ⟨4⟩).source ∧
      Instance.isActive resting.topology i (resting.topology.transition ⟨4⟩).source ∧
      ∀ r w, Instance.current resting.topology r i = some w →
        resting.topology.isAttached (.vertex w) ∧ (resting.topology.vertex w).parent = some r) ∧
    (∃ above a rest r, resting.topology.vertexAncestry ⟨4⟩ = above ++ a :: rest ∧
      (resting.topology.vertex a).parent = some r ∧
      resting.TurnsInside 8 ⟨4⟩ ⟨4⟩ (.message "go") false s r (a :: rest)) ∧
    .left (.vertex ⟨4⟩) ∈ trail ∧ .entered (.vertex ⟨4⟩) ∈ trail := by
  intro i s trail
  have hM : resting.Reachable fun _ => True := .build (by decide +kernel) fun _ _ => trivial
  have hstays : resting.Stays ⟨4⟩ :=
    ⟨by decide +kernel, by decide +kernel, ⟨4⟩, by decide +kernel, by decide +kernel⟩
  have htarget : (resting.topology.transition ⟨4⟩).target = some ⟨4⟩ := by decide +kernel
  have hbelow : resting.topology.isDescendant ⟨4⟩ (resting.topology.transition ⟨4⟩).source := by
    decide +kernel
  have hactive : Instance.isActive resting.topology i
      (resting.topology.transition ⟨4⟩).source := by decide +kernel
  have hcurrent : ∀ r w, Instance.current resting.topology r i = some w →
      resting.topology.isAttached (.vertex w) ∧ (resting.topology.vertex w).parent = some r :=
    TableInstance.forall_current (by decide +kernel)
  have htold : .left (.vertex ⟨4⟩) ∈ trail ∧ .entered (.vertex ⟨4⟩) ∈ trail := by decide +kernel
  clear_value i trail
  obtain ⟨above, a, rest, r, hsplit, -, -, hr, hturns, -⟩ := hM.turns_inside hstays.traversal_eq
    htarget hbelow 8 (.message "go") false (s := s) hactive hcurrent
  exact ⟨⟨hM, hstays.traversal_eq, htarget, hbelow, hactive, hcurrent⟩,
    ⟨above, a, rest, r, hsplit, hr, hturns⟩, htold⟩

/-- After "x" the machine rests in the choice: `a` is active and is entered without being left, the
choice is not active and is left and entered, and `d`, which is active and current in the removed
region, is neither left nor entered. -/
theorem resting_keeps :
    let started := resting.call (⟨"i", {}, {}, false⟩ : TableInstance) (.start 30 ())
    let moved := started.machine.call started.inst (.evaluate 30 () "x")
    let i := moved.inst.setCurrent resting.topology ⟨3⟩ ⟨7⟩
    let s : Session Unit TableInstance := ⟨(), i, .first, []⟩
    let trail (t : TransitionId) := ((engine resting resting.compile 9).performAll (.message "go")
      false (resting.compile.traversal t) s).2.trail
    (resting.Reachable (fun _ => True) ∧
      (∀ p ∈ [((⟨4⟩ : TransitionId), (⟨4⟩ : VertexId)), (⟨5⟩, ⟨5⟩), (⟨6⟩, ⟨7⟩)],
        resting.Stays p.1 ∧ (resting.topology.transition p.1).target = some p.2 ∧
        resting.topology.isDescendant p.2 (resting.topology.transition p.1).source ∧
        Instance.isActive resting.topology i (resting.topology.transition p.1).source) ∧
      ∀ r w, Instance.current resting.topology r i = some w →
        resting.topology.isAttached (.vertex w) ∧ (resting.topology.vertex w).parent = some r) ∧
    (Instance.isActive resting.topology i ⟨4⟩ ∧ .left (.vertex ⟨4⟩) ∉ trail ⟨4⟩ ∧
      .entered (.vertex ⟨4⟩) ∈ trail ⟨4⟩) ∧
    (¬Instance.isActive resting.topology i ⟨5⟩ ∧ .left (.vertex ⟨5⟩) ∈ trail ⟨5⟩ ∧
      .entered (.vertex ⟨5⟩) ∈ trail ⟨5⟩) ∧
    Instance.isActive resting.topology i ⟨7⟩ ∧ .left (.vertex ⟨7⟩) ∉ trail ⟨6⟩ ∧
      .entered (.vertex ⟨7⟩) ∉ trail ⟨6⟩ := by
  intro started moved i s trail
  have hlocal : ∀ p ∈ [((⟨4⟩ : TransitionId), (⟨4⟩ : VertexId)), (⟨5⟩, ⟨5⟩), (⟨6⟩, ⟨7⟩)],
      (p.1 ∈ resting.topology.transitions ∧ (resting.topology.transition p.1).kind = .within) ∧
      resting.staysWithin (resting.topology.transition p.1).source p.2 ∧
      (resting.topology.transition p.1).target = some p.2 ∧
      resting.topology.isDescendant p.2 (resting.topology.transition p.1).source ∧
      Instance.isActive resting.topology i (resting.topology.transition p.1).source := by
    decide +kernel
  refine ⟨⟨.build (by decide +kernel) fun _ _ => trivial, fun p hp => ?_,
    TableInstance.forall_current (by decide +kernel)⟩, by decide +kernel, by decide +kernel,
    by decide +kernel⟩
  obtain ⟨⟨hmem, hkind⟩, hwithin, htarget, hrest⟩ := hlocal p hp
  exact ⟨⟨hmem, hkind, p.2, htarget, hwithin⟩, htarget, hrest⟩

end Hsm
