import Hsm.Proofs.Engine.Internal
import Hsm.Proofs.Engine.Recall
import Mathlib.Data.List.Nodup
import Mathlib.Logic.Relation

/-!
# Leaving what is current

The steps of leaving a state go down to its regions. What is current in a region is looked up when
the run comes to it, and then the steps of that vertex are performed. Together this is one walk over
what is current, each element after what is beneath it (`PostOrder`), with the exit actions of a
state right after the state (`Machine.Leaves`). The walk ends, since what is current in a region has
a greater number than the owner of the region; and each element is left once, since what is current
lies in a tree (`leave_walksOut`). A vertex that was put into a region removed before is not
compiled, and so it is not left (`stranded_stays`).
-/

namespace Hsm

variable {σ ι : Type}

/-! ## Each element after what is below it -/

/-- The walk from some elements: from each in order, what is below it and then the element. -/
inductive PostOrder {α : Type} (below : α → List α) : List α → List α → Prop
  | nil : PostOrder below [] []
  | cons {a : α} {as xs ys : List α} (hbelow : PostOrder below (below a) xs)
      (hrest : PostOrder below as ys) : PostOrder below (a :: as) (xs ++ a :: ys)

namespace PostOrder

variable {α : Type} {below : α → List α} {a : α} {as bs xs ys : List α}

theorem single (h : PostOrder below (below a) xs) : PostOrder below [a] (xs ++ [a]) :=
  .cons h .nil

theorem append (h : PostOrder below as xs) (h' : PostOrder below bs ys) :
    PostOrder below (as ++ bs) (xs ++ ys) := by
  induction h with
  | nil => exact h'
  | cons hbelow _ _ ih =>
    rw [List.cons_append, List.append_assoc, List.cons_append]
    exact .cons hbelow ih

/-- The walk comes to whatever can be reached. -/
theorem mem_iff (h : PostOrder below as xs) {e : α} :
    e ∈ xs ↔ ∃ a ∈ as, Relation.ReflTransGen (fun a b => b ∈ below a) a e := by
  induction h with
  | nil => simp
  | @cons a as xs ys _ _ ihbelow ihrest =>
    have hreach : Relation.ReflTransGen (fun a b => b ∈ below a) a e ↔
        e = a ∨ ∃ b ∈ below a, Relation.ReflTransGen (fun a b => b ∈ below a) b e :=
      Relation.ReflTransGen.cases_head_iff.trans (or_congr_left eq_comm)
    rw [List.mem_append, List.mem_cons, ihbelow, ihrest, List.exists_mem_cons_iff, hreach,
      ← or_assoc, or_comm (a := e = a)]

end PostOrder

namespace Topology

/-- Below a region is what is current in it, and below a vertex are its regions. -/
def currentBelow (T : Topology) (current : RegionId → Option VertexId) : Element → List Element
  | .region r => (current r).toList.map .vertex
  | .vertex v => (T.vertex v).regions.map .region

/-- From the first element one comes to the second by way of regions and what is current in them. -/
def Follows (T : Topology) (current : RegionId → Option VertexId) : Element → Element → Prop :=
  Relation.ReflTransGen fun a b => b ∈ T.currentBelow current a

namespace WellFormed

variable {T : Topology} (hT : T.WellFormed) {current : RegionId → Option VertexId}
  (hcurrent : ∀ r ∈ T.regions, ∀ w ∈ current r, w ∈ (T.region r).vertices)
include hT hcurrent

omit hT in
theorem sublist_children {a : Element} (ha : T.Listed a) :
    (T.currentBelow current a).Sublist (T.children a) := by
  cases a with
  | vertex v => exact .refl _
  | region r =>
    cases hr : current r with
    | none => simp [currentBelow, hr]
    | some w =>
      have hw : Element.vertex w ∈ T.children (.region r) :=
        List.mem_map_of_mem (hcurrent r ha w hr)
      simpa [currentBelow, hr] using hw

/-- Of elements that have nothing in common, the walk comes to nothing twice. -/
theorem nodup_of_postOrder {as order : List Element}
    (h : PostOrder (T.currentBelow current) as order) (has : ∀ a ∈ as, T.Listed a)
    (hapart : as.Pairwise fun a b => ∀ e, T.Beneath a e → ¬T.Beneath b e) :
    order.Nodup ∧ ∀ e ∈ order, ∃ a ∈ as, T.Beneath a e := by
  induction h with
  | nil => exact ⟨List.nodup_nil, fun _ h => nomatch h⟩
  | @cons a as xs ys _ _ ihbelow ihrest =>
    have ha := has a List.mem_cons_self
    have hsub := sublist_children hcurrent ha
    obtain ⟨hxs, hxsBeneath⟩ := ihbelow
      (fun c hc => hT.listed_of_mem_children ha (hsub.subset hc))
      (((hT.nodup_children a).sublist hsub).pairwise_of_forall_ne fun c hc d hd hne e hce hde =>
        hne (hT.child_unique (hsub.subset hc) (hsub.subset hd) hce hde))
    obtain ⟨hys, hysBeneath⟩ := ihrest (fun b hb => has b (List.mem_cons_of_mem _ hb))
      (List.pairwise_cons.1 hapart).2
    have hxsa : ∀ e ∈ xs, T.Beneath a e ∧ e ≠ a := fun e he => by
      obtain ⟨c, hc, hce⟩ := hxsBeneath e he
      refine ⟨hT.beneath_of_child (hsub.subset hc) hce, ?_⟩
      rintro rfl
      exact hT.not_beneath_child (hsub.subset hc) hce
    have hyaway : ∀ e ∈ ys, ¬T.Beneath a e := fun e he hae => by
      obtain ⟨b, hb, hbe⟩ := hysBeneath e he
      exact (List.pairwise_cons.1 hapart).1 b hb e hae hbe
    refine ⟨List.nodup_append.2 ⟨hxs, List.nodup_cons.2 ⟨fun h => ?_, hys⟩, ?_⟩, fun e he => ?_⟩
    · exact hyaway a h (beneath_self ha)
    · rintro e he f hf rfl
      rcases List.mem_cons.1 hf with rfl | hf
      · exact (hxsa e he).2 rfl
      · exact hyaway e hf (hxsa e he).1
    · rcases List.mem_append.1 he with he | he
      · exact ⟨a, List.mem_cons_self, (hxsa e he).1⟩
      · rcases List.mem_cons.1 he with rfl | he
        · exact ⟨e, List.mem_cons_self, beneath_self ha⟩
        · obtain ⟨b, hb, hbe⟩ := hysBeneath e he
          exact ⟨b, List.mem_cons_of_mem _ hb, hbe⟩

end WellFormed

end Topology

/-! ## What leaving consists of -/

namespace Machine

/-- It is told that the element is left. -/
def leaveNotes (M : Machine σ) (name : String) (e : Element) : List Event :=
  let line := "leave" ++ " " ++ M.topology.qualifiedName e
  [.left e, .message .debug (name ++ " " ++ line), .traced line]

/-- The elements are left one after the other: each is told of, and its exit actions take the
environment from where it is. These are the events, of which the oldest comes first. -/
inductive Leaves (M : Machine σ) (name : String) (trigger : Trigger) :
    List Element → σ → List Event → σ → Prop
  | nil (env : σ) : Leaves M name trigger [] env [] env
  | cons {e : Element} {es : List Element} {env env' env'' : σ} {acts events : List Event}
      (hexits : Performs trigger (M.exits e) env acts env')
      (hrest : Leaves M name trigger es env' events env'') :
      Leaves M name trigger (e :: es) env (M.leaveNotes name e ++ acts ++ events) env''

namespace Leaves

variable {M : Machine σ} {name : String} {trigger : Trigger} {es fs : List Element}
  {env env' env'' : σ} {events events' : List Event}

theorem append (h : M.Leaves name trigger es env events env')
    (h' : M.Leaves name trigger fs env' events' env'') :
    M.Leaves name trigger (es ++ fs) env (events ++ events') env'' := by
  induction h with
  | nil _ => exact h'
  | cons hexits _ ih =>
    rw [List.cons_append, List.append_assoc]
    exact .cons hexits (ih h')

theorem left_mem (h : M.Leaves name trigger es env events env') : ∀ e ∈ es, .left e ∈ events := by
  induction h with
  | nil _ => exact fun _ h => nomatch h
  | cons _ _ ih =>
    refine List.forall_mem_cons.2 ⟨?_, fun e he => List.mem_append_right _ (ih e he)⟩
    exact List.mem_append_left _ (List.mem_append_left _ List.mem_cons_self)

end Leaves

end Machine

section

variable [Instance ι] {M : Machine σ} {P : Program σ} {trigger : Trigger} {es fs : List Element}

/-- From `s` to `s'` the elements were left in order, and nothing that can be read off the instance
has changed. -/
structure Session.Departs (M : Machine σ) (trigger : Trigger) (order : List Element)
    (s s' : Session σ ι) : Prop where
  agree : Instance.Agree M.topology s'.inst s.inst
  source : s'.source = s.source
  trail : ∃ events, s'.trail = events.reverse ++ s.trail ∧
    M.Leaves (Instance.name s.inst) trigger order s.env events s'.env

namespace Session.Departs

variable {s s' s'' : Session σ ι}

theorem refl (s : Session σ ι) : s.Departs M trigger [] s :=
  ⟨.refl _, rfl, [], rfl, .nil _⟩

theorem trans (h : s.Departs M trigger es s') (h' : s'.Departs M trigger fs s'') :
    s.Departs M trigger (es ++ fs) s'' := by
  obtain ⟨events, ht, hes⟩ := h.trail
  obtain ⟨events', ht', hfs⟩ := h'.trail
  refine ⟨h'.agree.trans h.agree, h'.source.trans h.source, events ++ events', ?_,
    hes.append (h.agree.name ▸ hfs)⟩
  rw [ht', ht, List.reverse_append, List.append_assoc]

end Session.Departs

/-- From every session where `current` is current, the run leaves the elements in order, unless an
action fails. -/
def Run.Departs {α : Type} (M : Machine σ) (current : RegionId → Option VertexId)
    (trigger : Trigger) (order : List Element) (x : Run σ ι α) : Prop :=
  ∀ s, (∀ r, Instance.current M.topology r s.inst = current r) →
    x.Arrives s (s.Departs M trigger order)

namespace Run.Departs

variable {current : RegionId → Option VertexId} {α β : Type}

theorem pure (a : α) : (Pure.pure a : Run σ ι α).Departs M current trigger [] :=
  fun s _ => .inr ⟨a, rfl, .refl s⟩

theorem bind {x : Run σ ι α} {f : α → Run σ ι β} (hx : x.Departs M current trigger es)
    (hf : ∀ a, (f a).Departs M current trigger fs) :
    (x >>= f).Departs M current trigger (es ++ fs) := by
  intro s hs
  refine (hx s hs).bind fun a s' h => ?_
  exact (hf a s' fun r => (h.agree.current r).trans (hs r)).mono fun _ h' => h.trans h'

theorem nil {e : Engine σ ι} {deep : Bool} :
    (e.performAll trigger deep []).Departs M current trigger [] :=
  pure ()

theorem append {e : Engine σ ι} {deep : Bool} {xs ys : List (Step σ)}
    (hx : (e.performAll trigger deep xs).Departs M current trigger es)
    (hy : (e.performAll trigger deep ys).Departs M current trigger fs) :
    (e.performAll trigger deep (xs ++ ys)).Departs M current trigger (es ++ fs) := by
  rw [e.performAll_append]
  exact hx.bind fun _ => hy

end Run.Departs

/-! ## Leaving one element -/

omit [Instance ι] in
theorem actAll_cases : ∀ (as : List (Action σ)) (s : Session σ ι),
    (∃ message, (Run.actAll trigger as s).1 = .failed (.action message)) ∨
      (Run.actAll trigger as s).1 = .value ()
  | [], _ => .inr rfl
  | a :: as, s => by
    cases hfail : (a trigger s.env).failure with
    | some message =>
      refine .inl ⟨message, ?_⟩
      simp only [Run.actAll, Bind.bind, Run.act, hfail]
    | none =>
      simp only [Run.actAll, Bind.bind, Run.act, hfail]
      exact actAll_cases as _

variable {current : RegionId → Option VertexId}

/-- What is current is looked up, and if there is something its steps are performed. -/
theorem leaveActive_departs {n : Nat} {r : RegionId} (deep : Bool)
    (h : ∀ w, current r = some w → ∃ order,
      PostOrder (M.topology.currentBelow current) [.vertex w] order ∧
        ((engine (ι := ι) M P n).performAll trigger false
          (P.leave (.vertex w))).Departs M current trigger order) :
    ∃ order, PostOrder (M.topology.currentBelow current)
        (M.topology.currentBelow current (.region r)) order ∧
      ((engine (ι := ι) M P (n + 1)).perform (.leaveActive r) trigger deep).Departs M current
        trigger order := by
  have hperform : (engine (ι := ι) M P (n + 1)).perform (.leaveActive r) trigger deep =
      Engine.leaveCurrent M P (engine M P n) r trigger := rfl
  have hcurrent : ∀ s : Session σ ι, (∀ r, Instance.current M.topology r s.inst = current r) →
      Run.current M.topology r s = (.value (current r), s) := fun s hs =>
    congrArg (Result.value ·, s) (hs r)
  rw [hperform]
  unfold Engine.leaveCurrent
  cases hr : current r with
  | none =>
    refine ⟨[], ?_, fun s hs => ?_⟩
    · rw [Topology.currentBelow, hr]
      exact .nil
    · unfold Run.Arrives
      rw [Run.bind_of_value (hcurrent s hs), hr]
      exact Run.Departs.pure () s hs
  | some w =>
    obtain ⟨order, horder, hleave⟩ := h w hr
    refine ⟨order, ?_, fun s hs => ?_⟩
    · rw [Topology.currentBelow, hr]
      exact horder
    · unfold Run.Arrives
      rw [Run.bind_of_value (hcurrent s hs), hr]
      exact hleave s hs

/-- The session in which an element has been told to be left. -/
def Session.exited (M : Machine σ) (e : Element) (s : Session σ ι) : Session σ ι :=
  { s with
    inst := Instance.trace ("leave" ++ " " ++ M.topology.qualifiedName e) s.inst
    trail := (M.leaveNotes (Instance.name s.inst) e).reverse ++ s.trail }

variable [Instance.Tracing ι]

variable (trigger current) in
/-- An element is told to be left, and then its exit actions run. -/
theorem leaveElement_departs (n : Nat) (deep : Bool) (e : Element) :
    ((engine (ι := ι) M P (n + 1)).performAll trigger deep
      (.leave e :: (M.exits e).map .behavior)).Departs M current trigger [e] := by
  intro s _
  have htold : (engine M P (n + 1)).performAll trigger deep
      (.leave e :: (M.exits e).map .behavior) s = Run.actAll trigger (M.exits e) (s.exited M e) := by
    rw [← performAll_behaviors (M := M) (P := P) n trigger deep]
    rfl
  unfold Run.Arrives
  rw [htold]
  refine (actAll_cases (M.exits e) (s.exited M e)).imp id fun hvalue => ⟨(), hvalue, ?_⟩
  obtain ⟨acts, env', hperforms, hsession⟩ := Run.actAll_value hvalue
  rw [hsession]
  refine ⟨Instance.Tracing.agree M.topology _ s.inst, rfl,
    M.leaveNotes (Instance.name s.inst) e ++ acts ++ [], ?_, .cons hperforms (.nil _)⟩
  simp [Session.exited]

/-! ## The walk -/

variable (hT : M.topology.WellFormed)
  (hcurrent : ∀ r ∈ M.topology.regions, ∀ w ∈ current r, w ∈ (M.topology.region r).vertices)
include hT

/-- A region is left after what is current in it. -/
theorem leaveRegion_departs {r : RegionId} (hr : r ∈ M.topology.regions) {n : Nat} (deep : Bool)
    (h : ∀ w, current r = some w → ∃ order,
      PostOrder (M.topology.currentBelow current) [.vertex w] order ∧
        ((engine (ι := ι) M M.compile n).performAll trigger false
          (M.compile.leave (.vertex w))).Departs M current trigger order) :
    ∃ order, PostOrder (M.topology.currentBelow current) [.region r] order ∧
      ((engine (ι := ι) M M.compile (n + 1)).performAll trigger deep
        (M.compile.leave (.region r))).Departs M current trigger order := by
  obtain ⟨order, horder, hactive⟩ := leaveActive_departs (P := M.compile) deep h
  have hend := leaveElement_departs (ι := ι) (M := M) (P := M.compile) trigger current n deep
    (.region r)
  rw [Machine.leave_region hT hr]
  exact ⟨order ++ [.region r], .single horder, .bind hactive fun _ => hend⟩

variable (trigger current) in
omit hT [Instance.Tracing ι] in
/-- Regions are left in order. -/
theorem leaveRegions_departs (n : Nat) (deep : Bool) (rs : List RegionId)
    (h : ∀ r ∈ rs, ∃ order, PostOrder (M.topology.currentBelow current) [.region r] order ∧
      ((engine (ι := ι) M P n).performAll trigger deep (P.leave (.region r))).Departs M current
        trigger order) :
    ∃ order, PostOrder (M.topology.currentBelow current) (rs.map .region) order ∧
      ((engine (ι := ι) M P n).performAll trigger deep
        (rs.flatMap fun r => P.leave (.region r))).Departs M current trigger order := by
  induction rs with
  | nil => exact ⟨[], .nil, .nil⟩
  | cons r rs ih =>
    obtain ⟨first, hfirst, hleave⟩ := h r List.mem_cons_self
    obtain ⟨others, hothers, hrest⟩ := ih fun q hq => h q (List.mem_cons_of_mem _ hq)
    exact ⟨first ++ others, hfirst.append hothers, hleave.append hrest⟩

include hcurrent

variable (trigger) in
/-- Every vertex in the model is left in a walk over what is current beneath it. -/
theorem leaveVertex_departs : ∀ v ∈ M.topology.vertices, ∀ n,
    M.topology.vertexNodes.size ≤ v.index + n → ∀ deep, ∃ order,
      PostOrder (M.topology.currentBelow current) [.vertex v] order ∧
        ((engine (ι := ι) M M.compile n).performAll trigger deep
          (M.compile.leave (.vertex v))).Departs M current trigger order := by
  refine hT.owned_induction fun v hv ih n hn deep => ?_
  have hlt := hT.lt_size_of_mem_vertices hv
  obtain ⟨m, rfl⟩ : ∃ m, n = m + 1 := ⟨n - 1, by omega⟩
  obtain ⟨order, horder, hleave⟩ := leaveRegions_departs (ι := ι) (P := M.compile)
    trigger current (m + 1) deep (M.topology.vertex v).regions fun r hr => by
      have hlisted : r ∈ M.topology.regions := Topology.mem_regions.2 ⟨v, hv, hr⟩
      refine leaveRegion_departs hT hlisted deep fun w hw => ?_
      have hmem := hcurrent r hlisted w hw
      have hbelow := (hT.parent_lt w r (hT.mem_vertices r w hmem).2).2
      rw [(hT.mem_regions v r hr).2] at hbelow
      exact ih r hr w hmem m (by omega) false
  have hend := leaveElement_departs (ι := ι) (M := M) (P := M.compile) trigger current m deep
    (.vertex v)
  rw [Machine.leave_vertex hT hv]
  exact ⟨order ++ [.vertex v], .single horder, hleave.append hend⟩

end

/-- From `s` to `s'` the vertex was left with all that is found from it by way of what is current,
each element once and after what is below it, and nothing else happened. -/
def Session.WalksOut [Instance ι] (M : Machine σ) (trigger : Trigger) (v : VertexId)
    (s s' : Session σ ι) : Prop :=
  ∃ order, PostOrder
      (M.topology.currentBelow fun r => Instance.current M.topology r s.inst) [.vertex v] order ∧
    order.Nodup ∧
    (∀ e, e ∈ order ↔
      M.topology.Follows (fun r => Instance.current M.topology r s.inst) (.vertex v) e) ∧
    s.Departs M trigger order s'

/-- If what is current in each region is an attached vertex of it, then to leave a vertex that is in
the model is to walk over what is current beneath it, unless an action fails. -/
theorem leave_walksOut [Instance ι] [Instance.Tracing ι] {M : Machine σ} {allowed : Edit σ → Prop}
    (hM : M.Reachable allowed) {v : VertexId} (hv : M.topology.Has (.vertex v))
    (hattached : ∀ a ∈ M.topology.ancestry (.vertex v), M.topology.isAttached a) {n : Nat}
    (hn : M.topology.vertexNodes.size ≤ n) (trigger : Trigger) (deep : Bool) {s : Session σ ι}
    (hcurrent : ∀ r ∈ M.topology.regions, ∀ w ∈ Instance.current M.topology r s.inst,
      M.topology.isAttached (.vertex w) ∧ (M.topology.vertex w).parent = some r)
    (hact : ∀ message, ((engine M M.compile n).performAll trigger deep
      (M.compile.leave (.vertex v)) s).1 ≠ .failed (.action message)) :
    ((engine M M.compile n).performAll trigger deep (M.compile.leave (.vertex v)) s).1 = .value () ∧
      s.WalksOut M trigger v ((engine M M.compile n).performAll trigger deep
        (M.compile.leave (.vertex v)) s).2 := by
  have hT := hM.wellFormed
  have hlisted : v ∈ M.topology.vertices := hM.marked.listed_iff.2 ⟨hv, hattached⟩
  have hown : ∀ r ∈ M.topology.regions, ∀ w ∈ Instance.current M.topology r s.inst,
      w ∈ (M.topology.region r).vertices := fun r hr w hw => by
    obtain ⟨hwa, hp⟩ := hcurrent r hr w hw
    exact (hM.marked.mem_vertices_iff (Topology.lt_size_of_parent hp) hp).2 hwa
  obtain ⟨order, horder, hdeparts⟩ := leaveVertex_departs (ι := ι) trigger hT hown v
    hlisted n (Nat.le_trans hn (Nat.le_add_left _ _)) deep
  obtain ⟨message, hfail⟩ | ⟨⟨⟩, hvalue, hdeparts⟩ := hdeparts s fun _ => rfl
  · exact absurd hfail (hact message)
  · refine ⟨hvalue, order, horder, ?_, fun e => ?_, hdeparts⟩
    · exact (hT.nodup_of_postOrder hown horder (fun a ha => List.mem_singleton.1 ha ▸ hlisted)
        (List.pairwise_singleton _ _)).1
    · rw [horder.mem_iff]
      simp [Topology.Follows]

/-- Each exit writes its digits behind those of the environment. The first region of `a` holds a
state with a region of its own. -/
def digits : Machine Nat :=
  let write (k : Nat) : Action Nat := fun _ env => { env := 10 * env + k }
  .build "m" {} [
    .addVertex "a" (.state ⟨0⟩) .state, .addRegion "p" ⟨1⟩, .addRegion "q" ⟨1⟩,
    .addVertex "b" (.region ⟨1⟩) .state, .addVertex "c" (.state ⟨2⟩) .state,
    .addVertex "d" (.region ⟨2⟩) .state,
    .modifyState ⟨1⟩ fun b => { b with exit := [write 1, write 5] },
    .modifyState ⟨2⟩ fun b => { b with exit := [write 2] },
    .modifyState ⟨3⟩ fun b => { b with exit := [write 3] },
    .modifyState ⟨4⟩ fun b => { b with exit := [write 4] }]

/-- The first region is left from its bottom up before the second, and `a` is left last. -/
theorem digits_walkOut :
    let i := (digits.start 30 0 (⟨"i", {}, {}, false⟩ : TableInstance)).inst
    let s : Session Nat TableInstance := ⟨0, i, .first, []⟩
    let left := (engine digits digits.compile 5).performAll (.message "go") false
      (digits.compile.leave (.vertex ⟨1⟩)) s
    (digits.Reachable (fun _ => True) ∧ digits.topology.Has (.vertex ⟨1⟩) ∧
      ∀ a ∈ digits.topology.ancestry (.vertex ⟨1⟩), digits.topology.isAttached a) ∧
    (∀ r ∈ digits.topology.regions, ∀ w ∈ Instance.current digits.topology r s.inst,
      digits.topology.isAttached (.vertex w) ∧ (digits.topology.vertex w).parent = some r) ∧
    left.1 = .value () ∧ s.WalksOut digits (.message "go") ⟨1⟩ left.2 ∧ left.2.env = 32415 := by
  intro i s left
  have hM : digits.Reachable fun _ => True := .build (by decide +kernel) fun _ _ => trivial
  have hsize : digits.topology.vertexNodes.size = 5 := by decide +kernel
  have hv : digits.topology.Has (.vertex ⟨1⟩) := by
    rw [Topology.Has, hsize]
    decide
  have hattached : ∀ a ∈ digits.topology.ancestry (.vertex ⟨1⟩), digits.topology.isAttached a := by
    decide +kernel
  have hcurrent : ∀ r ∈ digits.topology.regions, ∀ w ∈ Instance.current digits.topology r s.inst,
      digits.topology.isAttached (.vertex w) ∧ (digits.topology.vertex w).parent = some r := by
    decide +kernel
  have hleft : left.1 = .value () := by decide +kernel
  have hwalks := leave_walksOut hM hv hattached (n := 5) (Nat.le_of_eq hsize) (.message "go") false
    (s := s) hcurrent fun _ h => nomatch hleft.symm.trans h
  exact ⟨⟨hM, hv, hattached⟩, hcurrent, hleft, hwalks.2, by decide +kernel⟩

/-- A region is removed from `s`, and then gets a state and a local transition to it. -/
def stranded : Machine Unit := .build "m" {} [
  .addVertex "s" (.state ⟨0⟩) .state, .addRegion "r" ⟨1⟩, .removeRegion ⟨1⟩,
  .addVertex "x" (.region ⟨1⟩) .state, .addTransition ⟨1⟩ (some ⟨2⟩),
  .setTransitionKind ⟨0⟩ .within, .modifyTransition ⟨0⟩ fun t => { t with guard := .on "go" }]

/-- The state in the removed region is attached itself, and where it is current in its region, the
steps of leaving it still do nothing at all: there are none. -/
theorem stranded_stays :
    let i := ([(⟨0⟩, ⟨1⟩), (⟨1⟩, ⟨2⟩)] : List (RegionId × VertexId)).foldl
      (fun i (r, v) => i.setCurrent stranded.topology r v) (⟨"i", {}, {}, false⟩ : TableInstance)
    let s : Session Unit TableInstance := ⟨(), i, .first, []⟩
    stranded.Reachable (fun _ => True) ∧ stranded.topology.isAttached (.vertex ⟨2⟩) ∧
    (∀ r w, Instance.current stranded.topology r i = some w →
      stranded.topology.isAttached (.vertex w) ∧ (stranded.topology.vertex w).parent = some r) ∧
    ∀ n, ((engine stranded stranded.compile n).performAll (.message "go") false
        (stranded.compile.leave (.vertex ⟨2⟩)) s).1 = .value () ∧
      ¬s.WalksOut stranded (.message "go") ⟨2⟩
        ((engine stranded stranded.compile n).performAll (.message "go") false
          (stranded.compile.leave (.vertex ⟨2⟩)) s).2 := by
  intro i s
  have hleave : stranded.compile.leave (.vertex ⟨2⟩) = [] :=
    List.isEmpty_iff.1 (by decide +kernel)
  refine ⟨.build (by decide +kernel) fun _ _ => trivial, by decide +kernel, fun r w h => ?_,
    fun n => ?_⟩
  · have hentries : i.current.entries = [(⟨0⟩, ⟨1⟩), (⟨1⟩, ⟨2⟩)] := by decide +kernel
    obtain ⟨before, after, hsplit, -⟩ := List.lookup_eq_some_iff.1 h
    have hmem : (r, w) ∈ i.current.entries := hsplit ▸ by simp
    have hall : ∀ p ∈ i.current.entries, stranded.topology.isAttached (.vertex p.2) ∧
        (stranded.topology.vertex p.2).parent = some p.1 := by decide +kernel
    exact hall _ hmem
  · rw [hleave]
    refine ⟨rfl, ?_⟩
    rintro ⟨order, -, -, hmem, hdeparts⟩
    obtain ⟨events, ht, hleaves⟩ := hdeparts.trail
    have hleft := hleaves.left_mem _ ((hmem (.vertex ⟨2⟩)).2 .refl)
    have hnil : events = [] := List.reverse_eq_nil_iff.1 (List.append_left_eq_self.1 ht.symm)
    rw [hnil] at hleft
    cases hleft

end Hsm
