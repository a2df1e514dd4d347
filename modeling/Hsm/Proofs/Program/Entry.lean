import Hsm.Proofs.Program.Parting
import Mathlib.Data.List.Nodup

/-!
# Entering down a path

The entry down a path begins each vertex of it, and at each state of it enters all regions: those
beside the path with what they enter of themselves, the one on the path without, since the next
vertex follows. So the list weaves the path together with copies of the entries beside it. Still
each element is entered once, after its owner (`Topology.Unfolds`), and nothing of the path is left
out (`Machine.Descends`).
-/

namespace Hsm

variable {σ : Type}

/-! ## Owners before what they own -/

namespace Topology

variable (T : Topology)

/-- Each of the elements comes after its owner, if the elements that are known came before. -/
def OwnersFirst : List Element → List Element → Prop
  | _, [] => True
  | known, e :: es => (∃ a ∈ T.owner e, a ∈ known) ∧ OwnersFirst (e :: known) es

/-- After `a` come elements beneath it, each once and after its owner. -/
structure Unfolds (a : Element) (es : List Element) : Prop where
  nodup : (a :: es).Nodup
  beneath : ∀ e ∈ a :: es, T.Beneath a e
  owners : T.OwnersFirst [a] es

variable {T}

namespace OwnersFirst

theorem mono : ∀ {es known known' : List Element}, T.OwnersFirst known es →
    known ⊆ known' → T.OwnersFirst known' es
  | [], _, _, _, _ => trivial
  | e :: _, _, _, h, hsub => by
    obtain ⟨⟨a, ha, hknown⟩, hes⟩ := h
    exact ⟨⟨a, ha, hsub hknown⟩, hes.mono (List.cons_subset_cons e hsub)⟩

theorem append : ∀ {xs known ys : List Element}, T.OwnersFirst known xs →
    T.OwnersFirst (xs ++ known) ys → T.OwnersFirst known (xs ++ ys)
  | [], _, _, _, hys => hys
  | e :: xs, known, _, hxs, hys => by
    have hsub : e :: xs ++ known ⊆ xs ++ e :: known := List.perm_middle.symm.subset
    exact ⟨hxs.1, hxs.2.append (hys.mono hsub)⟩

/-- Every element comes after its owner. -/
theorem owner_mem : ∀ {before known after : List Element} {e : Element},
    T.OwnersFirst known (before ++ e :: after) → ∃ a ∈ T.owner e, a ∈ before ∨ a ∈ known
  | [], _, _, _, h => by
    obtain ⟨a, ha, hknown⟩ := h.1
    exact ⟨a, ha, .inr hknown⟩
  | b :: before, _, _, _, h => by
    obtain ⟨a, ha, hmem⟩ := h.2.owner_mem
    refine ⟨a, ha, ?_⟩
    rcases hmem with hmem | hmem
    · exact .inl (List.mem_cons_of_mem b hmem)
    · exact (List.mem_cons.1 hmem).imp (fun h : a = b => h ▸ List.mem_cons_self) id

end OwnersFirst

namespace Unfolds

variable (hT : T.WellFormed) {a c d : Element} {es cs : List Element}

theorem self (ha : T.Listed a) : T.Unfolds a [] where
  nodup := List.nodup_singleton a
  beneath _ he := (List.mem_singleton.1 he).symm ▸ beneath_self ha
  owners := trivial

include hT

/-- Children come one after the other, each followed by what comes after it. -/
theorem of_children {f : Element → List Element} (ha : T.Listed a)
    (hsub : cs.Sublist (T.children a)) (h : ∀ c ∈ cs, T.Unfolds c (f c)) :
    T.Unfolds a (cs.flatMap fun c => c :: f c) where
  nodup := by
    refine List.nodup_cons.2 ⟨fun hmem => ?_, List.nodup_flatMap.2 ⟨fun c hc => (h c hc).nodup, ?_⟩⟩
    · obtain ⟨c, hc, hmem⟩ := List.mem_flatMap.1 hmem
      exact hT.not_beneath_child (hsub.subset hc) ((h c hc).beneath a hmem)
    · refine ((hT.nodup_children a).sublist hsub).pairwise_of_forall_ne ?_
      intro c hc d hd hne e hce hde
      exact hne (hT.child_unique (hsub.subset hc) (hsub.subset hd) ((h c hc).beneath e hce)
        ((h d hd).beneath e hde))
  beneath e he := by
    rcases List.mem_cons.1 he with rfl | he
    · exact beneath_self ha
    · obtain ⟨c, hc, he⟩ := List.mem_flatMap.1 he
      exact hT.beneath_of_child (hsub.subset hc) ((h c hc).beneath e he)
  owners := by
    have howner : ∀ c ∈ cs, a ∈ T.owner c := fun c hc =>
      hT.owner_of_mem_children (hsub.subset hc)
    suffices hall : ∀ (cs : List Element), (∀ c ∈ cs, a ∈ T.owner c ∧ T.OwnersFirst [c] (f c)) →
        ∀ known, a ∈ known → T.OwnersFirst known (cs.flatMap fun c => c :: f c) from
      hall cs (fun c hc => ⟨howner c hc, (h c hc).owners⟩) [a] List.mem_cons_self
    intro cs
    induction cs with
    | nil => exact fun _ _ _ => trivial
    | cons c cs ih =>
      intro hcs known hknown
      obtain ⟨hc, hf⟩ := hcs c List.mem_cons_self
      refine ⟨⟨a, hc, hknown⟩, (hf.mono (by simp)).append ?_⟩
      exact ih (fun d hd => hcs d (List.mem_cons_of_mem _ hd)) _
        (List.mem_append_right _ (List.mem_cons_of_mem _ hknown))

/-- A child of an element may also come later, if nothing beneath it has come before. -/
theorem graft (h : T.Unfolds a es) (hc : c ∈ a :: es) (hd : d ∈ T.children c)
    (hnew : ∀ e ∈ a :: es, ¬T.Beneath d e) {ds : List Element} (hds : T.Unfolds d ds) :
    T.Unfolds a (es ++ d :: ds) where
  nodup := by
    rw [← List.cons_append]
    exact List.nodup_append.2 ⟨h.nodup, hds.nodup, fun e he e' he' heq =>
      hnew e he (heq ▸ hds.beneath e' he')⟩
  beneath e he := by
    rw [← List.cons_append] at he
    rcases List.mem_append.1 he with he | he
    · exact h.beneath e he
    · have hce := hT.beneath_of_child hd (hds.beneath e he)
      exact ⟨hce.1, Forest.mem_ancestors_trans (F := T.ownership) (h.beneath c hc).2 hce.2⟩
  owners := by
    refine h.owners.append ⟨⟨c, hT.owner_of_mem_children hd, ?_⟩, hds.owners.mono (by simp)⟩
    simpa [or_comm] using hc

end Unfolds

end Topology

/-! ## What steps tell of -/

/-- The elements that are entered, in this order. -/
def Step.entered (steps : List (Step σ)) : List Element :=
  steps.filterMap fun
    | .enter e => some e
    | _ => none

namespace Step

@[simp] theorem entered_nil : entered ([] : List (Step σ)) = [] := rfl

@[simp] theorem entered_enter_cons (e : Element) (steps : List (Step σ)) :
    entered (.enter e :: steps) = e :: entered steps := rfl

@[simp] theorem entered_append (xs ys : List (Step σ)) :
    entered (xs ++ ys) = entered xs ++ entered ys :=
  List.filterMap_append

theorem entered_flatMap {α : Type} (f : α → List (Step σ)) (l : List α) :
    entered (l.flatMap f) = l.flatMap fun a => entered (f a) := by
  induction l with
  | nil => rfl
  | cons a l ih => rw [List.flatMap_cons, entered_append, ih, List.flatMap_cons]

@[simp] theorem entered_behaviors (as : List (Action σ)) : entered (as.map .behavior) = [] := by
  induction as with
  | nil => rfl
  | cons a as ih => exact ih

end Step

namespace Machine

variable {M : Machine σ}

@[simp] theorem entered_currentSteps (v : VertexId) : Step.entered (M.currentSteps v) = [] := by
  unfold currentSteps
  split <;> rfl

section

variable (hT : M.topology.WellFormed)
include hT

theorem entered_beginEnter {e : Element} (he : M.topology.Listed e) :
    Step.entered (M.compile.beginEnter e) = [e] := by
  cases e with
  | region r => rw [beginEnter_region hT he]; rfl
  | vertex v =>
    obtain ⟨rest, hrest, hend⟩ := exists_beginEnter_vertex hT he
    have hnone : Step.entered rest = [] := by
      rcases hend with ⟨as, rfl⟩ | rfl
      · exact Step.entered_behaviors as
      · rfl
    rw [hrest]
    simp [hnone]

theorem entered_enter {e : Element} (he : M.topology.Listed e) :
    Step.entered (M.compile.enter e) = e :: Step.entered (M.compile.endEnter e) := by
  rw [Program.enter, Step.entered_append, entered_beginEnter hT he, List.singleton_append]

/-- An element ends its entry with the entry of some of its children. -/
theorem exists_entered_endEnter {e : Element} (he : M.topology.Listed e) :
    ∃ cs : List Element, cs.Sublist (M.topology.children e) ∧ Step.entered (M.compile.endEnter e) =
      cs.flatMap fun c => c :: Step.entered (M.compile.endEnter c) := by
  cases e with
  | region r =>
    rw [endEnter_region hT he]
    unfold regionEntry
    split
    · rename_i v hi
      have hv := Topology.regionInitial_mem hi
      split
      · refine ⟨[.vertex v], List.singleton_sublist.2 (List.mem_map_of_mem hv), ?_⟩
        rw [entered_enter hT (e := .vertex v) (hT.mem_vertices_of_region he hv)]
        simp
      · exact ⟨[], List.nil_sublist _, rfl⟩
    · exact ⟨[], List.nil_sublist _, rfl⟩
  | vertex v =>
    by_cases hstate : M.topology.isState v
    · refine ⟨_, List.Sublist.refl _, ?_⟩
      rw [endEnter_state hT he hstate, Step.entered_flatMap, Topology.children, List.flatMap_map]
      exact List.flatMap_congr fun r hr =>
        entered_enter hT (Topology.mem_regions.2 ⟨v, he, hr⟩)
    · obtain ⟨k, hk⟩ := Topology.exists_pseudo hstate
      refine ⟨[], List.nil_sublist _, ?_⟩
      rw [endEnter_pseudo hT he hk]
      split <;> rfl

theorem unfolds_endEnter : ∀ e, M.topology.Listed e →
    M.topology.Unfolds e (Step.entered (M.compile.endEnter e)) := by
  refine hT.children_induction fun e he ih => ?_
  obtain ⟨cs, hsub, hentered⟩ := exists_entered_endEnter hT he
  rw [hentered]
  exact .of_children hT he hsub fun c hc => ih c (hsub.subset hc)

/-- At a state of a path all its regions are entered, and the next vertex follows. -/
theorem entered_cascade_cons {a w : VertexId} {r : RegionId} (ha : a ∈ M.topology.vertices)
    (hr : (M.topology.vertex w).parent = some r) (hmem : r ∈ (M.topology.vertex a).regions)
    (rest : List VertexId) : Step.entered (M.compile.cascade M.topology (a :: w :: rest)) =
      .vertex a :: (M.topology.children (.vertex a)).flatMap (fun c =>
        c :: if c = .region r then [] else Step.entered (M.compile.endEnter c)) ++
      Step.entered (M.compile.cascade M.topology (w :: rest)) := by
  have hbeside : Step.entered (M.compile.enterBeside (some r) (M.topology.vertex a).regions) =
      (M.topology.children (.vertex a)).flatMap fun c =>
        c :: if c = .region r then [] else Step.entered (M.compile.endEnter c) := by
    rw [Program.enterBeside, Step.entered_flatMap, Topology.children, List.flatMap_map]
    refine List.flatMap_congr fun q hq => ?_
    rw [Step.entered_append, entered_beginEnter hT (e := .region q)
      (Topology.mem_regions.2 ⟨a, ha, hq⟩), List.singleton_append]
    by_cases h : q = r <;> simp [h]
  rw [Program.cascade, if_pos (hT.isState_of_regions a (List.ne_nil_of_mem hmem)), hr,
    Step.entered_append, Step.entered_append, entered_beginEnter hT (e := .vertex a) ha, hbeside,
    List.singleton_append]

section Path

variable {x : VertexId} (hx : x ∈ M.topology.vertices)
include hx

/-- The first vertex of the path is entered first, and everything else beneath it. -/
theorem unfolds_cascade : ∀ (rest : List VertexId) (a : VertexId),
    a :: rest <:+ M.topology.vertexAncestry x → ∃ es,
      Step.entered (M.compile.cascade M.topology (a :: rest) ++ M.compile.endEnter (.vertex x)) =
        .vertex a :: es ∧ M.topology.Unfolds (.vertex a) es
  | [], a, h => by
    obtain rfl := Topology.eq_of_suffix_singleton h
    exact ⟨_, entered_enter hT hx, unfolds_endEnter hT _ hx⟩
  | w :: rest, a, h => by
    obtain ⟨r, hr, hw, -⟩ := hT.region_of_suffix hx h
    have hmem : ∀ v ∈ a :: w :: rest, v ∈ M.topology.vertices := fun v hv =>
      hT.mem_vertices_of_mem_vertexAncestry hx (h.subset hv)
    have ha := hmem a List.mem_cons_self
    obtain ⟨es, hes, hunfolds⟩ := unfolds_cascade rest w ((List.suffix_cons a _).trans h)
    have hchild : ∀ c ∈ M.topology.children (.vertex a), M.topology.Unfolds c
        (if c = .region r then [] else Step.entered (M.compile.endEnter c)) := by
      intro c hc
      have hlisted := hT.listed_of_mem_children (a := .vertex a) ha hc
      split
      · exact .self hlisted
      · exact unfolds_endEnter hT c hlisted
    have hrc : Element.region r ∈ M.topology.children (.vertex a) := List.mem_map_of_mem hr
    have hwr : Element.vertex w ∈ M.topology.children (.region r) :=
      List.mem_map_of_mem (hT.listed_of_parent (hmem w (by simp)) hw).2
    refine ⟨_, ?_, (Topology.Unfolds.of_children hT (a := .vertex a) ha (.refl _) hchild).graft
      hT (c := .region r) ?_ hwr ?_ hunfolds⟩
    · rw [Step.entered_append, entered_cascade_cons hT ha hw hr, List.append_assoc,
        ← Step.entered_append, hes]
      rfl
    · exact List.mem_cons_of_mem _ (List.mem_flatMap.2 ⟨_, hrc, List.mem_cons_self⟩)
    -- Beneath `w` nothing was entered: its region was begun and left open.
    · intro e he hwe
      have hre := hT.beneath_of_child hwr hwe
      rcases List.mem_cons.1 he with rfl | he
      · exact hT.not_beneath_child hrc hre
      · obtain ⟨c, hc, he⟩ := List.mem_flatMap.1 he
        obtain rfl := hT.child_unique hc hrc ((hchild c hc).beneath e he) hre
        rw [if_pos rfl, List.mem_singleton] at he
        exact hT.not_beneath_child hwr (he ▸ hwe)

theorem sublist_entered_cascade : ∀ (rest : List VertexId) (a : VertexId),
    a :: rest <:+ M.topology.vertexAncestry x → ((a :: rest).map Element.vertex).Sublist
      (Step.entered (M.compile.cascade M.topology (a :: rest)))
  | [], a, h => by
    obtain rfl := Topology.eq_of_suffix_singleton h
    rw [Program.cascade, entered_beginEnter hT (e := .vertex a) hx]
    exact .refl _
  | w :: rest, a, h => by
    obtain ⟨r, hr, hw, -⟩ := hT.region_of_suffix hx h
    have ha := hT.mem_vertices_of_mem_vertexAncestry hx (h.subset List.mem_cons_self)
    have ih := sublist_entered_cascade rest w ((List.suffix_cons a _).trans h)
    rw [entered_cascade_cons hT ha hw hr]
    exact (ih.trans (List.sublist_append_right _ _)).cons_cons _

theorem region_mem_entered_cascade : ∀ (rest : List VertexId) (a : VertexId),
    a :: rest <:+ M.topology.vertexAncestry x → ∀ v ∈ a :: rest, v ≠ x →
      ∀ r ∈ (M.topology.vertex v).regions,
        .region r ∈ Step.entered (M.compile.cascade M.topology (a :: rest))
  | [], a, h, v, hv, hne, _, _ =>
    absurd ((List.mem_singleton.1 hv).trans (Topology.eq_of_suffix_singleton h)) hne
  | w :: rest, a, h, v, hv, hne, r, hr => by
    obtain ⟨q, hq, hw, -⟩ := hT.region_of_suffix hx h
    have ha := hT.mem_vertices_of_mem_vertexAncestry hx (h.subset List.mem_cons_self)
    rw [entered_cascade_cons hT ha hw hq]
    rcases List.mem_cons.1 hv with rfl | hv
    · exact List.mem_append_left _ (List.mem_cons_of_mem _ (List.mem_flatMap.2
        ⟨_, List.mem_map_of_mem hr, List.mem_cons_self⟩))
    · exact List.mem_append_right _ (region_mem_entered_cascade rest w
        ((List.suffix_cons a _).trans h) v hv hne r hr)

end Path

end

/-! ## What becomes current -/

/-- A vertex that is entered becomes current in its region by the next step. -/
def SetsCurrent (M : Machine σ) (steps : List (Step σ)) : Prop :=
  ∀ before v after r, steps = before ++ .enter (.vertex v) :: after →
    (M.topology.vertex v).parent = some r → ∃ rest, after = .setCurrent r v :: rest

namespace SetsCurrent

theorem of_not_mem {steps : List (Step σ)} (h : ∀ v, .enter (.vertex v) ∉ steps) :
    M.SetsCurrent steps := fun _ v _ _ hcut _ => absurd (hcut ▸ by simp) (h v)

theorem append {xs ys : List (Step σ)} (hxs : M.SetsCurrent xs) (hys : M.SetsCurrent ys) :
    M.SetsCurrent (xs ++ ys) := by
  intro before v after r hcut hr
  rcases List.append_eq_append_iff.1 hcut with ⟨zs, -, hzs⟩ | ⟨zs, hxz, hzs⟩
  · exact hys zs v after r hzs hr
  · cases zs with
    | nil => exact hys [] v after r hzs.symm hr
    | cons z zs =>
      obtain ⟨rfl, hafter⟩ := List.cons.inj hzs
      obtain ⟨rest, rfl⟩ := hxs before v zs r hxz hr
      exact ⟨rest ++ ys, hafter⟩

theorem flatMap {α : Type} {f : α → List (Step σ)} :
    ∀ {l : List α}, (∀ a ∈ l, M.SetsCurrent (f a)) → M.SetsCurrent (l.flatMap f)
  | [], _ => of_not_mem fun _ => List.not_mem_nil
  | a :: l, h => by
    rw [List.flatMap_cons]
    exact (h a List.mem_cons_self).append (flatMap fun b hb => h b (List.mem_cons_of_mem _ hb))

theorem vertex (v : VertexId) {rest : List (Step σ)} (h : ∀ w, .enter (.vertex w) ∉ rest) :
    M.SetsCurrent (.enter (.vertex v) :: M.currentSteps v ++ rest) := by
  refine append ?_ (of_not_mem h)
  intro before w after r hcut hr
  cases before with
  | nil =>
    obtain ⟨hw, rfl⟩ := List.cons.inj hcut
    injection hw with hw
    injection hw with hw
    subst hw
    exact ⟨[], currentSteps_of_parent hr⟩
  | cons s before =>
    have hmem : .enter (.vertex w) ∈ M.currentSteps v := (List.cons.inj hcut).2 ▸ by simp
    unfold currentSteps at hmem
    split at hmem <;> simp at hmem

variable (hT : M.topology.WellFormed)
include hT

theorem beginEnter (e : Element) : M.SetsCurrent (M.compile.beginEnter e) := by
  by_cases he : M.topology.Listed e
  · cases e with
    | region r =>
      rw [beginEnter_region hT he]
      exact of_not_mem fun v => by simp
    | vertex v =>
      obtain ⟨rest, hrest, hend⟩ := exists_beginEnter_vertex hT he
      rw [hrest]
      refine vertex v fun w => ?_
      rcases hend with ⟨as, rfl⟩ | rfl <;> simp
  · rw [Program.beginEnter, steps_compile_of_not_listed hT he]
    exact of_not_mem fun _ => List.not_mem_nil

theorem endEnter (e : Element) : M.SetsCurrent (M.compile.endEnter e) := by
  by_cases he : M.topology.Listed e
  swap
  · rw [Program.endEnter, steps_compile_of_not_listed hT he]
    exact of_not_mem fun _ => List.not_mem_nil
  refine endEnter_induction hT (p := fun _ => M.SetsCurrent)
    (fun r hr => of_not_mem fun v => by simp) (fun r hr v hi ih => (beginEnter hT _).append ih)
    (fun v hv hstate ih => flatMap fun r hr => (beginEnter hT _).append (ih r hr))
    (fun v hv k hk hi => of_not_mem fun w => by simp)
    (fun v hv k hk hi => of_not_mem fun w => by simp) e he

theorem cascade : ∀ path, M.SetsCurrent (M.compile.cascade M.topology path)
  | [] => of_not_mem fun _ => List.not_mem_nil
  | [v] => beginEnter hT _
  | v :: w :: rest => by
    have hbeside : M.SetsCurrent (M.compile.enterBeside (M.topology.vertex w).parent
        (M.topology.vertex v).regions) := flatMap fun r _ => (beginEnter hT _).append <| by
      split
      · exact of_not_mem fun _ => List.not_mem_nil
      · exact endEnter hT _
    refine ((beginEnter hT _).append ?_).append (cascade (w :: rest))
    split
    · exact hbeside
    · exact of_not_mem fun _ => List.not_mem_nil

end SetsCurrent

/-! ## The entry down a path -/

/-- The steps enter what is on the path down to `x` and beside it. -/
structure Descends (M : Machine σ) (x : VertexId) (path : List VertexId) (steps : List (Step σ)) :
    Prop where
  once : (Step.entered steps).Nodup
  on_path : (path.map Element.vertex).Sublist (Step.entered steps)
  regions : ∀ v ∈ path, v ≠ x → ∀ r ∈ (M.topology.vertex v).regions,
    .region r ∈ Step.entered steps
  owner_first : ∀ before e after, Step.entered steps = before ++ e :: after →
    path.head?.map .vertex = some e ∨ ∃ a ∈ M.topology.owner e, a ∈ before
  current : M.SetsCurrent steps

/-- From wherever on the way to an attached vertex it begins, an entry enters each element once, the
way and the regions beside it among them, owners first. -/
theorem cascade_descends {allowed : Edit σ → Prop} (hM : M.Reachable allowed) {x : VertexId}
    (hx : M.topology.Has (.vertex x))
    (hattached : ∀ a ∈ M.topology.ancestry (.vertex x), M.topology.isAttached a) {k : Nat}
    (hk : k < (M.topology.vertexAncestry x).length) :
    M.Descends x ((M.topology.vertexAncestry x).drop k)
      (M.compile.cascade M.topology ((M.topology.vertexAncestry x).drop k) ++
        M.compile.endEnter (.vertex x)) := by
  have hT := hM.wellFormed
  have hlisted : x ∈ M.topology.vertices := hM.marked.listed_iff.2 ⟨hx, hattached⟩
  have hsuffix := List.drop_suffix k (M.topology.vertexAncestry x)
  rw [List.drop_eq_getElem_cons hk] at hsuffix ⊢
  obtain ⟨es, hes, hunfolds⟩ := unfolds_cascade hT hlisted _ _ hsuffix
  refine ⟨hes ▸ hunfolds.nodup, ?_, fun v hv hne r hr => ?_, fun before e after hcut => ?_,
    (SetsCurrent.cascade hT _).append (SetsCurrent.endEnter hT _)⟩
  · rw [Step.entered_append]
    exact (sublist_entered_cascade hT hlisted _ _ hsuffix).trans (List.sublist_append_left _ _)
  · rw [Step.entered_append]
    exact List.mem_append_left _ (region_mem_entered_cascade hT hlisted _ _ hsuffix v hv hne r hr)
  · rw [hes] at hcut
    cases before with
    | nil => exact .inl (congrArg some (List.cons.inj hcut).1)
    | cons b before =>
      obtain ⟨rfl, hrest⟩ := List.cons.inj hcut
      obtain ⟨a, ha, hmem⟩ := (hrest ▸ hunfolds.owners).owner_mem
      refine .inr ⟨a, ha, ?_⟩
      rcases hmem with hmem | hmem
      · exact List.mem_cons_of_mem _ hmem
      · exact List.mem_singleton.1 hmem ▸ List.mem_cons_self

/-- A state with two regions, and in the second of them another one; the way to `e` goes through
the last region of each. -/
def nestedPairs : Machine Unit := .build "m" {} [
  .addVertex "a" (.state ⟨0⟩) .state, .addRegion "p" ⟨1⟩, .addRegion "q" ⟨1⟩,
  .addVertex "b" (.region ⟨1⟩) .state, .addVertex "c" (.state ⟨2⟩) .state,
  .addVertex "d" (.region ⟨2⟩) .state, .addRegion "r" ⟨4⟩, .addRegion "s" ⟨4⟩,
  .addVertex "f" (.region ⟨4⟩) .state, .addVertex "e" (.region ⟨5⟩) .state]

/-- What lies beside the way is entered between its vertices, level by level. -/
theorem nestedPairs_descends : nestedPairs.Reachable (fun _ => True) ∧
    nestedPairs.topology.Has (.vertex ⟨6⟩) ∧
    (∀ a ∈ nestedPairs.topology.ancestry (.vertex ⟨6⟩), nestedPairs.topology.isAttached a) ∧
    (nestedPairs.topology.vertexAncestry ⟨6⟩).drop 1 = [⟨1⟩, ⟨4⟩, ⟨6⟩] ∧
    nestedPairs.Descends ⟨6⟩ ((nestedPairs.topology.vertexAncestry ⟨6⟩).drop 1)
      (nestedPairs.compile.cascade nestedPairs.topology
        ((nestedPairs.topology.vertexAncestry ⟨6⟩).drop 1) ++
          nestedPairs.compile.endEnter (.vertex ⟨6⟩)) ∧
    Step.entered (nestedPairs.compile.cascade nestedPairs.topology
      ((nestedPairs.topology.vertexAncestry ⟨6⟩).drop 1)) = [.vertex ⟨1⟩, .region ⟨1⟩, .vertex ⟨2⟩,
        .region ⟨3⟩, .vertex ⟨3⟩, .region ⟨2⟩, .vertex ⟨4⟩, .region ⟨4⟩, .vertex ⟨5⟩, .region ⟨5⟩,
        .vertex ⟨6⟩] := by
  have hM : nestedPairs.Reachable fun _ => True := .build (by decide +kernel) fun _ _ => trivial
  have hx : nestedPairs.topology.Has (.vertex ⟨6⟩) := by
    rw [Topology.Has, show nestedPairs.topology.vertexNodes.size = 7 by decide +kernel]
    decide
  have hattached : ∀ a ∈ nestedPairs.topology.ancestry (.vertex ⟨6⟩),
      nestedPairs.topology.isAttached a := by decide +kernel
  exact ⟨hM, hx, hattached, by decide +kernel,
    cascade_descends hM hx hattached (k := 1) (by decide +kernel), by decide +kernel⟩

end Machine

end Hsm
