import Hsm.Proofs.Machine.Reachable
import Hsm.Proofs.Program.Split

/-!
# The ends of an external transition, whatever they are

The index at which an external transition changes from leaving to entering is one formula for ends
that are the same, above each other or apart. In each case it is an index of both ancestries, and
the vertices found there are siblings below the meet of the ends, or both the end nearer the root
(`Machine.Parts`). The steps leave the one, then enter the other, and do not touch what is above
(`Machine.Moves`). This holds for all handles that a model has given out (`Machine.external_moves`);
only what was removed has no steps of its own.
-/

namespace Hsm

variable {σ : Type}

namespace Topology

variable {T : Topology}

theorem isChain_vertexAncestry (v : VertexId) :
    (T.vertexAncestry v).IsChain fun u w => T.parentState w = some u :=
  Forest.isChain_ancestors (F := T.stateTree) v

namespace WellFormed

variable (hT : T.WellFormed)
include hT

theorem head?_vertexAncestry {v : VertexId} (hv : v.index < T.vertexNodes.size) :
    (T.vertexAncestry v).head? = some root := by
  cases hp : (T.vertex v).parent with
  | none =>
    rw [hT.vertexAncestry_of_not_parent hp, hT.eq_root v hv hp]
    rfl
  | some r =>
    have hlt := (hT.parent_lt v r hp).2
    have ih := head?_vertexAncestry (v := (T.region r).parent) (by omega)
    rw [hT.vertexAncestry_of_parent hp, List.head?_append, ih]
    rfl
termination_by v.index

end WellFormed

end Topology

namespace Machine

/-- The way from `s` to `t` changes from the way of `s` to that of `t` at `x` and `y`. -/
structure Parts (M : Machine σ) (s t x y : VertexId) : Prop where
  -- Every place that is looked up exists.
  source_head : (M.topology.vertexAncestry s).head? = some Topology.root
  target_head : (M.topology.vertexAncestry t).head? = some Topology.root
  common : ∃ i, Forest.commonIndex (M.topology.vertexAncestry s) (M.topology.vertexAncestry t)
    = some i
  length_pos : 0 < min (M.topology.vertexAncestry s).length (M.topology.vertexAncestry t).length
  left_at : (M.topology.vertexAncestry s)[splitIndex (M.topology.vertexAncestry s)
    (M.topology.vertexAncestry t)]? = some x
  entered_at : (M.topology.vertexAncestry t)[splitIndex (M.topology.vertexAncestry s)
    (M.topology.vertexAncestry t)]? = some y
  -- Ends that are apart part below their meet.
  apart : s ∉ M.topology.vertexAncestry t → t ∉ M.topology.vertexAncestry s → x ≠ y ∧
    ∃ m, M.topology.stateTree.meet s t = some m ∧
      (∀ c, c ∈ M.topology.vertexAncestry m ↔
        c ∈ M.topology.vertexAncestry s ∧ c ∈ M.topology.vertexAncestry t) ∧
      M.topology.parentState x = some m ∧ M.topology.parentState y = some m
  left_mem : x ∈ M.topology.vertexAncestry s
  left_listed : s ∈ M.topology.vertices → x ∈ M.topology.vertices
  entered_mem : y ∈ M.topology.vertexAncestry t
  entered_listed : t ∈ M.topology.vertices → y ∈ M.topology.vertices
  -- Otherwise the end nearer the root is left and entered again.
  source_above : s ∈ M.topology.vertexAncestry t → x = s ∧ y = s
  target_above : t ∈ M.topology.vertexAncestry s → x = t ∧ y = t

/-- The steps leave `x` and with it no other vertex of its way, then enter `y`, first of all that
they enter. -/
structure Moves (M : Machine σ) (x y : VertexId) (steps : List (Step σ)) : Prop where
  left : x ∈ M.topology.vertices → ∀ w, .leave (.vertex w) ∈ steps ↔ w = x
  entered : y ∈ M.topology.vertices → ∃ before after,
    steps = before ++ .enter (.vertex y) :: after ∧ (∀ e, .enter e ∉ before) ∧
      (x ∈ M.topology.vertices → .leave (.vertex x) ∈ before)
  above : ∀ w ∈ M.topology.vertexAncestry x, w ≠ x → .leave (.vertex w) ∉ steps ∧
    .enter (.vertex w) ∉ steps ∧ ∀ r, .setCurrent r w ∉ steps

/-! ## Where the ways part -/

section Parts

variable {T : Topology} {s t a b : VertexId} {above as bs : List VertexId}

/-- A way that goes on from one that has ended parts from it at its end. -/
theorem eq_of_above (hs : T.vertexAncestry s = above ++ a :: as)
    (ht : T.vertexAncestry t = above ++ b :: bs) (hend : a = b → as = [] ∨ bs = [])
    (h : s ∈ T.vertexAncestry t) : a = s ∧ b = s := by
  obtain ⟨rest, hrest⟩ := Forest.prefix_of_mem_ancestors (F := T.stateTree) h
  have hcons : a :: as ++ rest = b :: bs := by
    have hwhole : (above ++ a :: as) ++ rest = above ++ b :: bs := by
      rw [← hs, ← ht]
      exact hrest
    rw [List.append_assoc] at hwhole
    exact List.append_cancel_left hwhole
  obtain ⟨hab, hbs⟩ := List.cons.inj hcons
  have has : as = [] := by
    refine (hend hab).elim id fun h => ?_
    rw [h] at hbs
    exact (List.append_eq_nil_iff.1 hbs).1
  subst has
  have hlast := Topology.eq_of_suffix_singleton ⟨above, hs.symm⟩
  exact ⟨hlast, hab ▸ hlast⟩

variable (hT : T.WellFormed) (hs₀ : s.index < T.vertexNodes.size)
  (ht₀ : t.index < T.vertexNodes.size)
include hT hs₀ ht₀

/-- Ends apart have a last common vertex, and their ways part right below it. -/
theorem exists_meet_of_apart (hs : T.vertexAncestry s = above ++ a :: as)
    (ht : T.vertexAncestry t = above ++ b :: bs) (hne : a ≠ b) :
    ∃ m, T.stateTree.meet s t = some m ∧ T.parentState a = some m ∧ T.parentState b = some m := by
  have hsource := hT.head?_vertexAncestry hs₀
  have htarget := hT.head?_vertexAncestry ht₀
  rw [hs] at hsource
  rw [ht] at htarget
  have hnil : above ≠ [] := by
    rintro rfl
    exact hne (Option.some.inj (hsource.trans htarget.symm))
  rw [← List.dropLast_append_getLast hnil, List.append_assoc, List.singleton_append] at hs ht
  have hparent : ∀ {v c : VertexId} {cs}, T.vertexAncestry v = above.dropLast ++
      above.getLast hnil :: c :: cs → T.parentState c = some (above.getLast hnil) := by
    intro v c cs h
    have hchain := h ▸ Topology.isChain_vertexAncestry (T := T) v
    exact (List.isChain_cons_cons.1 (List.isChain_append.1 hchain).2.1).1
  exact ⟨_, Forest.meet_of_append (F := T.stateTree) hs ht hne, hparent hs, hparent ht⟩

end Parts

variable {M : Machine σ} (hT : M.topology.WellFormed)
include hT

theorem parts_of_split {s t a b : VertexId} {above as bs : List VertexId}
    (hs₀ : M.topology.Has (.vertex s)) (ht₀ : M.topology.Has (.vertex t))
    (hs : M.topology.vertexAncestry s = above ++ a :: as)
    (ht : M.topology.vertexAncestry t = above ++ b :: bs)
    (hsplit : splitIndex (above ++ a :: as) (above ++ b :: bs) = above.length)
    (hend : a = b → as = [] ∨ bs = []) : M.Parts s t a b where
  source_head := hT.head?_vertexAncestry hs₀
  target_head := hT.head?_vertexAncestry ht₀
  common := Forest.exists_commonIndex (hT.head?_vertexAncestry hs₀) (hT.head?_vertexAncestry ht₀)
  length_pos := by
    rw [hs, ht, List.length_append, List.length_append, List.length_cons, List.length_cons]
    omega
  left_at := by rw [hs, ht, hsplit]; simp
  entered_at := by rw [hs, ht, hsplit]; simp
  apart hst hts := by
    have hne : a ≠ b := by
      rintro rfl
      rcases hend rfl with rfl | rfl
      · refine hst ?_
        rw [← Topology.eq_of_suffix_singleton ⟨above, hs.symm⟩, ht]
        simp
      · refine hts ?_
        rw [← Topology.eq_of_suffix_singleton ⟨above, ht.symm⟩, hs]
        simp
    obtain ⟨m, hm, ha, hb⟩ := exists_meet_of_apart hT hs₀ ht₀ hs ht hne
    exact ⟨hne, m, hm, fun c => Forest.mem_ancestors_meet hm, ha, hb⟩
  left_mem := by rw [hs]; simp
  left_listed h := hT.mem_vertices_of_mem_vertexAncestry h (by rw [hs]; simp)
  entered_mem := by rw [ht]; simp
  entered_listed h := hT.mem_vertices_of_mem_vertexAncestry h (by rw [ht]; simp)
  source_above h := eq_of_above hs ht hend h
  target_above h := (eq_of_above ht hs (fun h => (hend h.symm).symm) h).symm

/-! ## What the steps do -/

/-- A vertex is left with its regions, but with no other vertex as far as the program tells: the
rest depends on what is active. -/
theorem eq_of_leave_mem {v w : VertexId}
    (h : .leave (.vertex w) ∈ M.compile.leave (.vertex v)) : w = v := by
  cases leaveStep_of_mem hT h with
  | leave => rfl
  | owned _ h => cases h

theorem moves_of_split {s t a b : VertexId} {above as bs : List VertexId}
    (hs : M.topology.vertexAncestry s = above ++ a :: as)
    (ht : M.topology.vertexAncestry t = above ++ b :: bs)
    (hsplit : splitIndex (above ++ a :: as) (above ++ b :: bs) = above.length)
    (effects : List (Action σ)) : M.Moves a b (M.externalSteps M.compile s t effects) := by
  rw [externalSteps_eq hs ht hsplit, List.append_assoc]
  refine ⟨fun ha w => ⟨fun h => ?_, ?_⟩, fun hb => ?_, fun w hw hne => ?_⟩
  · rcases List.mem_append.1 h with h | h
    · rcases List.mem_append.1 h with h | h
      · exact eq_of_leave_mem hT h
      · simp at h
    · exact (enters_of_mem_entering hT ht h).1.elim
  · rintro rfl
    exact List.mem_append_left _ (List.mem_append_left _ (leave_mem hT ha))
  · obtain ⟨rest, hrest, -⟩ := exists_beginEnter_vertex hT hb
    have hcascade : ∃ after, M.compile.cascade M.topology (b :: bs) ++
        M.compile.endEnter (.vertex t) = .enter (.vertex b) :: after := by
      cases bs <;> simp [Program.cascade, hrest]
    obtain ⟨after, hafter⟩ := hcascade
    refine ⟨_, after, by rw [hafter], fun e he => (exits_of_mem_leaving hT he).1, fun ha => ?_⟩
    exact List.mem_append_left _ (leave_mem hT ha)
  -- Above `a` is above `b` as well, and each half is about what is beneath its own.
  · have habove : w ∈ above :=
      Forest.mem_above_of_append (F := M.topology.stateTree) hs hw hne
    have hoff : ∀ step ∈ (M.compile.leave (.vertex a) ++ effects.map .behavior) ++
        (M.compile.cascade M.topology (b :: bs) ++ M.compile.endEnter (.vertex t)),
        Element.vertex w ∉ M.topology.subjects step := by
      intro step hstep hsubject
      rcases List.mem_append.1 hstep with h | h
      · exact Forest.not_mem_ancestors_of_append hs habove
          ((hT.vertex_mem_ancestry a w).1 ((exits_of_mem_leaving hT h).2 _ hsubject))
      · exact Forest.not_mem_ancestors_of_append ht habove
          ((hT.vertex_mem_ancestry b w).1 ((enters_of_mem_entering hT ht h).2 _ hsubject))
    exact ⟨fun h => hoff _ h List.mem_cons_self, fun h => hoff _ h List.mem_cons_self,
      fun r h => hoff _ h List.mem_cons_self⟩

omit hT

/-- For any two vertices, the index of the split finds the vertex to leave on the way of the one and
the vertex to enter on the way of the other, and the steps go from there. -/
theorem external_moves {allowed : Edit σ → Prop} (hM : M.Reachable allowed) {s t : VertexId}
    (hs : M.topology.Has (.vertex s)) (ht : M.topology.Has (.vertex t)) :
    ∃ x y, M.Parts s t x y ∧
      ∀ effects, M.Moves x y (M.externalSteps M.compile s t effects) := by
  obtain ⟨above, a, as, b, bs, hsource, htarget, hsplit, hend⟩ := splitIndex_parts
    (Topology.vertexAncestry_ne_nil (T := M.topology) s)
    (Topology.vertexAncestry_ne_nil (T := M.topology) t)
  rw [hsource, htarget] at hsplit
  exact ⟨a, b, parts_of_split hM.wellFormed hs ht hsource htarget hsplit hend,
    moves_of_split hM.wellFormed hsource htarget hsplit⟩

/-- Beside a state with two regions, one two levels deep, stands another one. -/
def branching : Machine Unit := .build "m" {} [
  .addVertex "a" (.state ⟨0⟩) .state, .addVertex "b" (.state ⟨0⟩) .state,
  .addRegion "p" ⟨1⟩, .addRegion "q" ⟨1⟩, .addVertex "c" (.region ⟨1⟩) .state,
  .addVertex "d" (.region ⟨2⟩) .state, .addVertex "e" (.state ⟨4⟩) .state]

/-- From region to region the states there are left and entered; out of `a` and into it, from above
or from beneath, `a` itself. -/
theorem branching_moves : branching.Reachable (fun _ => True) ∧
    (∀ v, v < 6 → branching.topology.Has (.vertex ⟨v⟩)) ∧
    (branching.Parts ⟨3⟩ ⟨5⟩ ⟨3⟩ ⟨4⟩ ∧ ∀ effects,
      branching.Moves ⟨3⟩ ⟨4⟩ (branching.externalSteps branching.compile ⟨3⟩ ⟨5⟩ effects)) ∧
    (branching.Parts ⟨5⟩ ⟨2⟩ ⟨1⟩ ⟨2⟩ ∧ ∀ effects,
      branching.Moves ⟨1⟩ ⟨2⟩ (branching.externalSteps branching.compile ⟨5⟩ ⟨2⟩ effects)) ∧
    (branching.Parts ⟨1⟩ ⟨5⟩ ⟨1⟩ ⟨1⟩ ∧ ∀ effects,
      branching.Moves ⟨1⟩ ⟨1⟩ (branching.externalSteps branching.compile ⟨1⟩ ⟨5⟩ effects)) ∧
    branching.Parts ⟨3⟩ ⟨1⟩ ⟨1⟩ ⟨1⟩ ∧ ∀ effects,
      branching.Moves ⟨1⟩ ⟨1⟩ (branching.externalSteps branching.compile ⟨3⟩ ⟨1⟩ effects) := by
  have hM : branching.Reachable fun _ => True := .build (by decide +kernel) fun _ _ => trivial
  have hHas : ∀ v, v < 6 → branching.topology.Has (.vertex ⟨v⟩) := by
    intro v hv
    rwa [Topology.Has, show branching.topology.vertexNodes.size = 6 by decide +kernel]
  have hat : ∀ s t x y, s < 6 → t < 6 →
      (branching.topology.vertexAncestry ⟨s⟩)[splitIndex (branching.topology.vertexAncestry ⟨s⟩)
        (branching.topology.vertexAncestry ⟨t⟩)]? = some x →
      (branching.topology.vertexAncestry ⟨t⟩)[splitIndex (branching.topology.vertexAncestry ⟨s⟩)
        (branching.topology.vertexAncestry ⟨t⟩)]? = some y →
      branching.Parts ⟨s⟩ ⟨t⟩ x y ∧ ∀ effects,
        branching.Moves x y (branching.externalSteps branching.compile ⟨s⟩ ⟨t⟩ effects) := by
    intro s t x y hs ht hx hy
    obtain ⟨u, w, hparts, hmoves⟩ := external_moves hM (hHas s hs) (hHas t ht)
    obtain rfl := Option.some.inj (hparts.left_at.symm.trans hx)
    obtain rfl := Option.some.inj (hparts.entered_at.symm.trans hy)
    exact ⟨hparts, hmoves⟩
  refine ⟨hM, hHas, hat 3 5 ⟨3⟩ ⟨4⟩ ?_ ?_ ?_ ?_, hat 5 2 ⟨1⟩ ⟨2⟩ ?_ ?_ ?_ ?_,
    hat 1 5 ⟨1⟩ ⟨1⟩ ?_ ?_ ?_ ?_, hat 3 1 ⟨1⟩ ⟨1⟩ ?_ ?_ ?_ ?_⟩
  all_goals decide +kernel

end Machine

end Hsm
