import Hsm.Proofs.Engine.Spec

/-!
# Paths of entry

Entries go down the last part of an ancestry: an external transition enters from where the
ancestries of its ends part (`splitIndex`), a local one from the first vertex that is not active.
What every vertex of the path does on the way is put together in `Run.Spec.cascade`.
-/

namespace Hsm

variable {σ ι : Type}

namespace Machine

/-! ## Where leaving turns into entering -/

theorem splitIndex_eq (xs ys : List VertexId) : splitIndex xs ys =
    min ((xs.zip ys).takeWhile fun p => p.1 = p.2).length (min xs.length ys.length - 1) := by
  unfold splitIndex Forest.commonIndex
  cases ((xs.zip ys).takeWhile fun p => p.1 = p.2).length <;> rfl

theorem splitIndex_lt {xs ys : List VertexId} (hy : ys ≠ []) : splitIndex xs ys < ys.length := by
  have := List.length_pos_iff.2 hy
  rw [splitIndex_eq]
  omega

theorem splitIndex_lt_left {xs ys : List VertexId} (hx : xs ≠ []) :
    splitIndex xs ys < xs.length := by
  have := List.length_pos_iff.2 hx
  rw [splitIndex_eq]
  omega

theorem take_splitIndex (xs ys : List VertexId) :
    xs.take (splitIndex xs ys) = ys.take (splitIndex xs ys) := by
  have h := Forest.take_length_takeWhile_zip xs ys
  rw [splitIndex_eq, Nat.min_comm, ← List.take_take, ← List.take_take, h]

theorem splitIndex_cons (a : VertexId) {xs ys : List VertexId} (hx : xs ≠ []) (hy : ys ≠ []) :
    splitIndex (a :: xs) (a :: ys) = splitIndex xs ys + 1 := by
  have hxs := List.length_pos_iff.2 hx
  have hys := List.length_pos_iff.2 hy
  rw [splitIndex_eq, splitIndex_eq, List.zip_cons_cons, List.takeWhile_cons_of_pos (by simp),
    List.length_cons, List.length_cons, List.length_cons]
  omega

/-- A common beginning is passed over. -/
theorem splitIndex_append (above : List VertexId) {xs ys : List VertexId} (hx : xs ≠ [])
    (hy : ys ≠ []) : splitIndex (above ++ xs) (above ++ ys) = above.length + splitIndex xs ys := by
  induction above with
  | nil => simp
  | cons a above ih =>
    rw [List.cons_append, List.cons_append, splitIndex_cons a (List.append_ne_nil_of_right_ne_nil _ hx)
      (List.append_ne_nil_of_right_ne_nil _ hy), ih, List.length_cons]
    omega

/-- Two paths part below what they have in common, if neither ends there. -/
theorem splitIndex_parts : ∀ {xs ys : List VertexId}, xs ≠ [] → ys ≠ [] →
    ∃ above a as b bs, xs = above ++ a :: as ∧ ys = above ++ b :: bs ∧
      splitIndex xs ys = above.length ∧ (a = b → as = [] ∨ bs = [])
  | [], _, hx, _ => absurd rfl hx
  | _, [], _, hy => absurd rfl hy
  | a :: as, b :: bs, _, _ => by
    by_cases h : a = b ∧ as ≠ [] ∧ bs ≠ []
    · obtain ⟨rfl, has, hbs⟩ := h
      obtain ⟨above, c, cs, d, ds, hxs, hys, hsplit, hend⟩ := splitIndex_parts has hbs
      refine ⟨a :: above, c, cs, d, ds, congrArg (a :: ·) hxs, congrArg (a :: ·) hys, ?_, hend⟩
      rw [splitIndex_cons a has hbs, hsplit, List.length_cons]
    · refine ⟨[], a, as, b, bs, rfl, rfl, ?_, fun he => ?_⟩
      · rw [splitIndex_eq, List.zip_cons_cons, List.length_nil]
        by_cases he : a = b
        · have hlast : as = [] ∨ bs = [] := by simpa [he, or_iff_not_imp_left] using h
          rcases hlast with rfl | rfl <;> simp
        · simp [he]
      · simpa [he, or_iff_not_imp_left] using h

/-- Between siblings, or from a vertex to itself, only the last vertex is left and entered. -/
theorem splitIndex_siblings (above : List VertexId) (a b : VertexId) :
    splitIndex (above ++ [a]) (above ++ [b]) = above.length := by
  rw [splitIndex_append above (List.cons_ne_nil _ _) (List.cons_ne_nil _ _), splitIndex_eq]
  simp

theorem getElem?_splitIndex_siblings {T : Topology} (hT : T.WellFormed) {source target : VertexId}
    {r : RegionId} (hs : (T.vertex source).parent = some r)
    (ht : (T.vertex target).parent = some r) : (T.vertexAncestry target)[splitIndex
      (T.vertexAncestry source) (T.vertexAncestry target)]? = some target := by
  rw [hT.vertexAncestry_of_parent hs, hT.vertexAncestry_of_parent ht, splitIndex_siblings,
    List.getElem?_concat_length]

theorem externalSteps_eq {M : Machine σ} {P : Program σ} {source target a b : VertexId}
    {above as bs : List VertexId} (hs : M.topology.vertexAncestry source = above ++ a :: as)
    (ht : M.topology.vertexAncestry target = above ++ b :: bs)
    (h : splitIndex (above ++ a :: as) (above ++ b :: bs) = above.length)
    (effects : List (Action σ)) : M.externalSteps P source target effects =
      P.leave (.vertex a) ++ effects.map .behavior ++ P.cascade M.topology (b :: bs) ++
        P.endEnter (.vertex target) := by
  unfold externalSteps
  dsimp only
  rw [hs, ht, h, List.getElem?_append_right (Nat.le_refl _), Nat.sub_self, List.getElem?_cons_zero,
    Option.getD_some, List.drop_left]

end Machine

namespace Run.Spec

variable {M : Machine σ} {I : Session σ ι → Prop} {e : Engine σ ι} {trigger : Trigger}
  {deep : Bool}

/-- Down a path, `p` holds when a vertex begins to be entered, and `q` once it is. -/
theorem cascade (hT : M.topology.WellFormed) {p q : VertexId → Session σ ι → Prop}
    {x : VertexId} (hx : x ∈ M.topology.vertices)
    (hbegin : ∀ v ∈ M.topology.vertexAncestry x,
      Spec I (p v) (e.performAll trigger deep (M.compile.beginEnter (.vertex v)))
        fun _ => q v)
    (hbeside : ∀ w ∈ M.topology.vertexAncestry x, ∀ v r, (M.topology.vertex w).parent = some r →
      (M.topology.region r).parent = v → r ∈ (M.topology.vertex v).regions →
      v ∈ M.topology.vertices →
      Spec I (q v) (e.performAll trigger deep
        (M.compile.enterBeside (some r) (M.topology.vertex v).regions)) fun _ => p w) :
    ∀ (rest : List VertexId) (a : VertexId), a :: rest <:+ M.topology.vertexAncestry x →
      Spec I (p a) (e.performAll trigger deep (M.compile.cascade M.topology (a :: rest)))
        fun _ => q x
  | [], a, h => by
    rw [Topology.eq_of_suffix_singleton h]
    exact hbegin x (Topology.mem_vertexAncestry_self x)
  | w :: rest, a, h => by
    obtain ⟨r, hr, hw, ha⟩ := hT.region_of_suffix hx h
    have hmem : ∀ v ∈ a :: w :: rest, v ∈ M.topology.vertexAncestry x := fun v hv => h.subset hv
    have hav := hT.mem_vertices_of_mem_vertexAncestry hx (hmem a List.mem_cons_self)
    have hs := hT.isState_of_regions a (List.ne_nil_of_mem hr)
    have hwx := hmem w (List.mem_cons_of_mem _ List.mem_cons_self)
    have hstep : Spec I (q a) (e.performAll trigger deep
        (if M.topology.isState a then M.compile.enterBeside (M.topology.vertex w).parent
          (M.topology.vertex a).regions else [])) fun _ => p w := by
      rw [if_pos hs, hw]
      exact hbeside w hwx a r hw ha hr hav
    refine append (append (hbegin a (hmem a List.mem_cons_self)) hstep) ?_
    exact cascade hT hx hbegin hbeside rest w ((List.suffix_cons a (w :: rest)).trans h)

/-- The entry from any index of an ancestry down. -/
theorem cascade_drop (hT : M.topology.WellFormed) {p q : VertexId → Session σ ι → Prop}
    {x : VertexId} (hx : x ∈ M.topology.vertices)
    (hbegin : ∀ v ∈ M.topology.vertexAncestry x,
      Spec I (p v) (e.performAll trigger deep (M.compile.beginEnter (.vertex v)))
        fun _ => q v)
    (hbeside : ∀ w ∈ M.topology.vertexAncestry x, ∀ v r, (M.topology.vertex w).parent = some r →
      (M.topology.region r).parent = v → r ∈ (M.topology.vertex v).regions →
      v ∈ M.topology.vertices →
      Spec I (q v) (e.performAll trigger deep
        (M.compile.enterBeside (some r) (M.topology.vertex v).regions)) fun _ => p w)
    {i : Nat} (hi : i < (M.topology.vertexAncestry x).length) :
    Spec I (p ((M.topology.vertexAncestry x)[i]))
      (e.performAll trigger deep
        (M.compile.cascade M.topology ((M.topology.vertexAncestry x).drop i))) fun _ => q x := by
  have hsuffix := List.drop_suffix i (M.topology.vertexAncestry x)
  rw [List.drop_eq_getElem_cons hi] at hsuffix ⊢
  exact cascade hT hx hbegin hbeside _ _ hsuffix

end Run.Spec

end Hsm
