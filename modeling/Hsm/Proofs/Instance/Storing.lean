import Hsm.Proofs.Instance.Restoring
import Hsm.Proofs.Instance.Seated
import Hsm.Proofs.Machine.Extension
import Mathlib.Logic.Function.Basic

/-!
# The tree of names as a store

Whatever the tree holds, be it empty or read from a text that has little to do with the model, a
state that becomes current is written to it as to a store of last known states
(`TreeInstance.store_setCurrent`). The way to a node makes what is missing and goes by the first of
several children of one name, and reading goes the same way.
-/

namespace Hsm

variable {σ : Type}

/-! ## Models that nothing was removed from -/

/-- No region and no vertex has been removed. -/
def Topology.Intact (T : Topology) : Prop :=
  ∀ e, T.Has e → T.isAttached e

theorem Topology.Intact.listed {T : Topology} (hI : T.Intact) (hT : T.Marked) {e : Element}
    (he : T.Has e) : T.Listed e := by
  refine hT.listed_iff.2 ⟨he, fun a ha => hI a ?_⟩
  exact Forest.mem_ancestors_induction (F := T.ownership) (p := T.Has) he
    (fun b c hp hb => hT.has_of_link hb (hT.owner_eq_link ▸ hp)) a ha

/-- Models that were built without removals are intact. -/
theorem Machine.Reachable.intact {M : Machine σ} (hM : M.Reachable fun e => ¬e.removes) :
    M.topology.Intact := by
  intro e he
  have hlisted : M.topology.Listed e := by
    cases e with
    | vertex v => exact hM.grown.mem_all he
    | region r =>
      have howner := hM.grown.mem_all (hM.wellFormed.region_parent_lt r he)
      exact Topology.mem_regions.2 ⟨_, howner, hM.grown.region_listed r he⟩
  exact (hM.marked.listed_iff.1 hlisted).2 e (Forest.mem_ancestors_self (F := M.topology.ownership) e)

/-! ## Writing the same again -/

namespace StateNode

variable {f g : StateNode → StateNode} (hf : ∀ node, (f node).name = node.name)
include hf

theorem alterFirst_alterFirst (name : String) : ∀ nodes : List StateNode,
    alterFirst name g (alterFirst name f nodes) = alterFirst name (fun node => g (f node)) nodes
  | [] => by simp only [alterFirst, hf, if_true]
  | node :: rest => by
    by_cases hn : node.name = name
    · simp only [alterFirst, hf, hn, if_true]
    · simp only [alterFirst, hn, if_false, alterFirst_alterFirst name rest]

theorem alter_alter : ∀ (path : List String) (node : StateNode),
    alter g path (alter f path node) = alter (fun node => g (f node)) path node
  | [], _ => rfl
  | name :: path, node => by
    simp only [alter, alterFirst_alterFirst (name_alter hf path)]
    congr 2
    exact funext (alter_alter path)

end StateNode

/-! ## What is written -/

namespace TreeInstance

variable {T : Topology} {r : RegionId} {v : VertexId}

/-- Nothing changes when the vertex that became current becomes current again. -/
theorem setCurrent_setCurrent (T : Topology) (r : RegionId) (v : VertexId) (i : TreeInstance) :
    (i.setCurrent T r v).setCurrent T r v = i.setCurrent T r v := by
  unfold setCurrent remember
  by_cases hs : T.isState v
  · simp only [hs, if_true, Assoc.insert_insert, Option.getD_some]
    rw [StateNode.alter_alter (f := fun node => { node with lastKnown := some (T.name (.vertex v)) })
      fun _ => rfl]
  · simp [hs]

/-- The store of last known states that a tree amounts to. -/
def store (T : Topology) (i : TreeInstance) : RegionId → Option VertexId :=
  fun r => i.lastKnown T r

section Store

variable (hT : T.Marked) (hI : T.Intact) (hS : T.DistinctSiblings)
include hT hI hS

theorem store_setCurrent (hv : v ∈ (T.region r).vertices) (hs : T.isState v) (i : TreeInstance) :
    (i.setCurrent T r v).store T = Function.update (i.store T) r (some v) := by
  have hholds : ∀ {q w}, w ∈ (T.region q).vertices → q ∈ T.regions ∧ T.Holds q w := fun {q w} hw => by
    obtain ⟨hlt, hp⟩ := hT.mem_vertices q w hw
    have hvertex : w ∈ T.vertices := hI.listed hT (e := .vertex w) hlt
    exact ⟨(hT.listed_of_parent hvertex hp).1, hvertex, hp⟩
  funext q
  show (i.setCurrent T r v).lastKnown T q = _
  rw [Function.update_apply]
  by_cases hq : T.HoldsState q
  · obtain ⟨w, hw, -⟩ := hq
    rw [lastKnown_setCurrent hT.toWellFormed hS (hholds hv).2 i (hholds hw).1]
    simp only [hs, and_true, store]
  · have hne : q ≠ r := fun h => hq (h ▸ ⟨v, hv, hs⟩)
    rw [if_neg hne, store, lastKnown_of_not_holdsState hq, lastKnown_of_not_holdsState hq]

/-- After any number of writes the tree knows of each region the state that was written last. -/
theorem store_foldl : ∀ (writes : List (RegionId × VertexId)) (i : TreeInstance),
    (∀ w ∈ writes, w.2 ∈ (T.region w.1).vertices ∧ T.isState w.2) →
    (writes.foldl (fun i w => i.setCurrent T w.1 w.2) i).store T
      = writes.foldl (fun (known : RegionId → Option VertexId) w =>
          Function.update known w.1 (some w.2)) (i.store T)
  | [], _, _ => rfl
  | w :: writes, i, h => by
    have hw := h w List.mem_cons_self
    rw [List.foldl_cons, List.foldl_cons, store_foldl writes _ fun w' hw' =>
      h w' (List.mem_cons_of_mem _ hw'), store_setCurrent hT hI hS hw.1 hw.2]

end Store

/-- Making the state `v` current in `r` is a write to a store of last known states. -/
structure Stores (T : Topology) (r : RegionId) (v : VertexId) (i : TreeInstance) : Prop where
  written : (i.setCurrent T r v).lastKnown T r = some v
  current : (i.setCurrent T r v).currentIn T r = some v
  frame : ∀ s ≠ r, (i.setCurrent T r v).lastKnown T s = i.lastKnown T s
  again : (i.setCurrent T r v).setCurrent T r v = i.setCurrent T r v
  comm : ∀ s w, s ≠ r → w ∈ (T.region s).vertices → T.isState w → ∀ q,
    ((i.setCurrent T r v).setCurrent T s w).lastKnown T q
      = ((i.setCurrent T s w).setCurrent T r v).lastKnown T q

end TreeInstance

open TreeInstance in
/-- Where nothing has been removed and siblings have names of their own, any tree is a store. -/
theorem Machine.Reachable.tree_stores {M : Machine σ} {allowed : Edit σ → Prop}
    (hM : M.Reachable allowed) (hI : M.topology.Intact) (hS : M.topology.DistinctSiblings)
    (i : TreeInstance) {r : RegionId} {v : VertexId} (hv : v ∈ (M.topology.region r).vertices)
    (hs : M.topology.isState v) : i.Stores M.topology r v where
  written := by
    have hwrite := congrFun (store_setCurrent hM.marked hI hS hv hs i) r
    rwa [Function.update_self] at hwrite
  current := by
    unfold currentIn
    rw [current_setCurrent, if_pos rfl]
  frame s hne := by
    have hwrite := congrFun (store_setCurrent hM.marked hI hS hv hs i) s
    rwa [Function.update_of_ne hne] at hwrite
  again := setCurrent_setCurrent M.topology r v i
  comm s w hne hw hws q := by
    refine congrFun (f := store M.topology _) (g := store M.topology _) ?_ q
    rw [store_setCurrent hM.marked hI hS hw hws, store_setCurrent hM.marked hI hS hv hs,
      store_setCurrent hM.marked hI hS hv hs, store_setCurrent hM.marked hI hS hw hws,
      Function.update_comm hne]

/-- A state with a region that is called what its own region is called, and a region beside. -/
def innerTwin : Machine Unit := .build "m" {} [
  .addRegion "p" ⟨0⟩, .addRegion "q" ⟨0⟩, .addVertex "a" (.region ⟨0⟩) .state,
  .addVertex "a" (.region ⟨1⟩) .state, .addRegion "p" ⟨1⟩, .addVertex "a" (.region ⟨2⟩) .state,
  .addVertex "b" (.region ⟨2⟩) .state, .addVertex "a" (.region ⟨2⟩) (.pseudo .initial)]

/-- The tree is another machine's: a child is there twice, and states are not known here. -/
theorem innerTwin_stores :
    let i : TreeInstance := { name := "i", activeState := some ⟨"other", some "s", [
      ⟨"p", some "gone", [⟨"a", none, []⟩]⟩, ⟨"z", some "a", []⟩, ⟨"p", some "a", []⟩]⟩ }
    i.Stores innerTwin.topology ⟨2⟩ ⟨4⟩ ∧ i.lastKnown innerTwin.topology ⟨0⟩ = none := by
  intro i
  have hM : innerTwin.Reachable fun e => ¬e.removes := .build (by decide +kernel) (by decide +kernel)
  exact ⟨hM.tree_stores hM.intact ⟨by decide +kernel, by decide +kernel⟩ i (by decide +kernel)
    (by decide +kernel), by decide +kernel⟩

end Hsm
