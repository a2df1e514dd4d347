import Hsm.Proofs.Topology.Tree

/-!
# Names that tell elements apart

Regions and states need names of their own only among their siblings: the names on the way down
from the root then tell them from all others (`DistinctSiblings.eq_of_names`). Pseudostates may be
called anything.
-/

namespace Hsm

namespace Topology

variable {T : Topology}

/-- The regions of one state, and the states of one region, have names of their own. -/
structure DistinctSiblings (T : Topology) : Prop where
  regions : ∀ v ∈ T.vertices, ∀ r ∈ (T.vertex v).regions, ∀ s ∈ (T.vertex v).regions,
    T.name (.region r) = T.name (.region s) → r = s
  states : ∀ r ∈ T.regions, ∀ v ∈ (T.region r).vertices, ∀ w ∈ (T.region r).vertices,
    T.isState v → T.isState w → T.name (.vertex v) = T.name (.vertex w) → v = w

/-- The element is a region or a state. -/
def IsPlace (T : Topology) : Element → Prop
  | .region _ => True
  | .vertex v => T.isState v

theorem WellFormed.isPlace_of_child (hT : T.WellFormed) {a c : Element} (h : c ∈ T.children a) :
    T.IsPlace a := by
  cases a with
  | region r => trivial
  | vertex v => exact hT.isState_of_regions v fun hnil => by simp [children, hnil] at h


namespace DistinctSiblings

variable (hS : T.DistinctSiblings)
include hS

theorem eq_of_name {a b c : Element} (ha : T.Listed a) (hb : b ∈ T.children a)
    (hc : c ∈ T.children a) (hbp : T.IsPlace b) (hcp : T.IsPlace c) (h : T.name b = T.name c) :
    b = c := by
  cases a with
  | region r =>
    obtain ⟨v, hv, rfl⟩ := List.mem_map.1 hb
    obtain ⟨w, hw, rfl⟩ := List.mem_map.1 hc
    rw [hS.states r ha v hv w hw hbp hcp h]
  | vertex u =>
    obtain ⟨r, hr, rfl⟩ := List.mem_map.1 hb
    obtain ⟨s, hs, rfl⟩ := List.mem_map.1 hc
    rw [hS.regions u ha r hr s hs h]

/-- Places to which the same names lead are the same. -/
theorem eq_of_names (hT : T.WellFormed) {e e' : Element} (he : T.Listed e) (he' : T.Listed e')
    (hp : T.IsPlace e) (hp' : T.IsPlace e')
    (h : (T.ancestry e).map T.name = (T.ancestry e').map T.name) : e = e' := by
  have hlonger : ∀ {a c : Element}, c ∈ T.children a →
      (T.ancestry c).map T.name ≠ (T.ancestry (.vertex root)).map T.name := fun {a c} hc h => by
    have hpos : 0 < (T.ancestry a).length :=
      List.length_pos_of_mem (Forest.mem_ancestors_self (F := T.ownership) a)
    have hlength := congrArg List.length h
    rw [hT.ancestry_of_child hc, hT.ancestry_vertex_of_not_parent hT.root_parent] at hlength
    simp only [List.length_map, List.length_append, List.length_singleton] at hlength
    omega
  refine hT.listed_induction (p := fun e => ∀ e', T.Listed e' → T.IsPlace e → T.IsPlace e' →
    (T.ancestry e).map T.name = (T.ancestry e').map T.name → e = e')
    (fun e' he' _ _ h => ?_) (fun a c ha hc ih e' he' hp hp' h => ?_) e he e' he' hp hp' h
  · rcases hT.eq_root_or_child he' with rfl | ⟨b, -, hb⟩
    · rfl
    · exact absurd h.symm (hlonger hb)
  · rcases hT.eq_root_or_child he' with rfl | ⟨b, hb, hc'⟩
    · exact absurd h (hlonger hc)
    · rw [hT.ancestry_of_child hc, hT.ancestry_of_child hc', List.map_append, List.map_append] at h
      obtain ⟨habove, hname⟩ := List.append_inj' h rfl
      obtain rfl := ih b hb (hT.isPlace_of_child hc) (hT.isPlace_of_child hc') habove
      exact hS.eq_of_name ha hc hc' hp hp' (List.singleton_inj.1 hname)

/-- The name of a state tells it from the others in its region. -/
theorem findState_name {r : RegionId} {v : VertexId} (hr : r ∈ T.regions)
    (hv : v ∈ (T.region r).vertices) (hs : T.isState v) :
    T.findState r (T.name (.vertex v)) = some v := by
  cases hf : T.findState r (T.name (.vertex v)) with
  | none =>
    have h := List.find?_eq_none.1 hf v hv
    rw [hs, Bool.true_and, decide_eq_true_iff] at h
    exact absurd rfl h
  | some w =>
    obtain ⟨hw, hws, hn⟩ := findState_eq_some hf
    rw [hS.states r hr w hw v hv hws hs hn]

end DistinctSiblings

end Topology

end Hsm
