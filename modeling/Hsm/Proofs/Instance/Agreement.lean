import Hsm.Instance.Tree
import Hsm.Proofs.Engine.Simulation
import Hsm.Proofs.Instance.Sound
import Hsm.Proofs.Topology.Names
import Hsm.Validation

/-!
# Instances in tables and in trees

Where qualified names are distinct, the names that lead to a region lead to no other, and the name
of a state in it to no other state; a tree of names then tells the same as tables of handles
(`mirrors_simulation`), as long as no region that was removed has vertices.
-/

namespace Hsm

variable {σ : Type}

/-! ## The node at the end of a path -/

namespace StateNode

/-- The name of the last known state at the end of a path. -/
def known (node : StateNode) (path : List String) : Option String :=
  (node.find? path).bind lastKnown

theorem find?_alterFirst {f : StateNode → StateNode} (hf : ∀ node, (f node).name = node.name)
    (name name' : String) : ∀ nodes : List StateNode,
      (alterFirst name f nodes).find? (fun node => node.name = name') =
        if name' = name then some (f ((nodes.find? fun node => node.name = name).getD ⟨name, none, []⟩))
        else nodes.find? fun node => node.name = name'
  | [] => by
    by_cases h : name' = name
    · subst h
      simp only [alterFirst, List.find?_cons, hf, decide_true, if_true, List.find?_nil,
        Option.getD_none]
    · simp only [alterFirst, List.find?_cons, hf, Ne.symm h, decide_false, List.find?_nil, if_neg h]
  | node :: rest => by
    have ih := find?_alterFirst hf name name' rest
    by_cases hn : node.name = name
    · subst hn
      by_cases h : name' = node.name
      · subst h
        simp only [alterFirst, if_true, List.find?_cons, hf, decide_true, Option.getD_some]
      · simp only [alterFirst, if_true, List.find?_cons, hf, Ne.symm h, decide_false, if_neg h]
    · by_cases h : name' = name
      · subst h
        simp only [alterFirst, hn, if_false, List.find?_cons, decide_false, ih, if_true]
      · simp only [alterFirst, hn, if_false, List.find?_cons, decide_false, ih, if_neg h]

theorem name_alter {f : StateNode → StateNode} (hf : ∀ node, (f node).name = node.name) :
    ∀ (path : List String) (node : StateNode), (alter f path node).name = node.name
  | [], node => hf node
  | _ :: _, _ => rfl

theorem known_nil (node : StateNode) : node.known [] = node.lastKnown := rfl

theorem known_cons (node : StateNode) (name : String) (path : List String) :
    node.known (name :: path) = (node.child? name).bind (known · path) := by
  unfold known
  rw [find?]
  cases node.child? name <;> rfl

/-- Nothing is known at the end of a path that leads out of a new node. -/
theorem known_new (name : String) : ∀ path, known ⟨name, none, []⟩ path = none
  | [] => rfl
  | _ :: _ => rfl

theorem known_alter (state : String) :
    ∀ (path path' : List String) (node : StateNode),
      (alter (fun node => { node with lastKnown := some state }) path node).known path' =
        if path' = path then some state else node.known path'
  | [], [], _ => rfl
  | [], name' :: path', node => by
    simp only [alter, known_cons, child?, reduceCtorEq, if_false]
  | name :: path, [], node => by
    simp only [alter, known_nil, reduceCtorEq, if_false]
  | name :: path, name' :: path', node => by
    have hname := name_alter (f := fun node => { node with lastKnown := some state })
      (fun _ => rfl) path
    simp only [alter, known_cons, child?, find?_alterFirst hname, List.cons.injEq]
    by_cases h : name' = name
    · subst h
      simp only [if_true, Option.bind_some, known_alter state path path', true_and]
      split
      · rfl
      · cases node.children.find? fun node => node.name = name' with
        | none => exact known_new _ _
        | some _ => rfl
    · simp only [h, if_false, false_and]

end StateNode

namespace TreeInstance

variable (T : Topology)

/-- The last known state of a region is looked up by the name at the end of its path. -/
theorem lastKnown_eq_known (r : RegionId) (i : TreeInstance) : i.lastKnown T r =
    (i.activeState.bind (·.known (path T r))).bind (T.findState r) := by
  unfold lastKnown StateNode.known
  cases i.activeState <;> rfl

theorem mem_of_lastKnown {T : Topology} {r : RegionId} {v : VertexId} {i : TreeInstance}
    (h : i.lastKnown T r = some v) : v ∈ (T.region r).vertices ∧ T.isState v := by
  obtain ⟨name, -, h⟩ := Option.bind_eq_some_iff.1 h
  obtain ⟨hmem, hs, -⟩ := Topology.findState_eq_some h
  exact ⟨hmem, hs⟩

theorem known_remember (r : RegionId) (v : VertexId) (i : TreeInstance) (names : List String) :
    (i.remember T r v).activeState.bind (·.known names) =
      if names = path T r then some (T.name (.vertex v))
      else i.activeState.bind (·.known names) := by
  refine (StateNode.known_alter _ _ names _).trans ?_
  cases i.activeState with
  | none => rw [Option.getD_none, StateNode.known_new]; rfl
  | some node => rfl

end TreeInstance

/-! ## Distinct names -/

namespace Machine

variable {M : Machine σ}

theorem not_mem_of_repeatedNames_nil :
    ∀ {seen names : List String}, repeatedNames seen names = [] → ∀ name ∈ names, name ∉ seen
  | _, [], _, _, h => absurd h List.not_mem_nil
  | seen, first :: rest, h, name, hm => by
    unfold repeatedNames at h
    split at h
    · cases h
    · rename_i hf
      rcases List.mem_cons.1 hm with rfl | hm
      · exact hf
      · exact fun hs => not_mem_of_repeatedNames_nil h name hm (List.mem_cons_of_mem _ hs)

theorem eq_of_repeatedNames_nil {α : Type} {f : α → String} :
    ∀ {seen : List String} {xs : List α}, repeatedNames seen (xs.map f) = [] →
      ∀ x ∈ xs, ∀ y ∈ xs, f x = f y → x = y
  | _, [], _, _, h, _, _, _ => absurd h List.not_mem_nil
  | seen, a :: xs, h, x, hx, y, hy, hxy => by
    rw [List.map_cons, repeatedNames] at h
    split at h
    · cases h
    · have hfresh : ∀ z ∈ xs, f z ≠ f a := fun z hz he =>
        not_mem_of_repeatedNames_nil h (f z) (List.mem_map_of_mem hz) (he ▸ List.mem_cons_self)
      rcases List.mem_cons.1 hx with hxa | hx <;> rcases List.mem_cons.1 hy with hya | hy
      · rw [hxa, hya]
      · exact absurd (hxa ▸ hxy.symm) (hfresh y hy)
      · exact absurd (hya ▸ hxy) (hfresh x hx)
      · exact eq_of_repeatedNames_nil h x hx y hy hxy

end Machine

/-- No two elements in the model share a qualified name. -/
def Topology.DistinctNames (T : Topology) : Prop :=
  ∀ e e', T.Listed e → T.Listed e' → T.qualifiedName e = T.qualifiedName e' → e = e'

/-- Names are distinct where validation finds no name that is used twice. -/
theorem Machine.distinctNames {M : Machine σ}
    (h : ∀ name, Violation.duplicateQualifiedName name ∉ M.violations) :
    M.topology.DistinctNames := by
  have hnil : repeatedNames [] ((M.topology.vertices.map Element.vertex ++
      M.topology.regions.map Element.region).map M.topology.qualifiedName) = [] := by
    refine List.eq_nil_iff_forall_not_mem.2 fun name hname => h name ?_
    exact List.mem_append_right _ (List.mem_map.2 ⟨name, hname, rfl⟩)
  have hmem : ∀ e, M.topology.Listed e → e ∈ M.topology.vertices.map Element.vertex ++
      M.topology.regions.map Element.region := fun e he => by
    cases e with
    | vertex v => exact List.mem_append_left _ (List.mem_map.2 ⟨v, he, rfl⟩)
    | region r => exact List.mem_append_right _ (List.mem_map.2 ⟨r, he, rfl⟩)
  exact fun e e' he he' hn => eq_of_repeatedNames_nil hnil e (hmem e he) e' (hmem e' he') hn

namespace Topology

variable {T : Topology}

theorem WellFormed.ancestry_eq_cons (hT : T.WellFormed) {r : RegionId} (hr : r ∈ T.regions) :
    T.ancestry (.region r) = .vertex root :: (T.ancestry (.region r)).tail := by
  have hpre : T.ancestry (.vertex root) <+: T.ancestry (.region r) :=
    Forest.prefix_of_mem_ancestors (F := T.ownership) (hT.beneath_root (e := .region r) hr).2
  rw [hT.ancestry_vertex_of_not_parent hT.root_parent] at hpre
  obtain ⟨rest, hrest⟩ := hpre
  rw [← hrest]
  rfl

/-- The names below the root tell the regions in the model apart. -/
theorem WellFormed.eq_of_path (hT : T.WellFormed) (hS : T.DistinctSiblings) {r s : RegionId}
    (hr : r ∈ T.regions) (hs : s ∈ T.regions)
    (h : TreeInstance.path T r = TreeInstance.path T s) : r = s := by
  refine Element.region.inj (hS.eq_of_names hT hr hs trivial trivial ?_)
  unfold TreeInstance.path at h
  rw [hT.ancestry_eq_cons hr, hT.ancestry_eq_cons hs, List.map_cons, List.map_cons, h]

/-- Siblings of one name would share their qualified name. -/
theorem DistinctNames.siblings (hN : T.DistinctNames) (hT : T.WellFormed) :
    T.DistinctSiblings := by
  have hchild : ∀ {a b c : Element}, T.Listed a → b ∈ T.children a → c ∈ T.children a →
      T.name b = T.name c → b = c := fun {a b c} ha hb hc h => by
    refine hN b c (hT.listed_of_mem_children ha hb) (hT.listed_of_mem_children ha hc) ?_
    unfold qualifiedName
    rw [hT.ancestry_of_child hb, hT.ancestry_of_child hc]
    simp only [List.map_append, List.map_singleton, h]
  constructor
  · intro v hv r hr s hs h
    exact Element.region.inj
      (hchild (a := .vertex v) hv (List.mem_map_of_mem hr) (List.mem_map_of_mem hs) h)
  · intro r hr v hv w hw _ _ h
    exact Element.vertex.inj
      (hchild (a := .region r) hr (List.mem_map_of_mem hv) (List.mem_map_of_mem hw) h)

end Topology

/-! ## A tree that mirrors tables -/

/-- The tree holds what the tables hold, by name. -/
structure TableInstance.Mirrors (T : Topology) (i : TableInstance) (j : TreeInstance) : Prop where
  sound : i.Sound T
  name : i.name = j.name
  current : ∀ r, j.current.get? r = i.current.get? r
  known : ∀ r ∈ T.regions, j.activeState.bind (·.known (TreeInstance.path T r)) =
    (i.lastKnown.get? r).map fun v => T.name (.vertex v)
  terminated : i.terminated = j.terminated

theorem TableInstance.mirrors_new (T : Topology) (name : String) :
    Mirrors T ⟨name, {}, {}, false⟩ { name := name } where
  sound := sound_new T name
  name := rfl
  current _ := rfl
  known _ _ := rfl
  terminated := rfl

namespace TableInstance.Mirrors

variable {T : Topology} {i : TableInstance} {j : TreeInstance} (hT : T.WellFormed)
  (hS : T.DistinctSiblings) (hF : ∀ r, (T.region r).vertices ≠ [] → r ∈ T.regions)
  (h : i.Mirrors T j)

include hS h

theorem lastKnown_listed {r : RegionId} (hr : r ∈ T.regions) :
    j.lastKnown T r = i.lastKnown.get? r := by
  rw [TreeInstance.lastKnown_eq_known, h.known r hr]
  cases hk : i.lastKnown.get? r with
  | none => rfl
  | some v =>
    obtain ⟨-, hv, hs⟩ := h.sound.listed r v hk
    exact hS.findState_name hr hv hs

include hF

theorem lastKnown_eq (r : RegionId) : j.lastKnown T r = i.lastKnown.get? r := by
  by_cases hr : r ∈ T.regions
  · exact h.lastKnown_listed hS hr
  · have hnil : (T.region r).vertices = [] := Classical.byContradiction fun hne => hr (hF r hne)
    have hnone : i.lastKnown.get? r = none := by
      cases hk : i.lastKnown.get? r with
      | none => rfl
      | some v => exact absurd (h.sound.listed r v hk).1 hr
    rw [hnone]
    refine Option.bind_eq_none_iff.2 fun name _ => ?_
    unfold Topology.findState
    rw [hnil]
    rfl

theorem agree : Instance.Agree T i j where
  name := h.name
  current r := by
    show i.current.get? r = j.currentIn T r
    unfold TreeInstance.currentIn
    rw [h.current r, h.lastKnown_eq hS hF]
    cases hc : i.current.get? r with
    | some v => rfl
    | none =>
      cases hk : i.lastKnown.get? r with
      | none => rfl
      | some v =>
        have hsome := h.sound.current r (hk ▸ rfl)
        rw [hc] at hsome
        cases hsome
  lastKnown r := (h.lastKnown_eq hS hF r).symm
  isTerminated := h.terminated

omit hF in
include hT in
theorem setCurrent {r : RegionId} {v : VertexId} (hv : T.Holds r v) :
    Mirrors T (i.setCurrent T r v) (j.setCurrent T r v) := by
  have hsound := h.sound.setCurrent hT hv
  have hr := (hT.listed_of_parent hv.1 hv.2).1
  have hcurrent : ∀ r', (j.current.insert r v).get? r' = (i.current.insert r v).get? r' :=
    fun r' => by rw [Assoc.get?_insert, Assoc.get?_insert, h.current r']
  unfold TableInstance.setCurrent at hsound ⊢
  unfold TreeInstance.setCurrent
  by_cases hs : T.isState v
  · simp only [hs, if_true] at hsound ⊢
    refine ⟨hsound, h.name, hcurrent, fun r' hr' => ?_, h.terminated⟩
    rw [TreeInstance.known_remember, Assoc.get?_insert]
    by_cases he : r' = r
    · rw [if_pos he, if_pos (he ▸ rfl)]
      rfl
    · rw [if_neg he, if_neg fun hp => he (hT.eq_of_path hS hr' hr hp)]
      exact h.known r' hr'
  · simp only [hs] at hsound ⊢
    exact ⟨hsound, h.name, hcurrent, h.known, h.terminated⟩

end TableInstance.Mirrors

namespace TreeInstance

variable {T : Topology} (hT : T.WellFormed)
include hT

/-- What becomes known of a region under its name is not taken for another's. -/
theorem lastKnown_setCurrent (hS : T.DistinctSiblings) {r : RegionId} {v : VertexId}
    (hv : T.Holds r v) (j : TreeInstance) {s : RegionId} (hs : s ∈ T.regions) :
    (j.setCurrent T r v).lastKnown T s =
      if s = r ∧ T.isState v then some v else j.lastKnown T s := by
  obtain ⟨hr, hmem⟩ := hT.listed_of_parent hv.1 hv.2
  unfold setCurrent
  by_cases hstate : T.isState v
  · simp only [hstate, if_true, and_true]
    rw [lastKnown_eq_known, known_remember]
    by_cases he : s = r
    · rw [if_pos he, if_pos (he ▸ rfl), he]
      exact hS.findState_name hr hmem hstate
    · rw [if_neg he, if_neg fun hp => he (hT.eq_of_path hS hs hr hp), lastKnown_eq_known]
  · simp only [hstate, and_false, if_false, Bool.false_eq_true]
    rfl

/-- On a model with distinct names, trees that mirror some tables are lawful. -/
theorem laws (hN : T.DistinctNames) :
    Instance.Laws T fun j : TreeInstance => ∃ i : TableInstance, i.Mirrors T j where
  trace _ := fun ⟨i, h⟩ => ⟨i, h.sound, h.name, h.current, h.known, h.terminated⟩
  alike_trace _ _ := ⟨fun _ => rfl, rfl⟩
  terminate := fun ⟨i, h⟩ => ⟨{ i with terminated := true }, ⟨h.sound.listed, h.sound.current⟩,
    h.name, h.current, h.known, rfl⟩
  lastKnown_terminate _ _ := rfl
  isTerminated_terminate _ := rfl
  setCurrent := fun ⟨i, h⟩ hv => ⟨_, h.setCurrent hT (hN.siblings hT) hv⟩
  lastKnown_setCurrent _ hv _ hs := TreeInstance.lastKnown_setCurrent hT (hN.siblings hT) hv _ hs
  isTerminated_setCurrent j r v := by
    show (TreeInstance.setCurrent T r v j).terminated = j.terminated
    unfold TreeInstance.setCurrent
    dsimp only
    split <;> rfl
  listed _ _ _ hv := mem_of_lastKnown hv

end TreeInstance

/-- What mirrors tables goes on to do so, whatever the engine does to both. -/
theorem mirrors_simulation {T : Topology} (hT : T.WellFormed) (hN : T.DistinctNames)
    (hF : ∀ r, (T.region r).vertices ≠ [] → r ∈ T.regions) :
    Instance.Simulation T T.Holds (TableInstance.Mirrors T) where
  agree h := h.agree (hN.siblings hT) hF
  setCurrent h hv := h.setCurrent hT (hN.siblings hT) hv
  terminate h := ⟨⟨h.sound.listed, h.sound.current⟩, h.name, h.current, h.known, rfl⟩
  trace _ h := ⟨h.sound, h.name, h.current, h.known, h.terminated⟩

/-- On a model with distinct names and no vertices in removed regions, a new instance in tables
and a new instance in a tree go through any sequence of calls alike. -/
theorem calls_table_tree {M : Machine σ} {allowed : Edit σ → Prop} (hM : M.Reachable allowed)
    (hN : ∀ name, Violation.duplicateQualifiedName name ∉ M.violations)
    (hF : ∀ r, (M.topology.region r).vertices ≠ [] → r ∈ M.topology.regions) (name : String)
    (cs : List (Call σ)) :
    List.Forall₂ (Outcome.Agree M.topology) (M.calls (⟨name, {}, {}, false⟩ : TableInstance) cs)
      (M.calls ({ name := name } : TreeInstance) cs) :=
  hM.calls_agree (mirrors_simulation hM.wellFormed (Machine.distinctNames hN) hF)
    (TableInstance.mirrors_new M.topology name) cs

/-- A state with a region that holds a state, after another of the same names was removed. -/
def replacedBranch : Machine Unit := .build "m" {} [
  .addVertex "b" (.state ⟨0⟩) .state, .addRegion "p" ⟨1⟩, .addVertex "x" (.region ⟨1⟩) .state,
  .removeVertex ⟨1⟩,
  .addVertex "b" (.state ⟨0⟩) .state, .addRegion "p" ⟨3⟩, .addVertex "x" (.region ⟨2⟩) .state]

theorem replacedBranch_calls : List.Forall₂ (Outcome.Agree replacedBranch.topology)
    (replacedBranch.calls (⟨"i", {}, {}, false⟩ : TableInstance)
      [.start 1 (), .evaluate 3 () "go"])
    (replacedBranch.calls ({ name := "i" } : TreeInstance) [.start 1 (), .evaluate 3 () "go"]) := by
  have hM : replacedBranch.Reachable fun _ => True :=
    .build (by decide +kernel) fun _ _ => trivial
  refine calls_table_tree hM (fun name => ?_) (fun r h => ?_) "i" _
  · rw [show replacedBranch.violations = [] by decide +kernel]
    exact List.not_mem_nil
  · match r with
    | ⟨0⟩ => decide +kernel
    | ⟨1⟩ => exact absurd (by decide +kernel) h
    | ⟨2⟩ => decide +kernel
    | ⟨_ + 3⟩ => exact absurd rfl h

/-- The same, with one more state in the region that was removed. -/
def refilledBranch : Machine Unit :=
  (Edit.addVertex "x" (.region ⟨1⟩) .state).apply replacedBranch

/-- The path of a removed region may lead to the node of another, whose last known state the tree
then takes for one in the removed region. -/
theorem refilledBranch_differs : refilledBranch.Reachable (fun _ => True)
    ∧ (∀ name, Violation.duplicateQualifiedName name ∉ refilledBranch.violations)
    ∧ ¬List.Forall₂ (Outcome.Agree refilledBranch.topology)
        (refilledBranch.calls (⟨"i", {}, {}, false⟩ : TableInstance) [.start 1 ()])
        (refilledBranch.calls ({ name := "i" } : TreeInstance) [.start 1 ()]) := by
  refine ⟨.edit (.build (by decide +kernel) fun _ _ => trivial) (by decide +kernel) trivial,
    fun name => ?_, fun h => ?_⟩
  · rw [show refilledBranch.violations = [] by decide +kernel]
    exact List.not_mem_nil
  · have ho := (List.forall₂_cons.1 h).1
    exact absurd (ho.inst.lastKnown ⟨1⟩) (by decide +kernel)

end Hsm
