import Hsm.Checkpoint.Json
import Hsm.Proofs.Checkpoint.Binary
import Hsm.Proofs.Machine.Lives
import Hsm.Proofs.Snapshot.Json

/-!
# Checkpoints read back

A run makes the tree of an instance only as deep as the regions of the model lie below one another
(`TreeInstance.Shallow`). So a checkpoint of an instance that was run is read back from its text
unless the model nests too deeply, and from its bytes in any case (`capture_readsBack`).
-/

namespace Hsm

variable {σ : Type}

/-! ## The levels of a tree that grew in a run -/

namespace StateNode

theorem mem_alterFirst {name : String} {f : StateNode → StateNode} {c : StateNode} :
    ∀ {nodes : List StateNode}, c ∈ alterFirst name f nodes →
      c ∈ nodes ∨ ∃ d, (d ∈ nodes ∨ d = ⟨name, none, []⟩) ∧ c = f d
  | [], h => .inr ⟨_, .inr rfl, List.mem_singleton.1 h⟩
  | node :: rest, h => by
    unfold alterFirst at h
    split at h
    · obtain rfl | h := List.mem_cons.1 h
      · exact .inr ⟨node, .inl List.mem_cons_self, rfl⟩
      · exact .inl (List.mem_cons_of_mem node h)
    · obtain rfl | h := List.mem_cons.1 h
      · exact .inl List.mem_cons_self
      · exact (mem_alterFirst h).imp (List.mem_cons_of_mem node) fun ⟨d, hd, hc⟩ =>
          ⟨d, hd.imp_left (List.mem_cons_of_mem node), hc⟩

/-- A change at the end of a path takes two levels for each name on it at most. -/
theorem levels_alter {f : StateNode → StateNode} (hf : ∀ node, (f node).levels = node.levels) :
    ∀ (path : List String) {node : StateNode} {k : Nat}, node.levels ≤ k →
      2 * path.length + 2 ≤ k → (alter f path node).levels ≤ k
  | [], node, k, h, _ => (hf node).trans_le h
  | name :: path, ⟨_, _, children⟩, k, h, hk => by
    rw [List.length_cons] at hk
    obtain ⟨k, rfl⟩ : ∃ n, k = n + 2 := ⟨k - 2, by omega⟩
    rw [levels, Nat.add_le_add_iff_right, levelsAll_le] at h
    rw [alter, levels, Nat.add_le_add_iff_right, levelsAll_le]
    intro c hc
    obtain hc | ⟨d, hd, rfl⟩ := mem_alterFirst hc
    · exact h c hc
    · refine levels_alter hf path ?_ (by omega)
      obtain hd | rfl := hd
      · exact h d hd
      · show 2 ≤ k
        omega

end StateNode

namespace TreeInstance

/-- The text of the tree takes at most `k` levels. -/
def Shallow (k : Nat) (i : TreeInstance) : Prop :=
  i.activeState.elim 0 StateNode.levels ≤ k

variable {T : Topology} {k : Nat}

theorem Shallow.remember {i : TreeInstance} (h : i.Shallow k) {r : RegionId}
    (hr : 2 * (T.ancestry (.region r)).length ≤ k) (v : VertexId) :
    (i.remember T r v).Shallow k := by
  have hpath : 2 * (path T r).length + 2 ≤ k := by
    rw [path, List.length_map, List.length_tail]
    rw [Topology.WellFormed.ancestry_region, List.length_append, List.length_singleton] at hr ⊢
    omega
  refine StateNode.levels_alter ?_ (path T r) ?_ hpath
  · exact fun ⟨_, _, _⟩ => rfl
  cases hnode : i.activeState with
  | none =>
    show 2 ≤ k
    omega
  | some node =>
    rw [Shallow, hnode] at h
    exact h

theorem kept_shallow (hT : T.WellFormed)
    (h : ∀ r ∈ T.regions, 2 * (T.ancestry (.region r)).length ≤ k) :
    Instance.Kept T (Shallow k) where
  trace _ hi := hi
  terminate hi := hi
  setCurrent {i r v} hi hv := by
    have hr := h r (hT.listed_of_parent hv.1 hv.2).1
    show (i.setCurrent T r v).Shallow k
    unfold TreeInstance.setCurrent
    split
    · exact Shallow.remember (i := { i with current := i.current.insert r v }) hi hr v
    · exact hi

end TreeInstance

theorem Machine.Reachable.calls_shallow {allowed : Edit σ → Prop} {k : Nat} :
    ∀ {M : Machine σ}, M.Reachable allowed →
      (∀ r ∈ M.topology.regions, 2 * (M.topology.ancestry (.region r)).length ≤ k) →
      ∀ {i : TreeInstance}, i.Shallow k → ∀ cs, ∀ o ∈ M.calls i cs, o.inst.Shallow k
  | _, _, _, _, _, [], _, ho => nomatch ho
  | M, hM, h, i, hi, c :: cs, o, ho => by
    have hcall := hM.call_keeps (TreeInstance.kept_shallow hM.wellFormed h) hi c
    obtain ⟨source, hsource⟩ := hM.call_machine i c
    obtain rfl | ho := List.mem_cons.1 ho
    · exact hcall
    · rw [hsource] at ho
      exact calls_shallow (hM.ready source) h hcall cs o ho

/-! ## Checkpoints -/

namespace Checkpoint

open Json (Nests nests_none nests_cons nests_string nests_member nests_object nests_all_plain)
open Json.Reader

theorem nests_json {c : Checkpoint} (hversion : c.version = currentVersion) :
    Nests c.json.toList (c.snapshot.levels + 1) := by
  have hnumber : Nests (toString c.version).toList 0 := by
    rw [hversion]
    exact nests_all_plain rfl
  refine nests_object ?_
  simpa using nests_cons (nests_member hnumber) (nests_cons (nests_member (nests_string c.id))
    (nests_cons (nests_member (nests_string c.timestamp.text))
      (nests_cons (nests_member (nests_string c.machine))
        (nests_cons (nests_member (nests_string c.instanceName))
          (nests_cons (nests_member c.snapshot.nests_json) (nests_none _ false) false) false)
          false) false) false) true

theorem version_reads : (natural (Nat.pow 2 32)).ReadsMember (toString currentVersion).toList
    currentVersion := by
  have htext : (toString currentVersion).toList = ['1'] := by decide
  have hcomma (rest) : natural (Nat.pow 2 32) ('1' :: ',' :: rest) = .ok (1, ',' :: rest) := rfl
  have hbrace (rest) : natural (Nat.pow 2 32) ('1' :: '}' :: rest) = .ok (1, '}' :: rest) := rfl
  rw [htext]
  rintro c rest (rfl | rfl)
  · exact hcomma rest
  · exact hbrace rest

theorem timestamp_reads {t : Timestamp} (ht : t.Valid) :
    timestampReader.Reads (Json.string t.text).toList t := fun rest => by
  unfold timestampReader
  rw [bind_ok (string_reads t.text rest), Timestamp.ofText?_text ht]
  rfl

section Forms

variable {n : Nat} {c : Checkpoint} (hversion : c.version = currentVersion)
  (htimestamp : c.timestamp.Valid)
include hversion htimestamp

theorem form_reads (h : c.snapshot.levels ≤ n) :
    (record (some (form n))).Reads c.json.toList c := by
  obtain ⟨_, id, timestamp, machine, instanceName, snapshot⟩ := c
  subst hversion
  refine record_reads ?_
  dsimp only [form]
  exact object_reads (.cons rfl (version_reads.map _) (.cons rfl ((string_reads id).map _).member
    (.cons rfl ((timestamp_reads htimestamp).map _).member
      (.cons rfl ((string_reads machine).map _).member
        (.cons rfl ((string_reads instanceName).map _).member
          (.cons rfl ((Snapshot.reader_reads h).map _).member (.nil _))))))) rfl

theorem form_refuses (h : n < c.snapshot.levels) :
    (record (some (form n))).Refuses c.json.toList := by
  obtain ⟨_, id, timestamp, machine, instanceName, snapshot⟩ := c
  subst hversion
  refine record_refuses ?_
  dsimp only [form]
  exact object_refuses (.cons rfl (version_reads.map _) (.cons rfl ((string_reads id).map _).member
    (.cons rfl ((timestamp_reads htimestamp).map _).member
      (.cons rfl ((string_reads machine).map _).member
        (.cons rfl ((string_reads instanceName).map _).member (.nil _)))))) rfl
          ((Snapshot.reader_refuses h).bind _) []

/-- A checkpoint is read from its text if that is nested no deeper than a text may be. -/
theorem ofJson_json : ofJson c.json =
    if Json.nesting c.json ≤ Snapshot.maxNesting then .ok c else .error .deserializationFailed := by
  unfold ofJson
  rw [(nests_json hversion).nesting]
  split
  case isTrue h =>
    have hrun := run_reads (form_reads hversion htimestamp
      (Nat.le_sub_one_of_lt h : c.snapshot.levels ≤ Snapshot.maxNesting - 1))
    rw [hrun]
    exact if_pos hversion
  case isFalse h =>
    have hrun := run_refuses (form_refuses hversion htimestamp
      (Nat.lt_of_succ_lt_succ (Nat.not_le.1 h) : Snapshot.maxNesting - 1 < c.snapshot.levels))
    rw [hrun]
    rfl

end Forms

theorem ofBinary_binary {c : Checkpoint} (hversion : c.version = currentVersion)
    (htimestamp : c.timestamp.Valid) (hlen : c.binary.length < 2 ^ 64) :
    ofBinary c.binary = .ok c := by
  have hread := binary_reads hversion htimestamp hlen []
  rw [List.append_nil] at hread
  exact ofBinary_eq_ok.2 ⟨hversion, [], hread⟩

/-- A checkpoint of an instance that was run is read back from its bytes, and from its text as long
as no more levels of nesting are in it than a text may have. It has no more if regions lie no
deeper than the thirty-first below one another. -/
theorem capture_readsBack {M : Machine σ} {allowed : Edit σ → Prop} (hM : M.Reachable allowed)
    (name : String) (limit : Option Nat) (cs : List (Call σ)) (id : String) {t : Timestamp}
    (ht : t.Valid) :
    ∀ o ∈ M.calls ({ name := name, historyLimit := limit } : TreeInstance) cs,
      let c := capture M o.inst id t
      (c.binary.length < 2 ^ 64 → ofBinary c.binary = .ok c) ∧
      (ofJson c.json = .ok c ↔ Json.nesting c.json ≤ Snapshot.maxNesting) ∧
      ((∀ r ∈ M.topology.regions, (M.topology.ancestry (.region r)).length ≤ 62) →
        ofJson c.json = .ok c) ∧
      c.restore M = .ok (TreeInstance.restore o.inst.name o.inst.snapshot) := by
  intro o ho c
  have hjson := ofJson_json (c := c) rfl ht
  refine ⟨ofBinary_binary rfl ht, ?_, fun hdeep => ?_, if_pos rfl⟩
  · rw [hjson]
    split <;> simp [*]
  · have hshallow : o.inst.Shallow 125 := hM.calls_shallow (fun r hr => by
      have := hdeep r hr
      omega) (Nat.zero_le _) cs o ho
    rw [hjson, (nests_json rfl).nesting, if_pos]
    exact Nat.add_le_add_right (Nat.add_le_add_right (Nat.max_le.2 ⟨hshallow, by decide⟩) 1) 1

/-- States nested in one another, of which the innermost is entered at once. -/
def tower (n : Nat) : Machine Unit := .build "tower" {}
  ((List.range n).map (fun k => .addVertex "s" (.state ⟨k⟩) .state) ++
    [.addVertex "i" (.state ⟨0⟩) (.pseudo .initial), .addTransition ⟨n + 1⟩ (some ⟨n⟩)])

theorem tower_readsBack :
    let o := (tower 3).call ({ name := "i" } : TreeInstance) (.start 9 ())
    let c := capture (tower 3) o.inst "7" lit.timestamp
    o.result = .value none ∧ ofBinary c.binary = .ok c ∧ ofJson c.json = .ok c ∧
      c.restore (tower 3) = .ok (TreeInstance.restore o.inst.name o.inst.snapshot) := by
  intro o c
  have hM : (tower 3).Reachable fun _ => True := .build (by decide +kernel) fun _ _ => trivial
  have h := capture_readsBack hM "i" none [.start 9 ()] "7" lit_valid o List.mem_cons_self
  exact ⟨by decide +kernel, h.1 (by decide +kernel), h.2.2.1 (by decide +kernel), h.2.2.2⟩

/-- The text of a checkpoint in which thirty-two states are nested is refused. -/
theorem tower_tooDeep :
    let o := (tower 32).call ({ name := "i" } : TreeInstance) (.start 9 ())
    let c := capture (tower 32) o.inst "7" lit.timestamp
    o.result = .value none ∧ ofJson c.json = .error .deserializationFailed := by
  intro o c
  have h : o.result = .value none ∧ c.snapshot.levels = 129 := by decide +kernel
  have hjson := ofJson_json (c := c) rfl lit_valid
  rw [(nests_json rfl).nesting, h.2] at hjson
  exact ⟨h.1, hjson⟩

end Checkpoint

end Hsm
