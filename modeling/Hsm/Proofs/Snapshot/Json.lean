import Hsm.Snapshot.Json
import Hsm.Proofs.Json.Nesting
import Hsm.Proofs.Json.Yields

/-!
# Snapshots read back from JSON

Each name in the tree of a snapshot opens two levels of nesting in its text, one for the node and
one for its list of children (`StateNode.levels`). A reader that may go down so far reads the tree
back, and one that may not refuses it, so a snapshot is read back exactly if its text is not too
deep (`Snapshot.ofJson_json`). A text is not refused once what was read from it has been written
again (`levels_le_of_ofJson`). `Snapshot.json_roundTrip` puts the two together.
-/

namespace Hsm

open Json (Nests nests_none nests_cons nests_string nests_list nests_member nests_object
  nests_boolean nests_all_plain highest highest_le)
open Json.Reader

namespace StateNode

theorem induction {motive : StateNode → Prop}
    (mk : ∀ name lastKnown children, (∀ c ∈ children, motive c) →
      motive ⟨name, lastKnown, children⟩) (node : StateNode) : motive node :=
  @StateNode.rec motive (fun nodes => ∀ c ∈ nodes, motive c) mk (fun _ h => nomatch h)
    (fun _ _ hc hs _ h => by
      obtain rfl | h := List.mem_cons.1 h
      · exact hc
      · exact hs _ h) node

mutual

/-- The levels of nesting of the text of a node: itself, the list of its children, and what the
children take. -/
def levels : StateNode → Nat
  | ⟨_, _, children⟩ => levelsAll children + 2

def levelsAll : List StateNode → Nat
  | [] => 0
  | node :: rest => max (levels node) (levelsAll rest)

end

theorem levelsAll_eq : ∀ nodes, levelsAll nodes = highest (nodes.map levels)
  | [] => rfl
  | node :: rest => congrArg (max node.levels) (levelsAll_eq rest)

theorem jsonAll_eq : ∀ nodes, jsonAll nodes = nodes.map json
  | [] => rfl
  | node :: rest => congrArg (node.json :: ·) (jsonAll_eq rest)

theorem json_mk (name : String) (lastKnown : Option String) (children : List StateNode) :
    json ⟨name, lastKnown, children⟩ = Json.object (("name", Json.string name) ::
      (lastKnown.toList.map fun s => ("lastKnown", Json.string s)) ++
        [("children", Json.list (children.map json))]) := by
  cases lastKnown <;> simp [json, jsonAll_eq]

/-- The text of a node nests as deeply as its tree. -/
theorem nests_json (node : StateNode) : Nests node.json.toList node.levels := by
  induction node using StateNode.induction with
  | mk name lastKnown children ih =>
    have hchildren := nests_list ih
    rw [json_mk, levels, levelsAll_eq]
    refine nests_object ?_
    cases lastKnown with
    | none =>
      simpa using nests_cons (nests_member (nests_string name))
        (nests_cons (nests_member hchildren) (nests_none _ false) false) true
    | some s =>
      simpa using nests_cons (nests_member (nests_string name))
        (nests_cons (nests_member (nests_string s))
          (nests_cons (nests_member hchildren) (nests_none _ false) false) false) true

theorem opens_json : ∀ node : StateNode, Opens node.json.toList
  | ⟨name, lastKnown, children⟩ => json_mk name lastKnown children ▸ opens_object _

section Forms

variable {read : Json.Reader (List StateNode)} {children : List StateNode}

theorem form_reads (h : read.Reads (Json.list (children.map json)).toList children) (name : String)
    (lastKnown : Option String) :
    (record (some (form read))).Reads (json ⟨name, lastKnown, children⟩).toList
      ⟨name, lastKnown, children⟩ := by
  rw [json_mk]
  refine record_reads ?_
  cases lastKnown with
  | none =>
    exact object_reads (.cons rfl ((string_reads name).map _).member
      (.cons rfl (h.map _).member (.nil _))) rfl
  | some s =>
    exact object_reads (.cons rfl ((string_reads name).map _).member
      (.cons rfl ((optional_some (opens_string s) (string_reads s)).map _).member
        (.cons rfl (h.map _).member (.nil _)))) rfl

theorem form_refuses (h : read.Refuses (Json.list (children.map json)).toList) (name : String)
    (lastKnown : Option String) :
    (record (some (form read))).Refuses (json ⟨name, lastKnown, children⟩).toList := by
  rw [json_mk]
  refine record_refuses ?_
  cases lastKnown with
  | none =>
    exact object_refuses (.cons rfl ((string_reads name).map _).member (.nil _)) rfl
      (h.bind _) []
  | some s =>
    exact object_refuses (.cons rfl ((string_reads name).map _).member
      (.cons rfl ((optional_some (opens_string s) (string_reads s)).map _).member (.nil _))) rfl
      (h.bind _) []

end Forms

theorem levelsAll_le {nodes : List StateNode} {k : Nat} :
    levelsAll nodes ≤ k ↔ ∀ node ∈ nodes, node.levels ≤ k := by
  rw [levelsAll_eq, highest_le, List.forall_mem_map]

/-- A reader with enough levels left reads a node that was written. -/
theorem reader_reads : ∀ {k : Nat} {node : StateNode}, node.levels ≤ k →
    (reader k).Reads node.json.toList node
  | 0, ⟨_, _, _⟩, h | 1, ⟨_, _, _⟩, h => absurd h (by rw [levels]; omega)
  | k + 2, ⟨name, lastKnown, children⟩, h => by
    rw [levels, Nat.add_le_add_iff_right] at h
    exact form_reads (list_reads opens_json fun c hc => reader_reads (levelsAll_le.1 h c hc))
      name lastKnown

/-- One with fewer levels left refuses it. -/
theorem reader_refuses : ∀ {k : Nat} {node : StateNode}, k < node.levels →
    (reader k).Refuses node.json.toList
  | 0, ⟨name, lastKnown, children⟩, _ => by
    rw [json_mk, toList_object]
    exact record_none_refuses _
  | 1, ⟨name, lastKnown, children⟩, _ => form_refuses (by
    rw [toList_list]
    exact list_none_refuses _) name lastKnown
  | k + 2, ⟨name, lastKnown, children⟩, h => by
    rw [levels, Nat.add_lt_add_iff_right, ← Nat.not_le, levelsAll_le] at h
    have hdeep : ∃ c ∈ children, k < c.levels := by simpa using h
    refine form_refuses (list_refuses opens_json (fun c _ => ?_) ?_) name lastKnown
    · exact (Nat.lt_or_ge k c.levels).symm.imp reader_reads reader_refuses
    · exact hdeep.imp fun c hc => ⟨hc.1, reader_refuses hc.2⟩

end StateNode

namespace Snapshot

/-- The levels of nesting of the text of a snapshot: itself and the deeper one of its tree and its
history. -/
def levels (s : Snapshot) : Nat :=
  max (s.activeState.elim 0 StateNode.levels) 1 + 1

theorem json_mk (activeState : Option StateNode) (eventHistory : List String) (terminated : Bool) :
    json ⟨activeState, eventHistory, terminated⟩ = Json.object
      [("activeState", activeState.elim "null" StateNode.json),
        ("eventHistory", Json.list (eventHistory.map Json.string)),
        ("terminated", Json.boolean terminated)] := by
  cases activeState <;> rfl

/-- The text of a snapshot nests as deeply as its tree does in it. -/
theorem nests_json (s : Snapshot) : Nests s.json.toList s.levels := by
  obtain ⟨activeState, eventHistory, terminated⟩ := s
  have hnode : Nests (activeState.elim "null" StateNode.json).toList
      (activeState.elim 0 StateNode.levels) := by
    cases activeState with
    | none => exact nests_all_plain rfl
    | some node => exact node.nests_json
  have hlines : Nests (Json.list (eventHistory.map Json.string)).toList
      (highest (eventHistory.map fun _ => 0) + 1) := nests_list fun t _ => nests_string t
  have hzero : highest (eventHistory.map fun _ => 0) = 0 :=
    Nat.le_zero.1 (highest_le.2 (by simp))
  rw [hzero] at hlines
  rw [json_mk]
  refine nests_object ?_
  simpa [levels] using nests_cons (nests_member hnode) (nests_cons (nests_member hlines)
    (nests_cons (nests_member (nests_boolean terminated)) (nests_none _ false) false) false) true

section Forms

variable {n : Nat} {activeState : Option StateNode} {eventHistory : List String}

theorem node_reads (h : activeState.elim 0 StateNode.levels ≤ n) :
    (optional (StateNode.reader n)).Reads (activeState.elim "null" StateNode.json).toList
      activeState := by
  cases activeState with
  | none => exact optional_null _
  | some node => exact optional_some node.opens_json (StateNode.reader_reads h)

theorem node_refuses (h : n < activeState.elim 0 StateNode.levels) :
    (optional (StateNode.reader n)).Refuses (activeState.elim "null" StateNode.json).toList := by
  cases activeState with
  | none => cases h
  | some node => exact optional_refuses node.opens_json (StateNode.reader_refuses h)

theorem form_reads (hnode : activeState.elim 0 StateNode.levels ≤ n) (hpos : 0 < n)
    (terminated : Bool) :
    (record (some (form n))).Reads (json ⟨activeState, eventHistory, terminated⟩).toList
      ⟨activeState, eventHistory, terminated⟩ := by
  have hlines : (list (if n = 0 then none else some string)).Reads
      (Json.list (eventHistory.map Json.string)).toList eventHistory := by
    rw [if_neg (Nat.ne_of_gt hpos)]
    exact list_reads opens_string fun t _ => string_reads t
  rw [json_mk]
  refine record_reads ?_
  dsimp only [form]
  exact object_reads (.cons rfl ((node_reads hnode).map _).member
    (.cons rfl (hlines.map _).member (.cons rfl ((boolean_reads terminated).map _).member
      (.nil _)))) rfl

theorem form_refuses (h : n < max (activeState.elim 0 StateNode.levels) 1) (terminated : Bool) :
    (record (some (form n))).Refuses (json ⟨activeState, eventHistory, terminated⟩).toList := by
  rw [json_mk]
  refine record_refuses ?_
  dsimp only [form]
  by_cases hnode : n < activeState.elim 0 StateNode.levels
  · exact object_refuses (.nil _) rfl ((node_refuses hnode).bind _) _
  · have hread := node_reads (Nat.not_lt.1 hnode)
    have hlines : (list (if n = 0 then none else some string)).Refuses
        (Json.list (eventHistory.map Json.string)).toList := by
      rw [if_pos (by omega), toList_list]
      exact list_none_refuses _
    exact object_refuses (.cons rfl (hread.map _).member (.nil _)) rfl (hlines.bind _) _

end Forms

theorem reader_reads : ∀ {k : Nat} {s : Snapshot}, s.levels ≤ k → (reader k).Reads s.json.toList s
  | 0, ⟨_, _, _⟩, h => absurd h (Nat.not_succ_le_zero _)
  | _ + 1, ⟨_, _, terminated⟩, h => by
    rw [levels, Nat.add_le_add_iff_right, Nat.max_le] at h
    exact form_reads h.1 h.2 terminated

theorem reader_refuses : ∀ {k : Nat} {s : Snapshot}, k < s.levels → (reader k).Refuses s.json.toList
  | 0, ⟨activeState, eventHistory, terminated⟩, _ => by
    rw [json_mk, toList_object]
    exact record_none_refuses _
  | _ + 1, ⟨_, _, terminated⟩, h => form_refuses (Nat.lt_of_add_lt_add_right h) terminated

/-- Of the snapshots that are written, exactly those that nest no deeper than a text may are
read. -/
theorem ofJson_json (s : Snapshot) :
    ofJson s.json = if Json.nesting s.json ≤ maxNesting then .ok s else .error .malformed := by
  rw [s.nests_json.nesting]
  split
  · exact run_reads (reader_reads ‹_›)
  · exact run_refuses (reader_refuses (Nat.not_le.1 ‹_›))

end Snapshot

/-! ## What is read can be written and read again -/

namespace StateNode

theorem form_yields {children : Json.Reader (List StateNode)} {k : Nat}
    (h : children.Yields fun nodes => levelsAll nodes ≤ k) :
    (record (some (form children))).Yields fun node => node.levels ≤ k + 2 := by
  refine yields_record ?_ ?_
  · refine yields_bind fun _ => yields_bind fun _ => (h.field ?_ false).map fun nodes hnodes => ?_
    · rintro _ ⟨⟩
      exact Nat.zero_le k
    · exact Nat.add_le_add_right hnodes 2
  · refine yields_object (p := fun fields => levelsAll (fields.children.getD []) ≤ k) ?_ ?_ ?_
    · intro fields name value hfields hvalue
      split at hvalue
      · exact yields_once hvalue (yields_any _) fun _ _ => hfields
      · exact yields_once hvalue (yields_any _) fun _ _ => hfields
      · exact yields_once hvalue h fun _ hnodes => hnodes
      · cases hvalue
    · exact Nat.zero_le k
    · intro fields node hfields hnode
      obtain ⟨name, -, rfl⟩ := Option.map_eq_some_iff.1 hnode
      exact Nat.add_le_add_right hfields 2

/-- With an even number of levels left, every node that is read can be written within them. -/
theorem reader_yields : ∀ m, (reader (2 * m)).Yields fun node => node.levels ≤ 2 * m
  | 0 => yields_record_none _
  | m + 1 => form_yields fun s nodes rest h =>
    levelsAll_le.2 ((reader_yields m).list s nodes rest h)

end StateNode

namespace Snapshot

theorem form_yields (m : Nat) :
    (record (some (form (2 * m)))).Yields fun s =>
      s.activeState.elim 0 StateNode.levels ≤ 2 * m := by
  have hnode : (optional (StateNode.reader (2 * m))).Yields fun node =>
      node.elim 0 StateNode.levels ≤ 2 * m := fun s node rest h => by
    cases node with
    | none => exact Nat.zero_le _
    | some node => exact (StateNode.reader_yields m).optional s _ rest h node rfl
  refine yields_record ?_ ?_
  · refine (hnode.field ?_ true).bind fun _ hnode => yields_bind fun _ => yields_bind fun _ =>
      yields_pure hnode
    exact fun _ h => nomatch h
  · dsimp only [form]
    refine yields_object
      (p := fun fields => (Fields.activeState fields).join.elim 0 StateNode.levels ≤ 2 * m) ?_ ?_ ?_
    · intro fields name value hfields hvalue
      split at hvalue
      · exact yields_once hvalue hnode fun _ hnode => hnode
      · exact yields_once hvalue (yields_any _) fun _ _ => hfields
      · exact yields_once hvalue (yields_any _) fun _ _ => hfields
      · cases hvalue
    · exact Nat.zero_le _
    · rintro fields s hfields ⟨⟩
      exact hfields

/-- The tree that was read from a text can be written and read again in a snapshot. -/
theorem levels_le_of_ofJson {text : String} {s : Snapshot} (h : ofJson text = .ok s)
    (lines : List String) (terminated : Bool) :
    levels ⟨s.activeState, lines, terminated⟩ ≤ maxNesting :=
  have hnode : s.activeState.elim 0 StateNode.levels ≤ 126 := run_yields (form_yields 63) h
  Nat.succ_le_succ (Nat.max_le.2 ⟨hnode, by decide⟩)

end Snapshot

namespace TreeInstance

theorem truncated_idem (limit : Option Nat) (lines : List String) :
    truncated limit (truncated limit lines) = truncated limit lines := by
  cases limit with
  | none => rfl
  | some n => exact (List.take_take ..).trans (congrArg (List.take · lines) (Nat.min_self n))

/-- Taking up what was taken up changes nothing that is persisted. -/
theorem snapshot_apply_snapshot (i : TreeInstance) (s : Snapshot) :
    ((i.apply s).apply (i.apply s).snapshot).snapshot = (i.apply s).snapshot := by
  simp only [snapshot, apply, truncated_idem]

theorem ofJson_eq_ok {i i' : TreeInstance} {text : String} (h : i.ofJson text = .ok i') :
    ∃ s, Snapshot.ofJson text = .ok s ∧ i' = i.apply s := by
  unfold ofJson at h
  cases hs : Snapshot.ofJson text with
  | error e =>
    rw [hs] at h
    cases h
  | ok s =>
    rw [hs] at h
    cases h
    exact ⟨s, rfl, rfl⟩

end TreeInstance

theorem Snapshot.json_roundTrip :
    (∀ s : Snapshot, ofJson s.json = .ok s ↔ Json.nesting s.json ≤ maxNesting) ∧
    ∀ (i i' : TreeInstance) (text : String), i.ofJson text = .ok i' →
      ofJson i'.json = .ok i'.snapshot ∧
      (i'.ofJson i'.json).map TreeInstance.snapshot = .ok i'.snapshot := by
  refine ⟨fun s => ?_, fun i i' text h => ?_⟩
  · rw [ofJson_json]
    split <;> simp [*]
  · obtain ⟨s, hs, rfl⟩ := TreeInstance.ofJson_eq_ok h
    have hjson : ofJson (i.apply s).json = .ok (i.apply s).snapshot :=
      run_reads (reader_reads (levels_le_of_ofJson hs _ _))
    refine ⟨hjson, ?_⟩
    rw [TreeInstance.ofJson, hjson]
    exact congrArg Except.ok (i.snapshot_apply_snapshot s)

namespace Snapshot

/-- A snapshot with names that take escapes, and characters beyond the first plane. -/
def motley : Snapshot where
  activeState := some ⟨"\"top\"", none, [⟨"\\", some "\u0001𝄞", []⟩, ⟨"", some "\n", []⟩]⟩
  eventHistory := ["\t\r", "é😀"]
  terminated := true

/-- A text with an unknown member, a node that is written as a list, and a line with an escape. -/
def foreign : String :=
  "\x7b\"more\":[],\"eventHistory\":[\"b\",\"\\u0061\"],\"activeState\":[\"top\"]\x7d"

theorem motley_roundTrip :
    (Json.nesting motley.json ≤ maxNesting ∧ ofJson motley.json = .ok motley) ∧
    ∃ i' : TreeInstance,
      ({ name := "lamp", historyLimit := some 1 } : TreeInstance).ofJson foreign = .ok i' ∧
      ofJson i'.json = .ok i'.snapshot ∧
      (i'.ofJson i'.json).map TreeInstance.snapshot = .ok i'.snapshot := by
  have hfits : Json.nesting motley.json ≤ maxNesting := by
    rw [motley.nests_json.nesting]
    decide
  have hread :
      (({ name := "lamp", historyLimit := some 1 } : TreeInstance).ofJson foreign).toBool := by
    decide +kernel
  refine ⟨⟨hfits, (json_roundTrip.1 motley).2 hfits⟩, ?_⟩
  cases hi : ({ name := "lamp", historyLimit := some 1 } : TreeInstance).ofJson foreign with
  | error e =>
    rw [hi] at hread
    cases hread
  | ok i' => exact ⟨i', rfl, json_roundTrip.2 _ i' _ hi⟩

end Snapshot

end Hsm
