import Hsm.Checkpoint.Binary
import Hsm.Proofs.Reading
import Hsm.Proofs.Timestamp.Text

/-!
# The bytes of a checkpoint are a prefix code

The reader of each part of a checkpoint takes exactly the bytes that are written for it off the
front of anything (`..._reads`), and whatever it takes is what is written for the value
(`..._exact`). So a checkpoint is read off its bytes whatever follows them, no beginning of its
bytes can be read, and what can be read begins with the bytes of what was read, but for the
spelling of the timestamp (`Checkpoint.binary_prefixCode`). Lengths are written in eight bytes,
which is why nothing with `2 ^ 64` bytes or more is read back.
-/

namespace Hsm

namespace Binary

namespace Reader

variable {α β : Type}

/-! ## Numbers, texts and flags -/

theorem byte_reads (b : UInt8) : Reads byte [b] b :=
  fun _ => rfl

theorem byte_eq_some {s rest : List UInt8} {b : UInt8} :
    byte.run s = some (b, rest) ↔ s = b :: rest := by
  cases s with
  | nil => exact ⟨nofun, nofun⟩
  | cons c s =>
    have h : byte.run (c :: s) = some (c, s) := rfl
    simp [h]

theorem number_reads : ∀ {width n : Nat}, n < 256 ^ width →
    Reads (number width) (Binary.number width n) n
  | 0, n, h => by
    obtain rfl : n = 0 := by simpa using h
    exact .pure 0
  | width + 1, n, h => by
    have hdiv : n / 256 < 256 ^ width := Nat.div_lt_of_lt_mul (by rwa [Nat.pow_succ'] at h)
    have hmod : (UInt8.ofNat (n % 256)).toNat + 256 * (n / 256) = n := by
      rw [UInt8.toNat_ofNat_of_lt' (Nat.mod_lt _ (by decide)), Nat.mod_add_div]
    have hread := (number_reads hdiv).map fun m => (UInt8.ofNat (n % 256)).toNat + 256 * m
    rw [hmod] at hread
    exact (byte_reads _).bind (f := fun b => number width >>= fun m => pure (b.toNat + 256 * m))
      hread

theorem number_exact : ∀ width, Exact (number width) (Binary.number width)
  | 0, s, n, rest, h => by
    obtain ⟨-, rfl⟩ := run_pure_eq_some.1 h
    rfl
  | width + 1, s, n, rest, h => by
    obtain ⟨b, s', hb, h⟩ := run_bind_eq_some.1 h
    obtain ⟨m, s'', hm, h⟩ := run_bind_eq_some.1 h
    obtain ⟨rfl, rfl⟩ := run_pure_eq_some.1 h
    have hb' : b.toNat < 256 := b.toNat_lt
    have hmod : (b.toNat + 256 * m) % 256 = b.toNat := by omega
    have hdiv : (b.toNat + 256 * m) / 256 = m := by omega
    rw [byte_eq_some.1 hb, number_exact width hm, Binary.number, hmod, hdiv, UInt8.ofNat_toNat]
    rfl

theorem number_lt : ∀ {width : Nat} {s rest : List UInt8} {n : Nat},
    (number width).run s = some (n, rest) → n < 256 ^ width
  | 0, s, n, rest, h => by
    obtain ⟨rfl, -⟩ := run_pure_eq_some.1 h
    decide
  | width + 1, s, n, rest, h => by
    obtain ⟨b, s', -, h⟩ := run_bind_eq_some.1 h
    obtain ⟨m, s'', hm, h⟩ := run_bind_eq_some.1 h
    obtain ⟨rfl, -⟩ := run_pure_eq_some.1 h
    have hb : b.toNat < 256 := b.toNat_lt
    have hm := number_lt hm
    rw [Nat.pow_succ]
    omega

@[simp]
theorem length_number : ∀ width n, (Binary.number width n).length = width
  | 0, _ => rfl
  | width + 1, n => congrArg (· + 1) (length_number width (n / 256))

theorem text_reads {t : String} (h : (Binary.text t).length < 2 ^ 64) :
    Reads text (Binary.text t) t := fun rest => by
  have hlen : t.toUTF8.data.toList.length < 256 ^ 8 := by
    simp only [Binary.text, List.length_append, length_number] at h
    omega
  unfold Binary.text
  rw [List.append_assoc]
  refine run_bind_eq_some.2 ⟨_, _, number_reads hlen _, ?_⟩
  have hutf8 : String.fromUTF8? ⟨t.toByteArray.data⟩ = some t := dif_pos t.isValidUTF8
  simp [hutf8]

theorem text_exact : Exact text Binary.text := fun {s t rest} h => by
  obtain ⟨n, s', hn, h⟩ := run_bind_eq_some.1 h
  simp only [StateT.run_bind, StateT.run_get, pure_bind] at h
  split at h <;> rename_i hlen
  case isFalse => cases h
  obtain ⟨_, _, hset, h⟩ := run_bind_eq_some.1 h
  cases hset
  split at h <;> rename_i hutf8
  case h_2 => cases h
  obtain ⟨ht, rfl⟩ := run_pure_eq_some.1 h
  have hbytes : t.toByteArray.data.toList = s'.take n := by
    obtain ⟨_, hu⟩ := Option.dite_none_right_eq_some.1 hutf8
    rw [← ht, ← Option.some.inj hu]
    rfl
  rw [number_exact 8 hn]
  simp [Binary.text, hbytes, hlen]

theorem flag_reads : ∀ b : Bool, Reads flag (Binary.flag b) b
  | false | true => fun _ => rfl

theorem flag_exact : Exact flag Binary.flag := fun {s b rest} h => by
  obtain ⟨c, s', hc, h⟩ := run_bind_eq_some.1 h
  rw [byte_eq_some.1 hc]
  split at h
  case h_1 hz =>
    obtain ⟨rfl, rfl⟩ := run_pure_eq_some.1 h
    obtain rfl : c = 0 := UInt8.toNat_inj.1 hz
    rfl
  case h_2 ho =>
    obtain ⟨rfl, rfl⟩ := run_pure_eq_some.1 h
    obtain rfl : c = 1 := UInt8.toNat_inj.1 ho
    rfl
  case h_3 => cases h

/-! ## Optional values and lists -/

variable {read : Reader α} {write : α → List UInt8}

theorem optional_reads {o : Option α} (h : ∀ a ∈ o, Reads read (write a) a) :
    Reads (optional read) (Binary.optional write o) o := by
  cases o with
  | none => exact fun _ => rfl
  | some a => exact (flag_reads true).bind ((h a rfl).map some)

theorem optional_exact (h : Exact read write) : Exact (optional read) (Binary.optional write) :=
  fun {s o rest} hs => by
    obtain ⟨b, s', hb, hs⟩ := run_bind_eq_some.1 hs
    rw [flag_exact hb]
    cases b with
    | false =>
      obtain ⟨rfl, rfl⟩ := run_pure_eq_some.1 hs
      rfl
    | true =>
      obtain ⟨a, s'', ha, hs⟩ := run_bind_eq_some.1 hs
      obtain ⟨rfl, rfl⟩ := run_pure_eq_some.1 hs
      rw [h ha]
      rfl

theorem times_reads : ∀ {as : List α}, (∀ a ∈ as, Reads read (write a) a) →
    Reads (times read as.length) (as.flatMap write) as
  | [], _ => .pure []
  | a :: _, h => (h a List.mem_cons_self).bind
      ((times_reads fun b hb => h b (List.mem_cons_of_mem _ hb)).map (a :: ·))

theorem times_exact (h : Exact read write) : ∀ {n : Nat} {s : List UInt8} {as : List α}
    {rest : List UInt8}, (times read n).run s = some (as, rest) →
      as.length = n ∧ s = as.flatMap write ++ rest
  | 0, s, as, rest, hs => by
    obtain ⟨rfl, rfl⟩ := run_pure_eq_some.1 hs
    exact ⟨rfl, rfl⟩
  | n + 1, s, _, rest, hs => by
    obtain ⟨a, s', ha, hs⟩ := run_bind_eq_some.1 hs
    obtain ⟨as', s'', has, hs⟩ := run_bind_eq_some.1 hs
    obtain ⟨rfl, rfl⟩ := run_pure_eq_some.1 hs
    obtain ⟨hlen, rfl⟩ := times_exact h has
    rw [h ha, List.flatMap_cons, List.append_assoc]
    exact ⟨congrArg (· + 1) hlen, rfl⟩

theorem list_reads {as : List α} (hlen : as.length < 2 ^ 64)
    (h : ∀ a ∈ as, Reads read (write a) a) : Reads (list read) (Binary.list write as) as :=
  have hcount : Reads (number 8) (Binary.number 8 as.length) as.length := number_reads (by omega)
  hcount.bind (times_reads h)

theorem list_exact (h : Exact read write) : Exact (list read) (Binary.list write) :=
  fun {s as rest} hs => by
    obtain ⟨n, s', hn, hs⟩ := run_bind_eq_some.1 hs
    obtain ⟨rfl, rfl⟩ := times_exact h hs
    rw [number_exact 8 hn, Binary.list, List.append_assoc]

/-- Each element takes a byte at least, so a list is no longer than its bytes. -/
theorem length_le_list (hwrite : ∀ a, 0 < (write a).length) (as : List α) :
    as.length ≤ (Binary.list write as).length := by
  have h : as.length ≤ (as.flatMap write).length := by
    induction as with
    | nil => exact Nat.zero_le _
    | cons a as ih =>
      have := hwrite a
      simp only [List.flatMap_cons, List.length_append, List.length_cons]
      omega
  rw [Binary.list, List.length_append]
  omega

theorem length_le_list_of_mem (write : α → List UInt8) {a : α} {as : List α} (h : a ∈ as) :
    (write a).length + 8 ≤ (Binary.list write as).length := by
  have hsub := (List.sublist_flatten_of_mem (List.mem_map_of_mem (f := write) h)).length_le
  rw [← List.flatMap_def] at hsub
  rw [Binary.list, List.length_append, length_number]
  omega

/-! ## Nodes -/

theorem nodes_eq : ∀ ns, Binary.nodes ns = ns.flatMap Binary.node
  | [] => rfl
  | n :: ns => congrArg (Binary.node n ++ ·) (nodes_eq ns)

theorem node_eq (name : String) (lastKnown : Option String) (children : List StateNode) :
    Binary.node ⟨name, lastKnown, children⟩ = Binary.text name ++
      (Binary.optional Binary.text lastKnown ++ Binary.list Binary.node children) := by
  rw [Binary.node, nodes_eq, Binary.list, List.append_assoc, List.append_assoc]

theorem length_text_pos (t : String) : 0 < (Binary.text t).length := by
  rw [Binary.text, List.length_append, length_number]
  omega

theorem length_node_pos : ∀ n, 0 < (Binary.node n).length
  | ⟨name, _, _⟩ => by
    have := length_text_pos name
    rw [node_eq, List.length_append]
    omega

theorem optional_text_reads {o : Option String}
    (h : (Binary.optional Binary.text o).length < 2 ^ 64) :
    Reads (optional text) (Binary.optional Binary.text o) o := by
  refine optional_reads ?_
  rintro t rfl
  rw [Binary.optional, List.length_cons] at h
  exact text_reads (by omega)

/-- A node has fewer levels than bytes, since its children are among its bytes. -/
theorem nodeWithin_reads : ∀ {depth : Nat} {n : StateNode}, (Binary.node n).length ≤ depth →
    (Binary.node n).length < 2 ^ 64 → Reads (nodeWithin depth) (Binary.node n) n
  | 0, n, hd, _ => absurd hd (Nat.not_le.2 (length_node_pos n))
  | depth + 1, ⟨name, lastKnown, children⟩, hd, hs => by
    have hname := length_text_pos name
    have hlen := length_le_list length_node_pos children
    rw [node_eq] at hd hs ⊢
    simp only [List.length_append] at hd hs
    refine (text_reads (by omega)).bind ((optional_text_reads (by omega)).bind
      ((list_reads (by omega) fun c hc => ?_).map _))
    have hc := length_le_list_of_mem Binary.node hc
    exact nodeWithin_reads (by omega) (by omega)

theorem nodeWithin_exact : ∀ depth, Exact (nodeWithin depth) Binary.node
  | 0, _, _, _, h => by cases h
  | depth + 1, s, n, rest, h => by
    obtain ⟨name, s₁, hname, h⟩ := run_bind_eq_some.1 h
    obtain ⟨lastKnown, s₂, hlast, h⟩ := run_bind_eq_some.1 h
    obtain ⟨children, s₃, hchildren, h⟩ := run_bind_eq_some.1 h
    obtain ⟨rfl, rfl⟩ := run_pure_eq_some.1 h
    rw [text_exact hname, optional_exact text_exact hlast,
      list_exact (nodeWithin_exact depth) hchildren, node_eq]
    simp only [List.append_assoc]

theorem node_reads {n : StateNode} (h : (Binary.node n).length < 2 ^ 64) :
    Reads node (Binary.node n) n := fun rest =>
  nodeWithin_reads (by rw [List.length_append]; omega) h rest

theorem node_exact : Exact node Binary.node := fun {s _ _} h =>
  nodeWithin_exact s.length h

/-! ## Snapshots -/

theorem snapshot_reads {s : Snapshot} (h : (Binary.snapshot s).length < 2 ^ 64) :
    Reads snapshot (Binary.snapshot s) s := by
  obtain ⟨activeState, eventHistory, terminated⟩ := s
  have hlen := length_le_list length_text_pos eventHistory
  simp only [Binary.snapshot, List.append_assoc, List.length_append] at h ⊢
  refine (optional_reads ?_).bind ((list_reads (by omega) fun t ht => ?_).bind
    ((flag_reads terminated).map _))
  · rintro n rfl
    rw [Binary.optional, List.length_cons] at h
    exact node_reads (by omega)
  · have ht := length_le_list_of_mem Binary.text ht
    exact text_reads (by omega)

theorem snapshot_exact : Exact snapshot Binary.snapshot := fun {s a rest} h => by
  obtain ⟨activeState, s₁, hactive, h⟩ := run_bind_eq_some.1 h
  obtain ⟨eventHistory, s₂, hevents, h⟩ := run_bind_eq_some.1 h
  obtain ⟨terminated, s₃, hterminated, h⟩ := run_bind_eq_some.1 h
  obtain ⟨rfl, rfl⟩ := run_pure_eq_some.1 h
  rw [optional_exact node_exact hactive, list_exact text_exact hevents, flag_exact hterminated,
    Binary.snapshot]
  simp only [List.append_assoc]

/-- The text at the place of the timestamp of a checkpoint. -/
def stamp : Reader String := do
  let _ ← number 4
  let _ ← text
  text

theorem timestamp_reads {spelling : String} {t : Timestamp}
    (ht : Timestamp.ofText? spelling = some t) (h : (Binary.text spelling).length < 2 ^ 64) :
    Reads timestamp (Binary.text spelling) t := fun rest => by
  refine run_bind_eq_some.2 ⟨_, _, text_reads h rest, ?_⟩
  rw [ht]
  rfl

theorem timestamp_eq_some {s rest : List UInt8} {t : Timestamp}
    (h : timestamp.run s = some (t, rest)) :
    ∃ spelling, Timestamp.ofText? spelling = some t ∧ text.run s = some (spelling, rest) := by
  obtain ⟨spelling, s', hs, h⟩ := run_bind_eq_some.1 h
  split at h
  case h_2 => cases h
  case h_1 ht =>
    obtain ⟨rfl, rfl⟩ := run_pure_eq_some.1 h
    exact ⟨spelling, ht, hs⟩

end Reader

end Binary

namespace Checkpoint

open Binary

/-- The bytes of a checkpoint with its timestamp spelled in one of the ways that are read. -/
def spelled (c : Checkpoint) (spelling : String) : List UInt8 :=
  number 4 c.version ++ text c.id ++ text spelling ++ text c.machine ++ text c.instanceName ++
    Binary.snapshot c.snapshot

/-- The text at the place of the timestamp. -/
def stamp? (bytes : List UInt8) : Option String :=
  (Reader.stamp.run bytes).map (·.1)

theorem spelled_reads {c : Checkpoint} {spelling : String}
    (hspelling : Timestamp.ofText? spelling = some c.timestamp) (hversion : c.version < 256 ^ 4)
    (hlen : (c.spelled spelling).length < 2 ^ 64) :
    Reads Reader.checkpoint (c.spelled spelling) c := by
  simp only [spelled, List.append_assoc, List.length_append] at hlen ⊢
  refine (Reader.number_reads hversion).bind <| (Reader.text_reads (by omega)).bind <|
    (Reader.timestamp_reads hspelling (by omega)).bind <| (Reader.text_reads (by omega)).bind <|
    (Reader.text_reads (by omega)).bind <| (Reader.snapshot_reads (by omega)).map _

/-- What is read was written, with the timestamp in some spelling. -/
theorem spelled_of_run {s rest : List UInt8} {c : Checkpoint}
    (h : Reader.checkpoint.run s = some (c, rest)) :
    c.version < 256 ^ 4 ∧ ∃ spelling, Timestamp.ofText? spelling = some c.timestamp ∧
      stamp? s = some spelling ∧ s = c.spelled spelling ++ rest := by
  obtain ⟨version, s₁, hversion, h⟩ := run_bind_eq_some.1 h
  obtain ⟨id, s₂, hid, h⟩ := run_bind_eq_some.1 h
  obtain ⟨timestamp, s₃, htimestamp, h⟩ := run_bind_eq_some.1 h
  obtain ⟨machine, s₄, hmachine, h⟩ := run_bind_eq_some.1 h
  obtain ⟨instanceName, s₅, hname, h⟩ := run_bind_eq_some.1 h
  obtain ⟨snapshot, s₆, hsnapshot, h⟩ := run_bind_eq_some.1 h
  obtain ⟨rfl, rfl⟩ := run_pure_eq_some.1 h
  obtain ⟨spelling, hspelling, htext⟩ := Reader.timestamp_eq_some htimestamp
  have hstamp : Reader.stamp.run s = some (spelling, s₃) :=
    run_bind_eq_some.2 ⟨_, _, hversion, run_bind_eq_some.2 ⟨_, _, hid, htext⟩⟩
  refine ⟨Reader.number_lt hversion, spelling, hspelling, by rw [stamp?, hstamp]; rfl, ?_⟩
  rw [Reader.number_exact 4 hversion, Reader.text_exact hid, Reader.text_exact htext,
    Reader.text_exact hmachine, Reader.text_exact hname, Reader.snapshot_exact hsnapshot, spelled]
  simp only [List.append_assoc]

theorem ofBinary_eq_ok {bytes : List UInt8} {c : Checkpoint} :
    ofBinary bytes = .ok c ↔
      c.version = currentVersion ∧ ∃ rest, Reader.checkpoint.run bytes = some (c, rest) := by
  unfold ofBinary
  rcases Reader.checkpoint.run bytes with _ | ⟨d, rest⟩
  · simp [checked]
  · simp only [checked, Option.map_some]
    split <;> rename_i hversion
    · simp only [Except.ok.injEq, Option.some.injEq, Prod.mk.injEq]
      constructor
      · rintro rfl
        exact ⟨hversion, rest, rfl, rfl⟩
      · rintro ⟨-, _, rfl, -⟩
        rfl
    · simp only [reduceCtorEq, Option.some.injEq, Prod.mk.injEq, false_iff]
      rintro ⟨h, _, rfl, -⟩
      exact hversion h

theorem ofBinary_eq_failed {bytes : List UInt8} (h : Reader.checkpoint.run bytes = none) :
    ofBinary bytes = .error .deserializationFailed := by
  rw [ofBinary, h]
  rfl

theorem binary_reads {c : Checkpoint} (hversion : c.version = currentVersion)
    (htimestamp : c.timestamp.Valid) (hlen : c.binary.length < 2 ^ 64) :
    Reads Reader.checkpoint c.binary c :=
  spelled_reads (Timestamp.ofText?_text htimestamp) (by rw [hversion]; decide) hlen

/-- The bytes of a checkpoint of the version that is read form a prefix code that reading inverts:
the checkpoint is read off its bytes whatever follows, no proper beginning of them can be read, and
whatever reads as a checkpoint, with its timestamp spelled as it is written, begins with the bytes
of that checkpoint. -/
theorem binary_prefixCode :
    (∀ c : Checkpoint, c.version = currentVersion → c.timestamp.Valid →
      c.binary.length < 2 ^ 64 →
        (∀ rest, ofBinary (c.binary ++ rest) = .ok c) ∧
        ∀ start, start <+: c.binary → start ≠ c.binary →
          ofBinary start = .error .deserializationFailed) ∧
    ∀ (bytes : List UInt8) (c : Checkpoint), ofBinary bytes = .ok c →
      stamp? bytes = some c.timestamp.text → c.binary <+: bytes := by
  refine ⟨fun c hversion htimestamp hlen => ?_, fun bytes c h hstamp => ?_⟩
  · have hreads := binary_reads hversion htimestamp hlen
    refine ⟨fun rest => ofBinary_eq_ok.2 ⟨hversion, rest, hreads rest⟩, fun start hstart hne => ?_⟩
    obtain ⟨missing, hmissing⟩ := hstart
    refine ofBinary_eq_failed (Option.eq_none_iff_forall_ne_some.2 ?_)
    rintro ⟨d, rest⟩ hd
    -- what was read off the beginning is read off the whole too, and leaves what is missing
    obtain ⟨hsmall, spelling, hspelling, -, rfl⟩ := spelled_of_run hd
    rw [List.append_assoc] at hmissing
    have hshort : (d.spelled spelling).length < 2 ^ 64 := by
      rw [← hmissing, List.length_append] at hlen
      omega
    have hwhole := spelled_reads hspelling hsmall hshort (rest ++ missing)
    rw [hmissing, ← List.append_nil c.binary, hreads []] at hwhole
    obtain ⟨-, hnil⟩ := Prod.mk.inj (Option.some.inj hwhole)
    obtain ⟨rfl, rfl⟩ := List.append_eq_nil_iff.1 hnil.symm
    exact hne hmissing
  · obtain ⟨-, rest, hrun⟩ := ofBinary_eq_ok.1 h
    obtain ⟨-, spelling, -, hspelling, hbytes⟩ := spelled_of_run hrun
    obtain rfl : spelling = c.timestamp.text := Option.some.inj (hspelling.symm.trans hstamp)
    exact ⟨rest, hbytes.symm⟩

/-- An instance that entered one state in a leap second. -/
def lit : Checkpoint :=
  ⟨1, "7", ⟨2016, 12, 31, 23, 59, 60, 500000000⟩, "lamp", "hall",
    ⟨some ⟨"lamp", none, [⟨"default", some "lit \"💡\"", []⟩]⟩, ["enter lamp"], false⟩⟩

theorem lit_valid : lit.timestamp.Valid :=
  ⟨by decide, by decide, by decide, by decide, by decide⟩

theorem lit_prefixCode :
    ofBinary (lit.binary ++ [1, 2]) = .ok lit ∧
      ofBinary (lit.binary.take 70) = .error .deserializationFailed ∧
      lit.binary <+: lit.binary ++ [1, 2] := by
  have hlit := binary_prefixCode.1 lit rfl lit_valid (by decide +kernel)
  exact ⟨hlit.1 [1, 2], hlit.2 _ (List.take_prefix 70 _) (by decide +kernel),
    binary_prefixCode.2 _ lit (hlit.1 [1, 2]) (by decide +kernel)⟩

end Checkpoint

end Hsm
