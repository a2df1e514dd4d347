import Hsm.Forest
import Mathlib.Data.List.Chain

/-!
# Ancestries of a forest

The ancestry of a node grows along parent links, so those of its nodes are its prefixes
(`Forest.prefix_of_mem_ancestors`), and the nodes above one node are in a row
(`Forest.mem_ancestors_total`). `Forest.induction` goes from the roots down, and
`Forest.mem_ancestors_induction` from a node up.
Two ancestries agree down to the meet of their nodes (`Forest.mem_ancestors_meet`).
-/

namespace Hsm

universe u

namespace Forest

variable {α : Type u} {F : Forest α}

/-- What holds of nodes without a parent, and of a node as soon as it holds of its parent, holds of
every node. -/
theorem induction {p : α → Prop} (hroot : ∀ a, F.parent a = none → p a)
    (hparent : ∀ a b, F.parent a = some b → p b → p a) (a : α) : p a := by
  cases hp : F.parent a with
  | none => exact hroot a hp
  | some b =>
    have := F.height_lt hp
    exact hparent a b hp (induction hroot hparent b)
termination_by F.height a

theorem mem_ancestors_self (a : α) : a ∈ F.ancestors a := by
  cases hp : F.parent a with
  | none => rw [ancestors_root hp]; exact List.mem_singleton.2 rfl
  | some b =>
    rw [ancestors_of_parent hp]
    exact List.mem_append_right _ (List.mem_singleton.2 rfl)

theorem mem_ancestors_of_parent {a b c : α} (h : F.parent b = some c) :
    a ∈ F.ancestors b ↔ a = b ∨ a ∈ F.ancestors c := by
  rw [ancestors_of_parent h, List.mem_append, List.mem_singleton]
  exact Or.comm

theorem mem_ancestors_root {a b : α} (h : F.parent b = none) : a ∈ F.ancestors b ↔ a = b := by
  rw [ancestors_root h, List.mem_singleton]

/-- What holds of a node and, with any other node, of its parent holds of the whole ancestry. -/
theorem mem_ancestors_induction {b : α} {p : α → Prop} (hself : p b)
    (hparent : ∀ a c, F.parent a = some c → p a → p c) : ∀ a ∈ F.ancestors b, p a := by
  induction b using F.induction with
  | hroot b hp =>
    intro a ha
    rw [(mem_ancestors_root hp).1 ha]
    exact hself
  | hparent b c hp ih =>
    intro a ha
    rcases (mem_ancestors_of_parent hp).1 ha with rfl | ha
    · exact hself
    · exact ih (hparent b c hp hself) a ha

theorem prefix_of_mem_ancestors {a b : α} (h : a ∈ F.ancestors b) : F.ancestors a <+: F.ancestors b := by
  refine mem_ancestors_induction (p := fun a => F.ancestors a <+: F.ancestors b)
    (List.prefix_refl _) (fun a c hp ih => ?_) a h
  rw [ancestors_of_parent hp] at ih
  exact (List.prefix_append _ _).trans ih

theorem mem_ancestors_trans {a b c : α} (hab : a ∈ F.ancestors b) (hbc : b ∈ F.ancestors c) :
    a ∈ F.ancestors c :=
  (prefix_of_mem_ancestors hbc).subset hab

theorem height_le_of_mem {a b : α} (h : a ∈ F.ancestors b) : F.height a ≤ F.height b :=
  mem_ancestors_induction (p := fun a => F.height a ≤ F.height b) (Nat.le_refl _)
    (fun _ _ hp ih => Nat.le_trans (Nat.le_of_lt (F.height_lt hp)) ih) a h

theorem not_mem_ancestors_of_parent {a b c : α} (h : F.parent b = some c)
    (ha : a ∈ F.ancestors c) : a ≠ b := by
  rintro rfl
  exact absurd (height_le_of_mem ha) (Nat.not_le.2 (F.height_lt h))

theorem nodup_ancestors (a : α) : (F.ancestors a).Nodup := by
  induction a using F.induction with
  | hroot a hp => rw [ancestors_root hp]; exact List.pairwise_singleton _ a
  | hparent a b hp ih =>
    rw [ancestors_of_parent hp]
    refine List.nodup_append.2 ⟨ih, List.pairwise_singleton _ a, fun x hx y hy => ?_⟩
    rw [List.mem_singleton.1 hy]
    exact not_mem_ancestors_of_parent hp hx

/-- Two nodes above the same node are above each other one way or the other. -/
theorem mem_ancestors_total {a b c : α} (ha : a ∈ F.ancestors c) (hb : b ∈ F.ancestors c) :
    a ∈ F.ancestors b ∨ b ∈ F.ancestors a := by
  rcases List.prefix_or_prefix_of_prefix (prefix_of_mem_ancestors ha)
    (prefix_of_mem_ancestors hb) with h | h
  · exact .inl (h.subset (mem_ancestors_self a))
  · exact .inr (h.subset (mem_ancestors_self b))

/-- Of two children of one node only one can be above a node. -/
theorem eq_of_parent_of_mem {a b c d : α} (ha : F.parent a = some c) (hb : F.parent b = some c)
    (had : a ∈ F.ancestors d) (hbd : b ∈ F.ancestors d) : a = b := by
  rcases mem_ancestors_total had hbd with h | h
  · rcases (mem_ancestors_of_parent hb).1 h with h | h
    · exact h
    · exact absurd rfl (not_mem_ancestors_of_parent ha h)
  · rcases (mem_ancestors_of_parent ha).1 h with h | h
    · exact h.symm
    · exact absurd rfl (not_mem_ancestors_of_parent hb h)

theorem isBelow_iff [DecidableEq α] {a top : α} :
    F.isBelow a top ↔ top ∈ F.ancestors a ∧ top ≠ a := by
  induction a using F.induction with
  | hroot a hp =>
    rw [isBelow_root hp, mem_ancestors_root hp]
    exact ⟨fun h => absurd h Bool.false_ne_true, fun h => absurd h.1 h.2⟩
  | hparent a b hp ih =>
    rw [isBelow_of_parent hp, mem_ancestors_of_parent hp, Bool.or_eq_true, decide_eq_true_iff, ih]
    constructor
    · rintro (rfl | ⟨h, -⟩)
      · exact ⟨.inr (mem_ancestors_self b), not_mem_ancestors_of_parent hp (mem_ancestors_self b)⟩
      · exact ⟨.inr h, not_mem_ancestors_of_parent hp h⟩
    · rintro ⟨h | h, hne⟩
      · exact absurd h hne
      · by_cases hb : b = top
        · exact .inl hb
        · exact .inr ⟨h, Ne.symm hb⟩

theorem getLast?_ancestors (a : α) : (F.ancestors a).getLast? = some a := by
  cases hp : F.parent a with
  | none => rw [ancestors_root hp]; rfl
  | some b => rw [ancestors_of_parent hp, List.getLast?_concat]

/-- In an ancestry each node but the first comes right after its parent. -/
theorem isChain_ancestors (a : α) : (F.ancestors a).IsChain fun b c => F.parent c = some b := by
  induction a using F.induction with
  | hroot a hp => rw [ancestors_root hp]; exact .singleton a
  | hparent a b hp ih =>
    rw [ancestors_of_parent hp]
    refine List.isChain_append.2 ⟨ih, .singleton a, ?_⟩
    intro c hc d hd
    rw [getLast?_ancestors] at hc
    obtain rfl := Option.some.inj hc
    obtain rfl := Option.some.inj hd
    exact hp

/-- What is above a node of an ancestry stands before it there. -/
theorem mem_take_of_mem_ancestors {a b c : α} {i : Nat} (hc : (F.ancestors a)[i]? = some c)
    (hb : b ∈ F.ancestors c) (hne : b ≠ c) : b ∈ (F.ancestors a).take i := by
  obtain ⟨below, hbelow⟩ := prefix_of_mem_ancestors (List.mem_of_getElem? hc)
  cases hp : F.parent c with
  | none => exact absurd ((mem_ancestors_root hp).1 hb) hne
  | some d =>
    rw [ancestors_of_parent hp, List.append_assoc] at hbelow
    have hget : (F.ancestors a)[(F.ancestors d).length]? = some c := by
      rw [← hbelow, List.getElem?_append_right (Nat.le_refl _), Nat.sub_self]
      rfl
    obtain ⟨hi, -⟩ := List.getElem?_eq_some_iff.1 hc
    obtain rfl := (List.getElem?_inj hi (nodup_ancestors a)).1 (hc.trans hget.symm)
    rw [← hbelow, List.take_left]
    exact ((mem_ancestors_of_parent hp).1 hb).resolve_left hne

theorem mem_above_of_append {a b c : α} {above below : List α}
    (h : F.ancestors c = above ++ a :: below) (hb : b ∈ F.ancestors a) (hne : b ≠ a) :
    b ∈ above := by
  have htake := mem_take_of_mem_ancestors (i := above.length) (by rw [h]; simp) hb hne
  rwa [h, List.take_left] at htake

/-- What stands below a node in an ancestry is beneath it. -/
theorem mem_ancestors_of_append {a b c : α} {above below : List α}
    (h : F.ancestors c = above ++ a :: below) (hb : b ∈ a :: below) : a ∈ F.ancestors b := by
  have ha : a ∈ F.ancestors c := h ▸ List.mem_append_right _ List.mem_cons_self
  rcases mem_ancestors_total ha (h ▸ List.mem_append_right _ hb) with hab | hba
  · exact hab
  · by_cases he : b = a
    · exact he ▸ mem_ancestors_self b
    · have hnodup := h ▸ nodup_ancestors c
      exact absurd rfl ((List.nodup_append.1 hnodup).2.2 b (mem_above_of_append h hba he) b hb)

/-- What stands above a node in an ancestry is not beneath it. -/
theorem not_mem_ancestors_of_append {a b c : α} {above below : List α}
    (h : F.ancestors c = above ++ a :: below) (hb : b ∈ above) : a ∉ F.ancestors b := by
  intro ha
  have hnodup := (List.nodup_append.1 (h ▸ nodup_ancestors c)).2.2
  obtain ⟨i, hi, hget⟩ := List.getElem_of_mem hb
  have hb' : (F.ancestors c)[i]? = some b := by
    rw [h, List.getElem?_append_left hi, List.getElem?_eq_getElem hi, hget]
  have htake := mem_take_of_mem_ancestors hb' ha (hnodup b hb a List.mem_cons_self).symm
  rw [h, List.take_append_of_le_length (Nat.le_of_lt hi)] at htake
  exact hnodup a (List.mem_of_mem_take htake) a List.mem_cons_self rfl

/-- The nodes down to one of an ancestry are the ancestry of that node. -/
theorem take_ancestors {a b : α} {i : Nat} (h : (F.ancestors a)[i]? = some b) :
    (F.ancestors a).take (i + 1) = F.ancestors b := by
  obtain ⟨below, hbelow⟩ := prefix_of_mem_ancestors (List.mem_of_getElem? h)
  have hpos := List.length_pos_iff.2 (List.ne_nil_of_mem (mem_ancestors_self (F := F) b))
  have hlast : (F.ancestors a)[(F.ancestors b).length - 1]? = some b := by
    rw [← hbelow, List.getElem?_append_left (by omega), ← List.getLast?_eq_getElem?,
      getLast?_ancestors]
  obtain ⟨hi, -⟩ := List.getElem?_eq_some_iff.1 h
  have hindex := (List.getElem?_inj hi (nodup_ancestors a)).1 (h.trans hlast.symm)
  rw [← hbelow, hindex, Nat.sub_add_cancel hpos, List.take_left]

/-! ## Where two ancestries part -/

section Common

variable [DecidableEq α]

theorem take_length_takeWhile_zip :
    ∀ xs ys : List α, xs.take ((xs.zip ys).takeWhile fun p => p.1 = p.2).length
      = ys.take ((xs.zip ys).takeWhile fun p => p.1 = p.2).length
  | [], ys => by simp only [List.zip_nil_left, List.takeWhile_nil, List.length_nil, List.take_zero]
  | _ :: _, [] => by
    simp only [List.zip_nil_right, List.takeWhile_nil, List.length_nil, List.take_zero]
  | x :: xs, y :: ys => by
    by_cases h : x = y
    · subst h
      simp only [List.zip_cons_cons, List.takeWhile_cons, decide_true, if_true, List.length_cons,
        List.take_succ_cons, take_length_takeWhile_zip xs ys]
    · simp only [List.zip_cons_cons, List.takeWhile_cons, h, decide_false, Bool.false_eq_true,
        if_false, List.length_nil, List.take_zero]

theorem length_le_takeWhile_zip : ∀ {zs xs ys : List α}, zs <+: xs → zs <+: ys →
    zs.length ≤ ((xs.zip ys).takeWhile fun p => p.1 = p.2).length
  | [], _, _, _, _ => Nat.zero_le _
  | z :: zs, _, _, ⟨xs, hxs⟩, ⟨ys, hys⟩ => by
    subst hxs hys
    simp only [List.cons_append, List.zip_cons_cons, List.takeWhile_cons, decide_true, if_true,
      List.length_cons]
    exact Nat.succ_le_succ
      (length_le_takeWhile_zip (List.prefix_append zs xs) (List.prefix_append zs ys))

theorem commonIndex_eq_some {xs ys : List α} {i : Nat} : commonIndex xs ys = some i ↔
    ((xs.zip ys).takeWhile fun p => p.1 = p.2).length = i + 1 := by
  unfold commonIndex
  cases ((xs.zip ys).takeWhile fun p => p.1 = p.2).length with
  | zero => simp
  | succ n => simp

/-- At or above the meet of two nodes is what is at or above both of them. -/
theorem mem_ancestors_meet {a b m c : α} (h : F.meet a b = some m) :
    c ∈ F.ancestors m ↔ c ∈ F.ancestors a ∧ c ∈ F.ancestors b := by
  obtain ⟨i, hi, hm⟩ := Option.bind_eq_some_iff.1 h
  have hlength := commonIndex_eq_some.1 hi
  have htake := take_length_takeWhile_zip (F.ancestors a) (F.ancestors b)
  rw [hlength] at htake
  rw [← take_ancestors hm]
  refine ⟨fun hc => ⟨List.mem_of_mem_take hc, List.mem_of_mem_take (htake ▸ hc)⟩, ?_⟩
  rintro ⟨ha, hb⟩
  have hpa := prefix_of_mem_ancestors ha
  have hle := length_le_takeWhile_zip hpa (prefix_of_mem_ancestors hb)
  rw [hlength] at hle
  exact (List.prefix_take_iff.2 ⟨hpa, hle⟩).subset (mem_ancestors_self c)

/-- Lists that begin alike have a common index. -/
theorem exists_commonIndex {xs ys : List α} {z : α} (hx : xs.head? = some z)
    (hy : ys.head? = some z) : ∃ i, commonIndex xs ys = some i := by
  have hleads : ∀ {zs : List α}, zs.head? = some z → [z] <+: zs := fun h => by
    obtain ⟨rest, rfl⟩ := List.head?_eq_some_iff.1 h
    exact ⟨rest, rfl⟩
  have hlength := length_le_takeWhile_zip (hleads hx) (hleads hy)
  exact ⟨_, commonIndex_eq_some.2 (Nat.sub_add_cancel hlength).symm⟩

/-- Two nodes beneath different children of a node meet in that node. -/
theorem meet_of_append {a b c x y : α} {above as bs : List α}
    (ha : F.ancestors a = above ++ c :: x :: as) (hb : F.ancestors b = above ++ c :: y :: bs)
    (hne : x ≠ y) : F.meet a b = some c := by
  have hindex : ∀ above : List α, commonIndex (above ++ c :: x :: as) (above ++ c :: y :: bs)
      = some above.length := fun above => by
    rw [commonIndex_eq_some]
    induction above with
    | nil => simp [hne]
    | cons z above ih => simpa using ih
  unfold meet
  rw [ha, hb, hindex above, Option.bind_some, List.getElem?_append_right (Nat.le_refl _),
    Nat.sub_self, List.getElem?_cons_zero]

end Common

end Forest

end Hsm
