import Hsm.Proofs.Forest
import Mathlib.Data.Nat.Find
import Mathlib.Logic.Relation

/-!
# The order of a forest

A parent function is that of a forest as soon as all its chains end, for the length of its chain
can serve as the height of a node (`Forest.ofEnding`). Whatever the heights, the walks towards the
roots compute the order that links to parents make, and its meets (`Forest.walks_tellOrder`). What
two ancestries share from the start is the ancestry of the meet, since ancestries that have parted
never join again (`Forest.mem_ancestors_meet`).
-/

namespace Hsm

universe u

variable {α : Type u}

/-- The chain of parents of `a` comes to an end. -/
def ChainEnds (parent : α → Option α) (a : α) : Prop :=
  ∃ n, (·.bind parent)^[n] (some a) = none

/-- Links to parents, any number of them, lead from `a` to `c`. -/
def AtOrAbove (parent : α → Option α) (c a : α) : Prop :=
  Relation.ReflTransGen (fun x y => parent x = some y) a c

namespace Forest

/-- The forest of a parent function whose chains end. -/
def ofEnding (parent : α → Option α) (hends : ∀ a, ChainEnds parent a) : Forest α where
  parent := parent
  height a := Nat.find (hends a)
  height_lt := by
    intro a b h
    have hspec := Nat.find_spec (hends a)
    cases hn : Nat.find (hends a) with
    | zero => rw [hn] at hspec; cases hspec
    | succ n =>
      rw [hn, Function.iterate_succ_apply, Option.bind_some, h] at hspec
      exact Nat.lt_succ_of_le (Nat.find_min' (hends b) hspec)

variable {F : Forest α}

/-! ## Ancestries and depths -/

/-- An ancestry begins with a node that has no parent. -/
theorem exists_head?_ancestors (a : α) :
    ∃ root, (F.ancestors a).head? = some root ∧ F.parent root = none := by
  induction a using F.induction with
  | hroot a hp => exact ⟨a, by rw [ancestors_root hp]; rfl, hp⟩
  | hparent a b hp ih =>
    obtain ⟨root, hhead, hroot⟩ := ih
    exact ⟨root, by rw [ancestors_of_parent hp, List.head?_append, hhead]; rfl, hroot⟩

theorem length_ancestors (a : α) : (F.ancestors a).length = F.depth a + 1 := by
  induction a using F.induction with
  | hroot a hp => rw [ancestors_root hp, depth_root hp]; rfl
  | hparent a b hp ih => rw [ancestors_of_parent hp, depth_of_parent hp, List.length_append, ih]; rfl

theorem mem_ancestors_iff {a c : α} : c ∈ F.ancestors a ↔ AtOrAbove F.parent c a := by
  constructor
  · exact mem_ancestors_induction (p := fun c => AtOrAbove F.parent c a) .refl
      (fun _ _ hp h => h.tail hp) c
  · intro h
    induction h with
    | refl => exact mem_ancestors_self a
    | tail _ hp ih =>
      exact mem_ancestors_trans ((mem_ancestors_of_parent hp).2 (.inr (mem_ancestors_self _))) ih

theorem eq_of_mem_ancestors {a b : α} (hab : a ∈ F.ancestors b) (hba : b ∈ F.ancestors a) :
    a = b := by
  have heq : F.ancestors a = F.ancestors b :=
    (prefix_of_mem_ancestors hab).eq_of_length_le (prefix_of_mem_ancestors hba).length_le
  have hlast := getLast?_ancestors (F := F) a
  rw [heq, getLast?_ancestors] at hlast
  exact (Option.some.inj hlast).symm

/-! ## Meets -/

section Meet

variable [DecidableEq α]

theorem lt_length_of_commonIndex {xs ys : List α} {i : Nat} (h : commonIndex xs ys = some i) :
    i < xs.length := by
  have hlength := commonIndex_eq_some.1 h
  have hle := (List.takeWhile_prefix (l := xs.zip ys) fun p => decide (p.1 = p.2)).length_le
  rw [List.length_zip] at hle
  omega

/-- Two nodes that have a node above both begin their ancestries with the same root. -/
theorem exists_meet {a b c : α} (ha : c ∈ F.ancestors a) (hb : c ∈ F.ancestors b) :
    ∃ m, F.meet a b = some m := by
  obtain ⟨root, hroot, -⟩ := exists_head?_ancestors (F := F) c
  have hhead : ∀ {x : α}, c ∈ F.ancestors x → (F.ancestors x).head? = some root := fun hx => by
    obtain ⟨below, hbelow⟩ := prefix_of_mem_ancestors hx
    rw [← hbelow, List.head?_append, hroot]
    rfl
  obtain ⟨i, hi⟩ := exists_commonIndex (hhead ha) (hhead hb)
  have hlt := lt_length_of_commonIndex hi
  refine ⟨(F.ancestors a)[i], ?_⟩
  rw [meet, hi, Option.bind_some, List.getElem?_eq_getElem hlt]

theorem meet_eq_none_iff {a b : α} :
    F.meet a b = none ↔ ¬∃ c, c ∈ F.ancestors a ∧ c ∈ F.ancestors b := by
  constructor
  · rintro h ⟨c, ha, hb⟩
    obtain ⟨m, hm⟩ := exists_meet ha hb
    rw [h] at hm
    cases hm
  · intro h
    cases hm : F.meet a b with
    | none => rfl
    | some m => exact absurd ⟨m, (mem_ancestors_meet hm).1 (mem_ancestors_self m)⟩ h

/-- The meet is the only node that has above it just what is above both. -/
theorem meet_eq_some_iff {a b m : α} : F.meet a b = some m ↔
    ∀ c, c ∈ F.ancestors a ∧ c ∈ F.ancestors b ↔ c ∈ F.ancestors m := by
  constructor
  · exact fun h c => (mem_ancestors_meet h).symm
  · intro h
    obtain ⟨ha, hb⟩ := (h m).2 (mem_ancestors_self m)
    obtain ⟨n, hn⟩ := exists_meet ha hb
    have hnm : n ∈ F.ancestors m := (h n).1 ((mem_ancestors_meet hn).1 (mem_ancestors_self n))
    have hmn : m ∈ F.ancestors n := (mem_ancestors_meet hn).2 ⟨ha, hb⟩
    rw [hn, eq_of_mem_ancestors hnm hmn]

theorem meet_comm (a b : α) : F.meet a b = F.meet b a := by
  refine Option.ext fun m => ?_
  simp only [meet_eq_some_iff, and_comm]

end Meet

/-! ## The order -/

/-- The walks towards the roots compute the order that links to parents make, and its meets. -/
structure TellsOrder [DecidableEq α] (F : Forest α) : Prop where
  head : ∀ a, ∃ root, (F.ancestors a).head? = some root ∧ F.parent root = none
  last : ∀ a, (F.ancestors a).getLast? = some a
  links : ∀ a, (F.ancestors a).IsChain fun b c => F.parent c = some b
  length : ∀ a, (F.ancestors a).length = F.depth a + 1
  nodup : ∀ a, (F.ancestors a).Nodup
  mem : ∀ a c, c ∈ F.ancestors a ↔ AtOrAbove F.parent c a
  below : ∀ a b, F.isBelow a b ↔ b ∈ F.ancestors a ∧ b ≠ a
  apart : ∀ a b, F.meet a b = none ↔
    ¬∃ c, AtOrAbove F.parent c a ∧ AtOrAbove F.parent c b
  meets : ∀ a b m, F.meet a b = some m ↔
    ∀ c, AtOrAbove F.parent c a ∧ AtOrAbove F.parent c b ↔ AtOrAbove F.parent c m
  comm : ∀ a b, F.meet a b = F.meet b a
  index : ∀ a b m, F.meet a b = some m →
    ∃ i, commonIndex (F.ancestors a) (F.ancestors b) = some i ∧ (F.ancestors a)[i]? = some m

/-- Any parent function whose chains end makes a forest, and in whatever way its heights are
chosen, the walks tell of its order. -/
theorem walks_tellOrder [DecidableEq α] {parent : α → Option α}
    (hends : ∀ a, ChainEnds parent a) :
    (∃ F : Forest α, F.parent = parent) ∧ ∀ F : Forest α, F.parent = parent → F.TellsOrder := by
  refine ⟨⟨ofEnding parent hends, rfl⟩, fun F _ => ?_⟩
  have hmem : ∀ a c, c ∈ F.ancestors a ↔ AtOrAbove F.parent c a := fun _ _ => mem_ancestors_iff
  exact {
    head := exists_head?_ancestors
    last := getLast?_ancestors
    links := isChain_ancestors
    length := length_ancestors
    nodup := nodup_ancestors
    mem := hmem
    below := fun _ _ => isBelow_iff
    apart := fun a b => by simp only [← hmem, meet_eq_none_iff]
    meets := fun a b m => by simp only [← hmem, meet_eq_some_iff]
    comm := meet_comm
    index := fun a b m h => Option.bind_eq_some_iff.1 h }

/-- Numbers in the order of a binary heap: each from two on hangs on its half. -/
def heap : Forest Nat where
  parent n := if n < 2 then none else some (n / 2)
  height n := n
  height_lt := by
    intro a b h
    split at h
    · cases h
    · cases h; omega

theorem heap_tellsOrder : (∀ n, ChainEnds heap.parent n) ∧ heap.TellsOrder
    ∧ heap.ancestors 13 = [1, 3, 6, 13] ∧ heap.meet 13 14 = some 3 ∧ heap.meet 0 7 = none := by
  have hends : ∀ n, ChainEnds heap.parent n := fun n => by
    induction n using heap.induction with
    | hroot n hp => exact ⟨1, hp⟩
    | hparent n m hp ih =>
      obtain ⟨k, hk⟩ := ih
      refine ⟨k + 1, ?_⟩
      rw [Function.iterate_succ_apply, Option.bind_some, hp, hk]
  exact ⟨hends, (walks_tellOrder hends).2 heap rfl, by decide, by decide, by decide⟩

end Forest

end Hsm
