/-!
# Forests given by a parent function

A forest is a parent function together with a height that falls along parent links. Every walk
towards a root is therefore finite: `ancestors`, `depth` and `isBelow` walk at most `height a`
steps from `a`, and their equations (`ancestors_of_parent`, …) do not mention that bound.
-/

namespace Hsm

universe u

/-- A node has at most one parent, and the height of the parent is smaller. -/
structure Forest (α : Type u) where
  parent : α → Option α
  height : α → Nat
  height_lt : ∀ {a b : α}, parent a = some b → height b < height a

namespace Forest

variable {α : Type u}

/-! ## Walking up a bounded number of steps -/

section Walk

variable (parent : α → Option α)

/-- The ancestry of `a` over at most `n` steps up, in front of `below`. -/
def ancestorsOnto : Nat → α → List α → List α
  | 0, a, below => a :: below
  | n + 1, a, below =>
    match parent a with
    | none => a :: below
    | some b => ancestorsOnto n b (a :: below)

/-- The number of links above `a`, counted up to `n`. -/
def linksAbove : Nat → α → Nat
  | 0, _ => 0
  | n + 1, a =>
    match parent a with
    | none => 0
    | some b => linksAbove n b + 1

/-- Whether `top` is met within `n` steps up from `a`. -/
def isBelowWithin [DecidableEq α] (top : α) : Nat → α → Bool
  | 0, _ => false
  | n + 1, a =>
    match parent a with
    | none => false
    | some b => b = top || isBelowWithin top n b

/-- A count that did not reach its bound does not change with a greater one. -/
theorem linksAbove_succ {n : Nat} {a : α} (h : linksAbove parent n a < n) :
    linksAbove parent (n + 1) a = linksAbove parent n a := by
  induction n generalizing a with
  | zero => exact absurd h (Nat.lt_irrefl _)
  | succ n ih =>
    cases hp : parent a with
    | none => simp [linksAbove, hp]
    | some b =>
      have hb : linksAbove parent (n + 1) a = linksAbove parent n b + 1 := by simp [linksAbove, hp]
      rw [hb, ← ih (by omega)]
      simp [linksAbove, hp]

end Walk

variable (F : Forest α)

/-- The ancestry of `a`, ordered from its root to `a` itself. -/
def ancestors (a : α) : List α :=
  ancestorsOnto F.parent (F.height a) a []

/-- The number of parent links between `a` and its root. -/
def depth (a : α) : Nat :=
  linksAbove F.parent (F.height a) a

/-- Whether `a` lies strictly beneath `top`. -/
def isBelow [DecidableEq α] (a top : α) : Bool :=
  isBelowWithin F.parent top (F.height a) a

/-- The index at which two ancestries still agree for the last time; none if they differ from
the start. -/
def commonIndex [DecidableEq α] (xs ys : List α) : Option Nat :=
  match ((xs.zip ys).takeWhile fun p => p.1 = p.2).length with
  | 0 => none
  | n + 1 => some n

/-- The lowest node that is at or above both `a` and `b`. -/
def meet [DecidableEq α] (a b : α) : Option α :=
  (commonIndex (F.ancestors a) (F.ancestors b)).bind ((F.ancestors a)[·]?)

/-! ## Walking up does not depend on the bound -/

variable {F}

theorem ancestorsOnto_eq_append :
    ∀ (n : Nat) (a : α) (below : List α),
      ancestorsOnto F.parent n a below = ancestorsOnto F.parent n a [] ++ below
  | 0, _, _ => rfl
  | n + 1, a, below => by
    cases hp : F.parent a with
    | none => simp [ancestorsOnto, hp]
    | some b =>
      simp only [ancestorsOnto, hp]
      rw [ancestorsOnto_eq_append n b (a :: below), ancestorsOnto_eq_append n b [a]]
      simp

theorem ancestorsOnto_congr :
    ∀ {n m : Nat} {a : α} {below : List α}, F.height a ≤ n → F.height a ≤ m →
      ancestorsOnto F.parent n a below = ancestorsOnto F.parent m a below
  | n, m, a, below, hn, hm => by
    cases hp : F.parent a with
    | none => cases n <;> cases m <;> simp [ancestorsOnto, hp]
    | some b =>
      have hb := F.height_lt hp
      obtain ⟨n, rfl⟩ : ∃ k, n = k + 1 := ⟨n - 1, by omega⟩
      obtain ⟨m, rfl⟩ : ∃ k, m = k + 1 := ⟨m - 1, by omega⟩
      simp only [ancestorsOnto, hp]
      exact ancestorsOnto_congr (n := n) (m := m) (by omega) (by omega)

theorem ancestors_root {a : α} (h : F.parent a = none) : F.ancestors a = [a] := by
  unfold ancestors
  cases F.height a <;> simp [ancestorsOnto, h]

theorem ancestors_of_parent {a b : α} (h : F.parent a = some b) :
    F.ancestors a = F.ancestors b ++ [a] := by
  have hb := F.height_lt h
  obtain ⟨n, hn⟩ : ∃ k, F.height a = k + 1 := ⟨F.height a - 1, by omega⟩
  simp only [ancestors, hn, ancestorsOnto, h]
  rw [ancestorsOnto_congr (n := n) (m := F.height b) (by omega) (by omega),
    ancestorsOnto_eq_append]

theorem linksAbove_congr :
    ∀ {n m : Nat} {a : α}, F.height a ≤ n → F.height a ≤ m →
      linksAbove F.parent n a = linksAbove F.parent m a
  | n, m, a, hn, hm => by
    cases hp : F.parent a with
    | none => cases n <;> cases m <;> simp [linksAbove, hp]
    | some b =>
      have hb := F.height_lt hp
      obtain ⟨n, rfl⟩ : ∃ k, n = k + 1 := ⟨n - 1, by omega⟩
      obtain ⟨m, rfl⟩ : ∃ k, m = k + 1 := ⟨m - 1, by omega⟩
      simp only [linksAbove, hp]
      rw [linksAbove_congr (n := n) (m := m) (by omega) (by omega)]

theorem depth_root {a : α} (h : F.parent a = none) : F.depth a = 0 := by
  unfold depth
  cases F.height a <;> simp [linksAbove, h]

theorem depth_of_parent {a b : α} (h : F.parent a = some b) : F.depth a = F.depth b + 1 := by
  have hb := F.height_lt h
  obtain ⟨n, hn⟩ : ∃ k, F.height a = k + 1 := ⟨F.height a - 1, by omega⟩
  simp only [depth, hn, linksAbove, h]
  rw [linksAbove_congr (n := n) (m := F.height b) (by omega) (by omega)]

section Below

variable [DecidableEq α]

theorem isBelowWithin_congr {top : α} :
    ∀ {n m : Nat} {a : α}, F.height a ≤ n → F.height a ≤ m →
      isBelowWithin F.parent top n a = isBelowWithin F.parent top m a
  | n, m, a, hn, hm => by
    cases hp : F.parent a with
    | none => cases n <;> cases m <;> simp [isBelowWithin, hp]
    | some b =>
      have hb := F.height_lt hp
      obtain ⟨n, rfl⟩ : ∃ k, n = k + 1 := ⟨n - 1, by omega⟩
      obtain ⟨m, rfl⟩ : ∃ k, m = k + 1 := ⟨m - 1, by omega⟩
      simp only [isBelowWithin, hp]
      rw [isBelowWithin_congr (n := n) (m := m) (by omega) (by omega)]

theorem isBelow_root {a top : α} (h : F.parent a = none) : F.isBelow a top = false := by
  unfold isBelow
  cases F.height a <;> simp [isBelowWithin, h]

theorem isBelow_of_parent {a b top : α} (h : F.parent a = some b) :
    F.isBelow a top = (b = top || F.isBelow b top) := by
  have hb := F.height_lt h
  obtain ⟨n, hn⟩ : ∃ k, F.height a = k + 1 := ⟨F.height a - 1, by omega⟩
  simp only [isBelow, hn, isBelowWithin, h]
  rw [isBelowWithin_congr (n := n) (m := F.height b) (by omega) (by omega)]

end Below

end Forest

end Hsm
