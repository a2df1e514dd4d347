/-!
# Readers off the front of a list

Such a reader takes a value off the front of a list and leaves the rest, or gives nothing. Two laws
tie it to a writer: it takes what was written off the front of anything (`Reads`), and what it takes
is what would be written (`Exact`). Readers in sequence take one text after the other (`Reads.bind`,
`run_bind_eq_some`).
-/

namespace Hsm

variable {κ α β : Type}

/-- Off the front of `text`, whatever comes after, the reader takes exactly this text and makes `a`
of it. -/
def Reads (read : StateT (List κ) Option α) (text : List κ) (a : α) : Prop :=
  ∀ rest, read.run (text ++ rest) = some (a, rest)

/-- Whatever the reader takes off the front is what `write` makes of the value. -/
def Exact (read : StateT (List κ) Option α) (write : α → List κ) : Prop :=
  ∀ {s a rest}, read.run s = some (a, rest) → s = write a ++ rest

theorem Reads.pure (a : α) : Reads (Pure.pure a : StateT (List κ) Option α) [] a :=
  fun _ => rfl

theorem Reads.bind {x : StateT (List κ) Option α} {f : α → StateT (List κ) Option β}
    {as bs : List κ} {a : α} {b : β} (hx : Reads x as a) (hf : Reads (f a) bs b) :
    Reads (x >>= f) (as ++ bs) b := fun rest => by
  rw [List.append_assoc, StateT.run_bind, hx]
  exact hf rest

theorem Reads.map {x : StateT (List κ) Option α} {as : List κ} {a : α} (hx : Reads x as a)
    (f : α → β) : Reads (x >>= fun a => Pure.pure (f a)) as (f a) := fun rest => by
  rw [StateT.run_bind, hx]
  rfl

theorem run_bind_eq_some {x : StateT (List κ) Option α} {f : α → StateT (List κ) Option β}
    {s rest : List κ} {b : β} :
    (x >>= f).run s = some (b, rest) ↔
      ∃ a s', x.run s = some (a, s') ∧ (f a).run s' = some (b, rest) := by
  rw [StateT.run_bind]
  constructor
  · intro h
    obtain ⟨⟨a, s'⟩, ha, hf⟩ := Option.bind_eq_some_iff.1 h
    exact ⟨a, s', ha, hf⟩
  · rintro ⟨a, s', ha, hf⟩
    exact Option.bind_eq_some_iff.2 ⟨(a, s'), ha, hf⟩

theorem run_pure_eq_some {a b : α} {s rest : List κ} :
    (Pure.pure a : StateT (List κ) Option α).run s = some (b, rest) ↔ a = b ∧ s = rest := by
  simp

end Hsm
