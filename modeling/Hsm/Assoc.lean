/-!
# Finite maps

An association list in the order in which its keys were first bound. `get?_alter` says all there
is to say about an update.
-/

namespace Hsm

/-- A finite map from `κ` to `ν`. -/
structure Assoc (κ ν : Type) where
  entries : List (κ × ν) := []
  deriving DecidableEq

namespace Assoc

variable {κ ν : Type} [DecidableEq κ]

/-- Changes the value of `k`, or binds it after all others. -/
def alterEntries (k : κ) (f : Option ν → ν) : List (κ × ν) → List (κ × ν)
  | [] => [(k, f none)]
  | (k', x) :: rest => if k' = k then (k', f (some x)) :: rest else (k', x) :: alterEntries k f rest

def get? (m : Assoc κ ν) (k : κ) : Option ν :=
  m.entries.lookup k

/-- Replaces the value of `k` by what `f` makes of it. -/
def alter (m : Assoc κ ν) (k : κ) (f : Option ν → ν) : Assoc κ ν :=
  ⟨alterEntries k f m.entries⟩

def insert (m : Assoc κ ν) (k : κ) (x : ν) : Assoc κ ν :=
  m.alter k fun _ => x

@[simp]
theorem get?_empty (k : κ) : (⟨[]⟩ : Assoc κ ν).get? k = none := rfl

theorem lookup_alterEntries (k k' : κ) (f : Option ν → ν) (l : List (κ × ν)) :
    (alterEntries k f l).lookup k' = if k' = k then some (f (l.lookup k)) else l.lookup k' := by
  induction l with
  | nil =>
    by_cases h : k' = k
    · simp [alterEntries, h]
    · simp [alterEntries, List.lookup_cons, beq_eq_false_iff_ne.2 h, h]
  | cons p l ih =>
    obtain ⟨k₀, x⟩ := p
    by_cases h₀ : k₀ = k
    · subst h₀
      by_cases h : k' = k₀
      · simp [alterEntries, h]
      · simp [alterEntries, List.lookup_cons, beq_eq_false_iff_ne.2 h, h]
    · by_cases h : k' = k₀
      · subst h
        simp [alterEntries, h₀]
      · simp only [alterEntries, if_neg h₀, List.lookup_cons, beq_eq_false_iff_ne.2 h,
          beq_eq_false_iff_ne.2 (Ne.symm h₀), ih]

@[simp]
theorem get?_alter (m : Assoc κ ν) (k k' : κ) (f : Option ν → ν) :
    (m.alter k f).get? k' = if k' = k then some (f (m.get? k)) else m.get? k' :=
  lookup_alterEntries k k' f m.entries

@[simp]
theorem get?_insert (m : Assoc κ ν) (k k' : κ) (x : ν) :
    (m.insert k x).get? k' = if k' = k then some x else m.get? k' :=
  m.get?_alter k k' _

theorem alterEntries_alterEntries (k : κ) (f g : Option ν → ν) (l : List (κ × ν)) :
    alterEntries k g (alterEntries k f l) = alterEntries k (fun x => g (some (f x))) l := by
  induction l with
  | nil => simp [alterEntries]
  | cons p l ih =>
    obtain ⟨k₀, x⟩ := p
    by_cases h : k₀ = k <;> simp [alterEntries, h, ih]

@[simp]
theorem insert_insert (m : Assoc κ ν) (k : κ) (x y : ν) :
    (m.insert k x).insert k y = m.insert k y :=
  congrArg Assoc.mk (alterEntries_alterEntries k _ _ m.entries)

end Assoc

end Hsm
