import Hsm.Proofs.Json.Reading

/-!
# How deeply a text is nested

`nesting` counts the lists and objects that are open at once in a text, without reading it as JSON:
brackets and braces count, but not those in strings. For written texts the count follows their
structure (`Nests`): a string adds nothing, a list or an object adds one level to its deepest part.
-/

namespace Hsm.Json

/-- Where a scan of a text is. -/
inductive Place
  | outside
  | inString
  /-- After a backslash in a string. -/
  | escaped
  deriving DecidableEq

namespace Place

def next : Place → Char → Place
  | outside, '"' => inString
  | outside, _ => outside
  | inString, '"' => outside
  | inString, '\\' => escaped
  | inString, _ => inString
  | escaped, _ => inString

/-- The number of open lists and objects after a character. -/
def opened : Place → Nat → Char → Nat
  | outside, n, '[' | outside, n, '{' => n + 1
  | outside, n, ']' | outside, n, '}' => n - 1
  | _, n, _ => n

end Place

/-- The most lists and objects that are open at once in a text, of which `n` are open before it. -/
def deepest : Place → Nat → List Char → Nat
  | _, n, [] => n
  | place, n, c :: s => max n (deepest (place.next c) (place.opened n c) s)

/-- The most lists and objects that are open at once in a text. -/
def nesting (text : String) : Nat :=
  deepest .outside 0 text.toList

/-- The text opens `k` levels at most, all of which it closes again. -/
def Nests (text : List Char) (k : Nat) : Prop :=
  ∀ n rest, deepest .outside n (text ++ rest) = max (n + k) (deepest .outside n rest)

theorem le_deepest (place : Place) (n : Nat) (s : List Char) : n ≤ deepest place n s := by
  cases s with
  | nil => exact Nat.le_refl n
  | cons c s => exact Nat.le_max_left _ _

theorem nests_nil : Nests [] 0 := fun n rest =>
  (Nat.max_eq_right (le_deepest _ n rest)).symm

theorem Nests.append {as bs : List Char} {j k : Nat} (ha : Nests as j) (hb : Nests bs k) :
    Nests (as ++ bs) (max j k) := fun n rest => by
  rw [List.append_assoc, ha n, hb n, ← Nat.max_assoc, Nat.add_max_add_left]

/-- A character that is no quote and no bracket. -/
def isPlain (c : Char) : Bool :=
  !(['"', '[', ']', '{', '}'].contains c)

theorem nests_plain {c : Char} (h : isPlain c = true) : Nests [c] 0 := fun n rest => by
  have hnext : Place.outside.next c = .outside := by
    unfold Place.next
    split <;> first | rfl | simp_all [isPlain]
  have hopened : Place.outside.opened n c = n := by
    unfold Place.opened
    split <;> first | rfl | simp_all [isPlain]
  rw [List.singleton_append, deepest, hnext, hopened, Nat.add_zero]

theorem nests_all_plain {text : List Char} (h : text.all isPlain = true) : Nests text 0 := by
  induction text with
  | nil => exact nests_nil
  | cons c s ih =>
    rw [List.all_cons, Bool.and_eq_true] at h
    exact (nests_plain h.1).append (ih h.2)

/-- A list or an object is one level above its deepest part. -/
theorem Nests.bracket {text : List Char} {k : Nat} {o c : Char} (h : Nests text k)
    (hoc : (o = '[' ∧ c = ']') ∨ (o = '{' ∧ c = '}')) :
    Nests (o :: (text ++ [c])) (k + 1) := fun n rest => by
  have hopen : ∀ s, deepest .outside n (o :: s) = max n (deepest .outside (n + 1) s) := by
    obtain ⟨rfl, -⟩ | ⟨rfl, -⟩ := hoc <;> exact fun _ => rfl
  have hclose : ∀ s, deepest .outside (n + 1) (c :: s) = max (n + 1) (deepest .outside n s) := by
    obtain ⟨-, rfl⟩ | ⟨-, rfl⟩ := hoc <;> exact fun _ => rfl
  rw [List.cons_append, List.append_assoc, hopen, h, List.singleton_append, hclose]
  omega

/-! ## Written texts -/

theorem deepest_backslash (n : Nat) (s : List Char) :
    deepest .inString n ('\\' :: s) = deepest .escaped n s :=
  Nat.max_eq_right (le_deepest .escaped n s)

theorem deepest_after_backslash (c : Char) (n : Nat) (s : List Char) :
    deepest .escaped n (c :: s) = deepest .inString n s :=
  Nat.max_eq_right (le_deepest .inString n s)

theorem deepest_inString {c : Char} (h : Place.inString.next c = .inString) (n : Nat)
    (s : List Char) : deepest .inString n (c :: s) = deepest .inString n s := by
  rw [deepest, h]
  exact Nat.max_eq_right (le_deepest .inString n s)

/-- Within a string the written form of a character stays within it. -/
theorem deepest_escapeChar (c : Char) (n : Nat) (s : List Char) :
    deepest .inString n (escapeChar c ++ s) = deepest .inString n s := by
  have hdigit : ∀ k < 16, Place.inString.next (hexDigit k) = .inString := by decide
  unfold escapeChar
  split
  case h_1 | h_2 | h_3 | h_4 | h_5 | h_6 | h_7 =>
    exact (deepest_backslash n _).trans (deepest_after_backslash _ n s)
  case h_8 hquote hbackslash _ _ _ _ _ =>
    split
    case isTrue hcontrol =>
      simp only [List.cons_append, List.nil_append, deepest_backslash, deepest_after_backslash,
        deepest_inString (c := '0') rfl, deepest_inString (hdigit _ (by omega : c.toNat / 16 < 16)),
        deepest_inString (hdigit _ (by omega : c.toNat % 16 < 16))]
    case isFalse hcontrol =>
      refine deepest_inString ?_ n s
      unfold Place.next
      split <;> simp_all

theorem deepest_escaped (cs : List Char) (n : Nat) (s : List Char) :
    deepest .inString n (cs.flatMap escapeChar ++ s) = deepest .inString n s := by
  induction cs with
  | nil => rfl
  | cons c cs ih => rw [List.flatMap_cons, List.append_assoc, deepest_escapeChar, ih]

theorem nests_string (t : String) : Nests (string t).toList 0 := fun n rest => by
  have hle := le_deepest .outside n rest
  rw [Reader.toList_string, List.cons_append, List.append_assoc, deepest]
  change max n (deepest .inString n _) = _
  rw [deepest_escaped, List.singleton_append, deepest]
  change max n (max n (deepest .outside n rest)) = _
  omega

theorem nests_boolean (b : Bool) : Nests (boolean b).toList 0 :=
  nests_all_plain (by cases b <;> rfl)

section Structures

variable {α : Type}

/-- The greatest of some levels, zero for none. -/
def highest (ks : List Nat) : Nat :=
  ks.foldr max 0

theorem highest_le {ks : List Nat} {n : Nat} : highest ks ≤ n ↔ ∀ k ∈ ks, k ≤ n := by
  induction ks with
  | nil => simp [highest]
  | cons k ks ih => rw [highest, List.foldr_cons, Nat.max_le, List.forall_mem_cons, ← ih, highest]

theorem nests_none (write : α → List Char) (first : Bool) :
    Nests (Reader.listed write first []) 0 :=
  nests_nil

theorem nests_cons {write : α → List Char} {a : α} {as : List α} {j k : Nat}
    (ha : Nests (write a) j) (has : Nests (Reader.listed write false as) k) (first : Bool) :
    Nests (Reader.listed write first (a :: as)) (max j k) := by
  have hlead : Nests (Reader.lead first) 0 := nests_all_plain (by cases first <;> rfl)
  have hall := hlead.append (ha.append has)
  rwa [Nat.zero_max] at hall

theorem nests_listed {write : α → List Char} {level : α → Nat} :
    ∀ (first : Bool) {as : List α}, (∀ a ∈ as, Nests (write a) (level a)) →
      Nests (Reader.listed write first as) (highest (as.map level))
  | first, [], _ => nests_none write first
  | first, a :: _, h => nests_cons (h a List.mem_cons_self)
      (nests_listed false fun b hb => h b (List.mem_cons_of_mem a hb)) first

theorem nests_list {write : α → String} {level : α → Nat} {as : List α}
    (h : ∀ a ∈ as, Nests (write a).toList (level a)) :
    Nests (list (as.map write)).toList (highest (as.map level) + 1) := by
  rw [Reader.toList_list]
  exact (nests_listed true h).bracket (.inl ⟨rfl, rfl⟩)

theorem nests_member {name value : String} {k : Nat} (h : Nests value.toList k) :
    Nests (Reader.memberText (name, value)) k := by
  have hall := (nests_string name).append ((nests_plain (c := ':') rfl).append h)
  rwa [Nat.zero_max, Nat.zero_max] at hall

theorem nests_object {ms : List (String × String)} {k : Nat}
    (h : Nests (Reader.listed Reader.memberText true ms) k) :
    Nests (object ms).toList (k + 1) := by
  rw [Reader.toList_object]
  exact h.bracket (.inr ⟨rfl, rfl⟩)

end Structures

theorem Nests.nesting {text : String} {k : Nat} (h : Nests text.toList k) : nesting text = k := by
  have hall := h 0 []
  rw [List.append_nil, Nat.zero_add] at hall
  exact hall.trans (Nat.max_eq_left (Nat.zero_le k))

end Hsm.Json
