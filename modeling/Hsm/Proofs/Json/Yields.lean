import Hsm.Json.Shape

/-!
# What readers make of texts

A property of whatever a reader makes of a text, written by this library or not (`Yields`). Lists
and objects inherit it from their parts: a record of which each member keeps the property has it.
-/

namespace Hsm.Json.Reader

variable {α β : Type}

/-- Whatever the reader makes of a text has the property. -/
def Yields (read : Reader α) (p : α → Prop) : Prop :=
  ∀ s a rest, read s = .ok (a, rest) → p a

theorem yields_any (read : Reader α) : read.Yields fun _ => True :=
  fun _ _ _ _ => trivial

theorem yields_fail (e : Flaw) (p : α → Prop) : (fail e).Yields p :=
  fun _ _ _ h => nomatch h

theorem yields_pure {p : α → Prop} {a : α} (h : p a) : (pure a : Reader α).Yields p :=
  fun _ _ _ ha => by
    cases ha
    exact h

section Bind

variable {read : Reader α} {f : α → Reader β} {p : α → Prop} {q : β → Prop}

theorem Yields.bind (h : read.Yields p) (hf : ∀ a, p a → (f a).Yields q) :
    (read >>= f).Yields q := fun s b rest hb => by
  simp only [Bind.bind] at hb
  split at hb
  case h_1 a s' ha => exact hf a (h s a s' ha) s' b rest hb
  case h_2 => cases hb

/-- What is read before does not matter. -/
theorem yields_bind (hf : ∀ a, (f a).Yields q) : (read >>= f).Yields q :=
  (yields_any read).bind fun a _ => hf a

theorem Yields.map {f : α → β} (h : read.Yields p) (hf : ∀ a, p a → q (f a)) :
    (read >>= fun a => pure (f a)).Yields q :=
  h.bind fun a ha => yields_pure (hf a ha)

end Bind

/-- A value of another shape is never read. -/
theorem yields_refuse (p : α → Prop) : refuse.Yields p := by
  unfold refuse
  refine yields_bind fun o => ?_
  split
  case h_1 => exact yields_bind fun _ => yields_fail _ p
  case h_2 | h_3 | h_4 | h_5 => exact yields_bind fun _ => yields_bind fun _ => yields_fail _ p
  case h_6 | h_7 => exact yields_fail _ p
  case h_8 =>
    dsimp only
    split
    · exact yields_bind fun _ => yields_fail _ p
    · exact yields_bind fun _ => yields_fail _ p

theorem Yields.optional {read : Reader α} {p : α → Prop} (h : read.Yields p) :
    (optional read).Yields fun o => ∀ a, o = some a → p a := by
  unfold Reader.optional
  refine yields_bind fun o => ?_
  split
  · exact yields_bind fun _ => yields_bind fun _ => yields_pure (by simp)
  · exact h.map (by simp)

theorem Yields.elements {item : Reader α} {p : α → Prop} (h : item.Yields p) :
    ∀ (n : Nat) (first : Bool), (elements item first n).Yields fun as => ∀ a ∈ as, p a
  | 0, _ => yields_fail _ _
  | n + 1, first => by
    refine yields_bind fun more => ?_
    split
    · refine h.bind fun a ha => (h.elements n false).map fun as has => ?_
      exact List.forall_mem_cons.2 ⟨ha, has⟩
    · exact yields_pure (by simp)

theorem Yields.list {item : Reader α} {p : α → Prop} (h : item.Yields p) :
    (list (some item)).Yields fun as => ∀ a ∈ as, p a := by
  unfold Reader.list
  refine yields_bind fun o => ?_
  split
  case h_1 => exact yields_fail _ _
  case h_2 heq =>
    cases heq
    refine yields_bind fun _ => Yields.bind (p := fun as => ∀ a ∈ as, p a) ?_ fun as has =>
      yields_bind fun _ => yields_pure has
    exact fun s as rest => h.elements (s.length + 1) true s as rest
  case h_3 => exact yields_refuse _

theorem Yields.field {read : Reader α} {p : α → Prop} (h : read.Yields p) {absent : Option α}
    (habsent : ∀ a, absent = some a → p a) (first : Bool) :
    (field first read absent).Yields p := by
  unfold Reader.field
  refine yields_bind fun more => ?_
  split
  · exact h
  · split
    case h_1 a => exact yields_pure (habsent a rfl)
    case h_2 => exact yields_fail _ _

section Members

variable {member : α → String → Member α} {p : α → Prop}
  (hmember : ∀ partly name value, p partly → member partly name = .known value → value.Yields p)
include hmember

theorem yields_members : ∀ (n : Nat) (first : Bool) {partly : α}, p partly →
    (members member first n partly).Yields p
  | 0, _, _, _ => yields_fail _ _
  | n + 1, first, partly, hp => by
    refine yields_bind fun more => ?_
    split
    · refine yields_bind fun _ => yields_bind fun name => ?_
      split
      case h_1 => exact yields_fail _ _
      case h_2 =>
        exact yields_bind fun _ => yields_bind fun _ => yields_members n false hp
      case h_3 value hvalue =>
        refine yields_bind fun _ => (hmember _ _ _ hp hvalue).bind fun _ hmore => ?_
        exact yields_members n false hmore
    · exact yields_pure hp

theorem yields_object {empty : α} {finish : α → Option β} {q : β → Prop} (hempty : p empty)
    (hfinish : ∀ partly b, p partly → finish partly = some b → q b) :
    (object member empty finish).Yields q := by
  refine Yields.bind (p := p)
    (fun s a rest => yields_members hmember (s.length + 1) true hempty s a rest) fun partly hp => ?_
  split
  case h_1 b hb => exact yields_bind fun _ => yields_pure (hfinish _ _ hp hb)
  case h_2 => exact yields_fail _ _

end Members

theorem yields_once {γ : Type} {field : Option γ} {read : Reader γ} {set : γ → α}
    {value : Reader α} {p : α → Prop} {q : γ → Prop}
    (hknown : Member.once field read set = .known value) (h : read.Yields q)
    (hset : ∀ c, q c → p (set c)) : value.Yields p := by
  unfold Member.once at hknown
  split at hknown
  · cases hknown
  · cases hknown
    exact h.map hset

theorem yields_record {form : Record α} {p : α → Prop} (hlist : form.asList.Yields p)
    (hobject : form.asObject.Yields p) : (record (some form)).Yields p := by
  unfold record
  refine yields_bind fun o => ?_
  split
  case h_1 | h_2 => exact yields_fail _ _
  case h_3 heq =>
    cases heq
    exact yields_bind fun _ => hlist.bind fun _ ha => yields_bind fun _ => yields_pure ha
  case h_4 heq =>
    cases heq
    exact yields_bind fun _ => hobject
  case h_5 => exact yields_refuse _

theorem yields_record_none (p : α → Prop) : (record (none : Option (Record α))).Yields p := by
  unfold record
  refine yields_bind fun o => ?_
  split
  case h_1 | h_2 => exact yields_fail _ _
  case h_3 heq | h_4 heq => cases heq
  case h_5 => exact yields_refuse _

theorem run_yields {read : Reader α} {p : α → Prop} (h : read.Yields p) {text : String} {a : α}
    (hrun : read.run text = .ok a) : p a := by
  unfold run at hrun
  split at hrun
  case h_1 heq =>
    cases hrun
    refine Yields.bind h (fun a ha => yields_bind fun o => ?_) _ _ _ heq
    split
    · exact yields_pure ha
    · exact yields_fail _ _
  case h_2 => cases hrun

end Hsm.Json.Reader
