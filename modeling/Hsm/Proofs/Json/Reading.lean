import Hsm.Json.Printer
import Hsm.Json.Shape

/-!
# What is written as JSON reads back

A reader takes exactly what is written for a value off the front of anything (`Reads`), or it
refuses all that begins with it (`Refuses`). Strings, lists and objects inherit both from their
parts. A number ends only where something other than a digit follows, so for what a member holds it
is enough that a comma or a brace comes after it (`ReadsMember`). An object is read if its members,
one after the other, complete the record (`Completes`).
-/

namespace Hsm.Json.Reader

variable {α β : Type}

/-- Off the front of `text`, whatever comes after, the reader takes exactly this text and makes `a`
of it. -/
def Reads (read : Reader α) (text : List Char) (a : α) : Prop :=
  ∀ rest, read (text ++ rest) = .ok (a, rest)

/-- Nothing that starts with `text` is read. -/
def Refuses (read : Reader α) (text : List Char) : Prop :=
  ∀ rest, read (text ++ rest) = .error .malformed

theorem bind_ok {x : Reader α} {f : α → Reader β} {s s' : List Char} {a : α}
    (h : x s = .ok (a, s')) : (x >>= f) s = f a s' := by
  simp only [bind, h]

theorem bind_error {x : Reader α} {f : α → Reader β} {s : List Char} {e : Flaw}
    (h : x s = .error e) : (x >>= f) s = .error e := by
  simp only [bind, h]

theorem peekPast?_cons {c : Char} {s : List Char} (h : isSpace c = false) :
    peekPast? (c :: s) = .ok (some c, c :: s) := by
  have hdrop : (c :: s).dropWhile isSpace = c :: s :=
    List.dropWhile_cons_of_neg (by rw [h]; decide)
  simp only [peekPast?, hdrop, List.head?_cons]

theorem bind_peekPast? {f : Option Char → Reader β} {x : Reader β} {c : Char} {s : List Char}
    (h : isSpace c = false) (hf : f (some c) = x) : (peekPast? >>= f) (c :: s) = x (c :: s) :=
  (bind_ok (peekPast?_cons h)).trans (congrFun hf _)

theorem Reads.map {x : Reader α} {as : List Char} {a : α} (hx : x.Reads as a) (f : α → β) :
    (x >>= fun a => pure (f a)).Reads as (f a) := fun _ =>
  bind_ok (hx _)

theorem Refuses.bind {x : Reader α} {text : List Char} (h : x.Refuses text) (f : α → Reader β) :
    (x >>= f).Refuses text := fun rest =>
  bind_error (h rest)

/-! ## Strings -/

theorem hexDigit?_hexDigit : ∀ n < 16, hexDigit? (hexDigit n) = some n := by
  decide

theorem codePoint_control {c : Char} (h : c.toNat < 0x20) (s : List Char) :
    codePoint ('0' :: '0' :: hexDigit (c.toNat / 16) :: hexDigit (c.toNat % 16) :: s) =
      .ok (c, s) := by
  have hquad : hexQuad ('0' :: '0' :: hexDigit (c.toNat / 16) :: hexDigit (c.toNat % 16) :: s) =
      .ok (c.toNat, s) := by
    have hzero : hexDigit? '0' = some 0 := rfl
    have hn : ((0 * 16 + 0) * 16 + c.toNat / 16) * 16 + c.toNat % 16 = c.toNat := by omega
    simp only [hexQuad, hzero, hexDigit?_hexDigit _ (by omega : c.toNat / 16 < 16),
      hexDigit?_hexDigit _ (by omega : c.toNat % 16 < 16), hn]
  rw [codePoint, bind_ok hquad, if_pos (by simp; omega), Char.ofNat_toNat]
  rfl

/-- The written form of a character is read as this character. -/
theorem chars_escapeChar (c : Char) (n : Nat) (before s : List Char) :
    chars codePoint (n + 1) before (escapeChar c ++ s) = chars codePoint n (c :: before) s := by
  unfold escapeChar
  split
  case h_1 | h_2 | h_3 | h_4 | h_5 | h_6 | h_7 => rfl
  case h_8 hquote hbackslash _ _ _ _ _ =>
    split
    case isTrue hcontrol =>
      have hescape : escape codePoint ('u' :: '0' :: '0' :: hexDigit (c.toNat / 16) ::
          hexDigit (c.toNat % 16) :: s) = .ok (c, s) := codePoint_control hcontrol s
      simp only [List.cons_append, List.nil_append, chars, hescape, Char.reduceEq, if_true,
        if_false]
    case isFalse hcontrol =>
      simp only [List.cons_append, List.nil_append, chars, if_neg hquote, if_neg hbackslash,
        if_neg hcontrol]

theorem chars_escaped : ∀ (cs : List Char) {n : Nat} (before rest : List Char), cs.length < n →
    chars codePoint n before (cs.flatMap escapeChar ++ '"' :: rest) =
      .ok (before.reverse ++ cs, rest)
  | [], n + 1, before, rest, _ => by simp [chars]
  | c :: cs, n + 1, before, rest, h => by
    rw [List.flatMap_cons, List.append_assoc, chars_escapeChar,
      chars_escaped cs (c :: before) rest (Nat.lt_of_succ_lt_succ h)]
    simp

theorem length_le_escaped (cs : List Char) : cs.length ≤ (cs.flatMap escapeChar).length := by
  induction cs with
  | nil => exact Nat.zero_le _
  | cons c cs ih =>
    have hc : 0 < (escapeChar c).length := by
      unfold escapeChar
      repeat' split
      all_goals simp
    simp only [List.flatMap_cons, List.length_append, List.length_cons]
    omega

theorem toList_string (t : String) :
    (Json.string t).toList = '"' :: (t.toList.flatMap escapeChar ++ ['"']) := by
  simp [Json.string]

theorem stringRest_reads (t : String) :
    stringRest.Reads (t.toList.flatMap escapeChar ++ ['"']) t := fun rest => by
  have hlen := length_le_escaped t.toList
  have hchars := chars_escaped t.toList
    (n := (t.toList.flatMap escapeChar ++ '"' :: rest).length + 1)
    [] rest (by rw [List.length_append]; omega)
  rw [List.append_assoc]
  refine (bind_ok (x := withRounds (chars codePoint · [])) hchars).trans ?_
  rw [List.reverse_nil, List.nil_append, String.ofList_toList]
  rfl

theorem string_reads (t : String) : string.Reads (Json.string t).toList t := fun rest => by
  rw [toList_string]
  exact stringRest_reads t rest

theorem boolean_reads : ∀ b, boolean.Reads (Json.boolean b).toList b
  | true | false => fun _ => rfl

/-! ## Optional values and lists -/

theorem optional_null (value : Reader α) : (optional value).Reads "null".toList none :=
  fun _ => rfl

/-- The text of a value starts with a character that is neither white space nor stands for null or
the end of a list. -/
def Opens (text : List Char) : Prop :=
  ∃ c s, text = c :: s ∧ isSpace c = false ∧ c ≠ 'n' ∧ c ≠ ']'

theorem opens_string (t : String) : Opens (Json.string t).toList :=
  ⟨'"', _, toList_string t, rfl, by decide, by decide⟩

theorem optional_eq {value : Reader α} {text : List Char} (hopens : Opens text)
    (rest : List Char) :
    optional value (text ++ rest) = (value >>= fun a => pure (some a)) (text ++ rest) := by
  obtain ⟨c, s, rfl, hspace, hn, -⟩ := hopens
  refine bind_peekPast? hspace ?_
  split
  case h_1 heq => exact absurd (Option.some.inj heq) hn
  case h_2 => rfl

theorem optional_some {value : Reader α} {text : List Char} {a : α} (hopens : Opens text)
    (h : value.Reads text a) : (optional value).Reads text (some a) := fun rest =>
  (optional_eq hopens rest).trans (h.map some rest)

theorem optional_refuses {value : Reader α} {text : List Char} (hopens : Opens text)
    (h : value.Refuses text) : (optional value).Refuses text := fun rest =>
  (optional_eq hopens rest).trans (bind_error (h rest))

/-- What stands before an element of a list or a member of an object. -/
def lead (first : Bool) : List Char :=
  if first then [] else [',']

/-- Elements or members one after the other. -/
def listed (write : α → List Char) : Bool → List α → List Char
  | _, [] => []
  | first, a :: as => lead first ++ (write a ++ listed write false as)

theorem intercalate_eq_listed (write : α → List Char) (as : List α) :
    [','].intercalate (as.map write) = listed write true as := by
  have htail : ∀ (a : α) (as : List α), [','].intercalate ((a :: as).map write) =
      write a ++ listed write false as := by
    intro a as
    induction as generalizing a with
    | nil => simp [List.intercalate, listed]
    | cons b as ih =>
      have h := ih b
      simp only [List.intercalate, List.map_cons, List.intersperse_cons_cons,
        List.flatten_cons] at h ⊢
      rw [h]
      rfl
  cases as with
  | nil => rfl
  | cons a as => exact htail a as

theorem toList_list (write : α → String) (as : List α) :
    (Json.list (as.map write)).toList =
      '[' :: (listed (fun a => (write a).toList) true as ++ [']']) := by
  rw [← intercalate_eq_listed]
  simp [Json.list, String.toList_intercalate, Function.comp_def]

theorem length_le_listed (write : α → List Char) (h : ∀ a, write a ≠ []) :
    ∀ (first : Bool) (as : List α), as.length ≤ (listed write first as).length
  | _, [] => Nat.zero_le _
  | first, a :: as => by
    have hrest := length_le_listed write h false as
    have ha := List.length_pos_iff.2 (h a)
    simp only [listed, List.length_append, List.length_cons]
    omega

theorem hasElement_lead (first : Bool) {text : List Char} (hopens : Opens text) (s : List Char) :
    hasElement first (lead first ++ (text ++ s)) = .ok (true, text ++ s) := by
  obtain ⟨c, text, rfl, hspace, -, hclose⟩ := hopens
  cases first with
  | true =>
    refine bind_peekPast? (x := pure true) hspace ?_
    split
    case h_1 heq => cases heq
    case h_2 heq => exact absurd (Option.some.inj heq) hclose
    case h_3 | h_4 => rfl
  | false =>
    refine (bind_peekPast? rfl rfl).trans ?_
    change (advance >>= fun _ => peekPast? >>= _) (',' :: c :: (text ++ s)) = _
    refine (bind_ok rfl).trans (bind_peekPast? (x := pure true) hspace ?_)
    split
    case h_1 heq => cases heq
    case h_2 heq => exact absurd (Option.some.inj heq) hclose
    case h_3 => rfl

theorem hasElement_close (first : Bool) (s : List Char) :
    hasElement first (']' :: s) = .ok (false, ']' :: s) := by
  cases first <;> rfl

section Lists

variable {item : Reader α} {write : α → List Char} (hopens : ∀ a, Opens (write a))
include hopens

theorem elements_listed : ∀ (first : Bool) {n : Nat} {as : List α}, as.length < n →
    (∀ a ∈ as, item.Reads (write a) a) → ∀ rest,
      elements item first n (listed write first as ++ ']' :: rest) = .ok (as, ']' :: rest)
  | first, n + 1, [], _, _, rest => bind_ok (hasElement_close first rest)
  | first, n + 1, a :: as, hn, h, rest => by
    have hrest := elements_listed false (Nat.lt_of_succ_lt_succ hn)
      (fun b hb => h b (List.mem_cons_of_mem _ hb)) rest
    rw [listed, List.append_assoc, List.append_assoc]
    refine (bind_ok (hasElement_lead first (hopens a) _)).trans ?_
    exact (bind_ok (h a List.mem_cons_self _)).trans (bind_ok hrest)

/-- A list is refused at its first element that is. -/
theorem elements_refuses : ∀ (first : Bool) {n : Nat} {as : List α}, as.length < n →
    (∀ a ∈ as, item.Reads (write a) a ∨ item.Refuses (write a)) →
    (∃ a ∈ as, item.Refuses (write a)) → ∀ rest,
      elements item first n (listed write first as ++ rest) = .error .malformed
  | first, n + 1, [], _, _, hex, rest => by
    obtain ⟨a, ha, -⟩ := hex
    cases ha
  | first, n + 1, a :: as, hn, h, hex, rest => by
    rw [listed, List.append_assoc, List.append_assoc]
    refine (bind_ok (hasElement_lead first (hopens a) _)).trans ?_
    by_cases ha : item.Refuses (write a)
    · exact bind_error (ha _)
    · have hread := (h a List.mem_cons_self).resolve_right ha
      have hrest := elements_refuses false (Nat.lt_of_succ_lt_succ hn)
        (fun b hb => h b (List.mem_cons_of_mem _ hb)) (by
          obtain ⟨b, hb, hrefuses⟩ := hex
          obtain rfl | hb := List.mem_cons.1 hb
          · exact absurd hrefuses ha
          · exact ⟨b, hb, hrefuses⟩) rest
      exact (bind_ok (hread _)).trans (bind_error hrest)

end Lists

theorem list_none_refuses (text : List Char) :
    (list (none : Option (Reader α))).Refuses ('[' :: text) :=
  fun _ => rfl

section Lists

variable {item : Reader α} {write : α → String} (hopens : ∀ a, Opens (write a).toList)
include hopens

theorem length_lt_list (as : List α) (rest : List Char) :
    as.length < (listed (fun a => (write a).toList) true as ++ ']' :: rest).length + 1 := by
  have hlen := length_le_listed (fun a => (write a).toList) (fun a => by
    obtain ⟨c, s, h, -⟩ := hopens a
    rw [h]
    exact List.cons_ne_nil c s) true as
  rw [List.length_append]
  omega

theorem list_reads {as : List α} (h : ∀ a ∈ as, item.Reads (write a).toList a) :
    (list (some item)).Reads (Json.list (as.map write)).toList as := fun rest => by
  have helements := elements_listed hopens true (length_lt_list hopens as rest) h rest
  rw [toList_list, List.cons_append, List.append_assoc]
  exact (bind_peekPast? rfl rfl).trans
    (bind_ok (x := withRounds (elements item true)) helements)

theorem list_refuses {as : List α}
    (h : ∀ a ∈ as, item.Reads (write a).toList a ∨ item.Refuses (write a).toList)
    (hex : ∃ a ∈ as, item.Refuses (write a).toList) :
    (list (some item)).Refuses (Json.list (as.map write)).toList := fun rest => by
  have helements := elements_refuses hopens true (length_lt_list hopens as rest) h hex
    (']' :: rest)
  rw [toList_list, List.cons_append, List.append_assoc]
  exact (bind_peekPast? rfl rfl).trans
    (bind_error (x := withRounds (elements item true)) helements)

end Lists

/-! ## Records -/

/-- The text of a member of an object. -/
def memberText (m : String × String) : List Char :=
  (Json.string m.1).toList ++ ':' :: m.2.toList

theorem toList_object (ms : List (String × String)) :
    (Json.object ms).toList = '{' :: (listed memberText true ms ++ ['}']) := by
  have hcolon : ":".toList = [':'] := rfl
  rw [← intercalate_eq_listed]
  simp [Json.object, String.toList_intercalate, Function.comp_def, hcolon]
  rfl

theorem opens_object (ms : List (String × String)) : Opens (Json.object ms).toList :=
  ⟨'{', _, toList_object ms, rfl, by decide, by decide⟩

theorem memberText_ne_nil (m : String × String) : memberText m ≠ [] := by
  rw [memberText, toList_string]
  exact List.cons_ne_nil _ _

/-- Off the front of `text`, before another member or the end of an object, the reader takes exactly
this text and makes `a` of it. -/
def ReadsMember (read : Reader α) (text : List Char) (a : α) : Prop :=
  ∀ c rest, c = ',' ∨ c = '}' → read (text ++ c :: rest) = .ok (a, c :: rest)

theorem Reads.member {read : Reader α} {text : List Char} {a : α} (h : read.Reads text a) :
    read.ReadsMember text a := fun c rest _ =>
  h (c :: rest)

theorem ReadsMember.map {x : Reader α} {text : List Char} {a : α} (h : x.ReadsMember text a)
    (f : α → β) : (x >>= fun a => pure (f a)).ReadsMember text (f a) := fun c rest hc =>
  bind_ok (h c rest hc)

/-- Reading the members one after the other brings a record from one form to another. -/
inductive Completes (member : α → String → Member α) : α → List (String × String) → α → Prop
  | nil (partly : α) : Completes member partly [] partly
  | cons {partly more last : α} {name text : String} {ms : List (String × String)}
      {value : Reader α} (hmember : member partly name = .known value)
      (hvalue : value.ReadsMember text.toList more) (h : Completes member more ms last) :
      Completes member partly ((name, text) :: ms) last

theorem hasMember_lead (first : Bool) (s : List Char) :
    hasMember first (lead first ++ '"' :: s) = .ok (true, '"' :: s) := by
  cases first <;> rfl

theorem hasMember_close (first : Bool) (s : List Char) :
    hasMember first ('}' :: s) = .ok (false, '}' :: s) := by
  cases first <;> rfl

/-- A member is followed by another or by the end of the object. -/
theorem listed_eq_cons (ms : List (String × String)) (rest : List Char) :
    ∃ c s, (c = ',' ∨ c = '}') ∧ listed memberText false ms ++ '}' :: rest = c :: s := by
  cases ms with
  | nil => exact ⟨_, _, .inr rfl, rfl⟩
  | cons m ms => exact ⟨_, _, .inl rfl, rfl⟩

section Members

variable {member : α → String → Member α}

theorem members_lead (first : Bool) (n : Nat) (partly : α) (s : List Char) :
    members member first (n + 1) partly (lead first ++ '"' :: s) =
      (stringRest >>= fun name =>
        match member partly name with
        | .repeated => fail .mismatch
        | .unknown => do
          colon
          skip
          members member false n partly
        | .known value => do
          colon
          let more ← value
          members member false n more) s :=
  bind_ok (hasMember_lead first s)

/-- The name of a known member is read, then its value. -/
theorem members_known (first : Bool) {n : Nat} {partly : α} {name text : String} {value : Reader α}
    (hmember : member partly name = .known value) (s : List Char) :
    members member first (n + 1) partly (lead first ++ (memberText (name, text) ++ s)) =
      (value >>= fun more => members member false n more) (text.toList ++ s) := by
  have hname := stringRest_reads name (':' :: (text.toList ++ s))
  rw [List.append_assoc] at hname
  rw [memberText, toList_string, List.cons_append, List.cons_append, List.append_assoc,
    List.append_assoc]
  refine (members_lead first n partly _).trans ((bind_ok hname).trans ?_)
  rw [hmember]
  rfl

theorem members_completes {partly last : α} {ms : List (String × String)}
    (h : Completes member partly ms last) : ∀ (first : Bool) {n : Nat}, ms.length < n → ∀ rest,
      members member first n partly (listed memberText first ms ++ '}' :: rest) =
        .ok (last, '}' :: rest) := by
  induction h with
  | nil partly =>
    intro first n hn rest
    obtain ⟨n, rfl⟩ := Nat.exists_eq_succ_of_ne_zero (Nat.ne_of_gt hn)
    exact bind_ok (hasMember_close first rest)
  | @cons partly more last name text ms value hmember hvalue h ih =>
    intro first n hn rest
    obtain ⟨n, rfl⟩ := Nat.exists_eq_succ_of_ne_zero (Nat.ne_of_gt (Nat.zero_lt_of_lt hn))
    have hrest := ih false (Nat.lt_of_succ_lt_succ hn) rest
    obtain ⟨c, s, hc, hs⟩ := listed_eq_cons ms rest
    rw [listed, List.append_assoc, List.append_assoc]
    refine (members_known first hmember _).trans ?_
    rw [hs] at hrest ⊢
    exact (bind_ok (hvalue c s hc)).trans hrest

/-- An object is refused at its first member that is. -/
theorem members_refuses {partly last : α} {ms : List (String × String)} {name text : String}
    {value : Reader α} (h : Completes member partly ms last)
    (hmember : member last name = .known value) (hvalue : value.Refuses text.toList)
    (after : List (String × String)) : ∀ (first : Bool) {n : Nat}, ms.length < n → ∀ rest,
      members member first n partly
        (listed memberText first (ms ++ (name, text) :: after) ++ rest) = .error .malformed := by
  induction h with
  | nil partly =>
    intro first n hn rest
    obtain ⟨n, rfl⟩ := Nat.exists_eq_succ_of_ne_zero (Nat.ne_of_gt hn)
    rw [List.nil_append, listed, List.append_assoc, List.append_assoc]
    exact (members_known first hmember _).trans (bind_error (hvalue _))
  | @cons partly more last name' text' ms value' hmember' hvalue' h ih =>
    intro first n hn rest
    obtain ⟨n, rfl⟩ := Nat.exists_eq_succ_of_ne_zero (Nat.ne_of_gt (Nat.zero_lt_of_lt hn))
    have hrest := ih hmember false (Nat.lt_of_succ_lt_succ hn) rest
    obtain ⟨c, s, hc, hs⟩ : ∃ c s, (c = ',' ∨ c = '}') ∧
        listed memberText false (ms ++ (name, text) :: after) ++ rest = c :: s := by
      cases ms with
      | nil => exact ⟨_, _, .inl rfl, rfl⟩
      | cons m ms => exact ⟨_, _, .inl rfl, rfl⟩
    rw [List.cons_append, listed, List.append_assoc, List.append_assoc]
    refine (members_known first hmember' _).trans ?_
    rw [hs] at hrest ⊢
    exact (bind_ok (hvalue' c s hc)).trans hrest

variable {empty last : α} {finish : α → Option β} {ms : List (String × String)}

theorem length_lt_object (ms : List (String × String)) (rest : List Char) :
    ms.length < (listed memberText true ms ++ '}' :: rest).length + 1 := by
  have hlen := length_le_listed memberText memberText_ne_nil true ms
  rw [List.length_append]
  omega

theorem object_reads {b : β} (h : Completes member empty ms last) (hfinish : finish last = some b) :
    (object member empty finish).Reads (listed memberText true ms ++ ['}']) b := fun rest => by
  have hmembers := members_completes h true (length_lt_object ms rest) rest
  rw [List.append_assoc]
  refine (bind_ok (x := withRounds fun n => members member true n empty) hmembers).trans ?_
  rw [hfinish]
  rfl

theorem object_refuses {name text : String} {value : Reader α} (h : Completes member empty ms last)
    (hmember : member last name = .known value) (hvalue : value.Refuses text.toList)
    (after : List (String × String)) :
    (object member empty finish).Refuses
      (listed memberText true (ms ++ (name, text) :: after) ++ ['}']) := fun rest => by
  have hlen := length_lt_object (ms ++ (name, text) :: after) rest
  have hmembers := members_refuses h hmember hvalue after true
    (Nat.lt_of_le_of_lt (by simp) hlen) ('}' :: rest)
  rw [List.append_assoc]
  exact bind_error (x := withRounds fun n => members member true n empty) hmembers

end Members

theorem record_reads {form : Record α} {a : α} {ms : List (String × String)}
    (h : form.asObject.Reads (listed memberText true ms ++ ['}']) a) :
    (record (some form)).Reads (Json.object ms).toList a := fun rest => by
  rw [toList_object]
  exact (bind_peekPast? rfl rfl).trans (h rest)

theorem record_refuses {form : Record α} {ms : List (String × String)}
    (h : form.asObject.Refuses (listed memberText true ms ++ ['}'])) :
    (record (some form)).Refuses (Json.object ms).toList := fun rest => by
  rw [toList_object]
  exact (bind_peekPast? rfl rfl).trans (h rest)

theorem record_none_refuses (text : List Char) :
    (record (none : Option (Record α))).Refuses ('{' :: text) :=
  fun _ => rfl

/-- Nothing comes after a value that is the whole text. -/
theorem run_reads {read : Reader α} {text : String} {a : α} (h : read.Reads text.toList a) :
    read.run text = .ok a := by
  have hread := h []
  rw [List.append_nil] at hread
  unfold run
  rw [bind_ok hread]
  rfl

theorem run_refuses {read : Reader α} {text : String} (h : read.Refuses text.toList) :
    read.run text = .error .malformed := by
  have hread := h []
  rw [List.append_nil] at hread
  unfold run
  rw [bind_error hread]

end Hsm.Json.Reader
