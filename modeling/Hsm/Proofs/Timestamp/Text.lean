import Mathlib.Algebra.Group.Nat.Defs
import Hsm.Proofs.Reading
import Hsm.Timestamp.Text

/-!
# A timestamp is read off its own text

The text of a date and a time of day that exist stands for just these (`Timestamp.ofText?_text`).
Most numbers have as many digits as are read at most. The year and the fraction of a second may
have fewer, and end because no digit follows.
-/

namespace Hsm.Timestamp

/-- The date and the time of day exist; the second 60 is a leap second. -/
structure Valid (t : Timestamp) : Prop where
  date : t.hasDate
  hour : t.hour < 24
  minute : t.minute < 60
  second : t.second ≤ 60
  nanos : t.nanos < 10 ^ 9

namespace Valid

variable {t : Timestamp} (h : t.Valid)
include h

/-- A clock that is not ahead shows the time itself. -/
theorem ofClock_zero : t.ofClock 0 = t := by
  have hhour := h.hour
  have hminute := h.minute
  unfold ofClock
  dsimp only
  rw [if_neg (by omega), if_neg (by omega)]
  unfold withMinutes
  have hdiv : ((t.hour * 60 + t.minute - 0 : Int).toNat) / 60 = t.hour := by omega
  have hmod : ((t.hour * 60 + t.minute - 0 : Int).toNat) % 60 = t.minute := by omega
  rw [hdiv, hmod]

theorem month : 1 ≤ t.month ∧ t.month ≤ 12 := by
  have hdate := h.date
  simp only [hasDate, Bool.and_eq_true, decide_eq_true_eq] at hdate
  omega

theorem day : 1 ≤ t.day ∧ t.day ≤ 31 := by
  have hdate := h.date
  simp only [hasDate, Bool.and_eq_true, decide_eq_true_eq] at hdate
  have hdays : daysInMonth t.year t.month ≤ 31 := by
    unfold daysInMonth
    repeat' split
    all_goals decide
  omega

end Valid

/-! ## Padded numbers -/

theorem toList_padded (width n : Nat) :
    (padded width n).toList =
      List.replicate (width - (Nat.toDigits 10 n).length) '0' ++ Nat.toDigits 10 n :=
  String.toList_ofList

theorem isDigit_of_mem_padded {width n : Nat} {c : Char} (h : c ∈ (padded width n).toList) :
    c.isDigit := by
  rw [toList_padded, List.mem_append] at h
  obtain h | h := h
  · rw [List.eq_of_mem_replicate h]
    rfl
  · exact Nat.isDigit_of_mem_toDigits (by decide) (by decide) h

theorem padded_ne_nil (width n : Nat) : (padded width n).toList ≠ [] := by
  rw [toList_padded]
  exact List.append_ne_nil_of_right_ne_nil _ Nat.toDigits_ne_nil

theorem length_padded {width n : Nat} (hwidth : 0 < width) (h : n < 10 ^ width) :
    (padded width n).toList.length = width := by
  have hlen := (Nat.length_toDigits_le_iff (b := 10) (by decide) hwidth).2 h
  rw [toList_padded, List.length_append, List.length_replicate]
  omega

/-- The number that digits stand for. -/
theorem value_padded (width n : Nat) :
    (padded width n).toList.foldl (fun n c => n * 10 + (c.toNat - '0'.toNat)) 0 = n := by
  have hzero : ∀ k, Nat.ofDigitChars 10 (List.replicate k '0') 0 = 0 := by
    intro k
    induction k with
    | zero => rfl
    | succ k ih => rw [List.replicate_succ, Nat.ofDigitChars_cons]; exact ih
  have hvalue : Nat.ofDigitChars 10 (padded width n).toList 0 = n := by
    rw [toList_padded, Nat.ofDigitChars_append, hzero, Nat.ofDigitChars_ten_toDigits]
  rw [Nat.ofDigitChars_eq_foldl] at hvalue
  simpa only [Nat.mul_comm] using hvalue

namespace Reader

/-! ## Parts of a text -/

/-- No digit comes first. -/
def EndsDigits (rest : List Char) : Prop :=
  ∀ c ∈ rest.head?, c.isDigit = false

theorem endsDigits_cons {c : Char} {rest : List Char} (h : c.isDigit = false) :
    EndsDigits (c :: rest) := by
  rintro d ⟨⟩
  exact h

theorem takeWhile_isDigit {ds rest : List Char} (hds : ∀ c ∈ ds, c.isDigit)
    (hrest : EndsDigits rest) : (ds ++ rest).takeWhile Char.isDigit = ds := by
  rw [List.takeWhile_append_of_pos hds]
  cases rest with
  | nil => simp
  | cons c rest => simp [hrest c rfl]

/-- Digits are read up to the width, or up to something else. -/
theorem digits_run {width : Nat} {ds rest : List Char} (hds : ∀ c ∈ ds, c.isDigit) (hne : ds ≠ [])
    (hlen : ds.length ≤ width) (hend : ds.length = width ∨ EndsDigits rest) :
    (digits width).run (ds ++ rest) =
      some ((ds.foldl (fun n c => n * 10 + (c.toNat - '0'.toNat)) 0, ds.length), rest) := by
  have htake : ((ds ++ rest).take width).takeWhile Char.isDigit = ds := by
    rw [List.take_append, List.take_of_length_le hlen]
    refine takeWhile_isDigit hds ?_
    obtain hwidth | hrest := hend
    · rw [hwidth, Nat.sub_self, List.take_zero]
      exact nofun
    · intro c hc
      rw [List.head?_take] at hc
      split at hc
      · cases hc
      · exact hrest c hc
  unfold digits
  refine run_bind_eq_some.2 ⟨_, _, rfl, ?_⟩
  rw [htake]
  refine run_bind_eq_some.2 ⟨(), rest, ?_, ?_⟩
  · exact congrArg (fun s => some ((), s)) List.drop_left
  · rw [if_neg (by simpa using hne)]
    rfl

/-- As many digits are there as are read at most. -/
theorem digits_reads {width n : Nat} (hwidth : 0 < width) (h : n < 10 ^ width) :
    Reads (digits width) (padded width n).toList (n, width) := fun rest => by
  have hlen := length_padded hwidth h
  rw [digits_run (fun _ => isDigit_of_mem_padded) (padded_ne_nil width n) (Nat.le_of_eq hlen)
    (.inl hlen), value_padded, hlen]

/-- There may be fewer, if something else follows. -/
theorem digits_padded {width w n : Nat} {rest : List Char}
    (hlen : (padded w n).toList.length ≤ width) (hrest : EndsDigits rest) :
    (digits width).run ((padded w n).toList ++ rest) =
      some ((n, (padded w n).toList.length), rest) := by
  rw [digits_run (fun _ => isDigit_of_mem_padded) (padded_ne_nil w n) hlen (.inr hrest),
    value_padded]

theorem blanks_run {s : List Char} (h : ∀ c ∈ s.head?, Text.isBlank c = false) :
    blanks.run s = some ((), s) := by
  cases s with
  | nil => rfl
  | cons c s =>
    have hdrop : (c :: s).dropWhile Text.isBlank = c :: s :=
      List.dropWhile_cons_of_neg (by rw [h c rfl]; decide)
    exact congrArg (fun s => some ((), s)) hdrop

theorem isBlank_of_isDigit {c : Char} (h : c.isDigit) : Text.isBlank c = false := by
  obtain ⟨hlow, hhigh⟩ : 48 ≤ c.toNat ∧ c.toNat ≤ 57 := by
    simpa [Char.isDigit, UInt32.le_iff_toNat_le] using h
  simp [Text.isBlank, Text.blankRanges]
  omega

/-- A padded number starts with a digit. -/
theorem padded_eq_cons (width n : Nat) :
    ∃ d ds, (padded width n).toList = d :: ds ∧ d.isDigit := by
  obtain ⟨d, ds, h⟩ := List.exists_cons_of_ne_nil (padded_ne_nil width n)
  exact ⟨d, ds, h, isDigit_of_mem_padded (h ▸ List.mem_cons_self)⟩

theorem blanks_padded (width n : Nat) (rest : List Char) :
    blanks.run ((padded width n).toList ++ rest) = some ((), (padded width n).toList ++ rest) := by
  obtain ⟨d, ds, h, hd⟩ := padded_eq_cons width n
  rw [h]
  refine blanks_run ?_
  rintro c ⟨⟩
  exact isBlank_of_isDigit hd

theorem mark_reads {c : Char} (h : Text.isBlank c = false) : Reads (mark c) [c] () := fun rest => by
  refine run_bind_eq_some.2 ⟨(), c :: rest, blanks_run ?_, ?_⟩
  · rintro d ⟨⟩
    exact h
  · simp [one]

theorem part_reads {low high n : Nat} (hlow : low ≤ n) (hhigh : n ≤ high) (h : n < 100) :
    Reads (part low high) (padded 2 n).toList n := fun rest => by
  refine run_bind_eq_some.2 ⟨(), _, blanks_padded 2 n rest, ?_⟩
  refine run_bind_eq_some.2 ⟨_, _, digits_reads (by decide) h rest, ?_⟩
  simp [hlow, hhigh]

/-- After a sign the digits of the year end because something else follows. -/
theorem signed_digits (n : Nat) {rest : List Char} (hrest : EndsDigits rest) :
    (digits ((padded 4 n).toList ++ rest).length).run ((padded 4 n).toList ++ rest) =
      some ((n, (padded 4 n).toList.length), rest) :=
  digits_padded (by rw [List.length_append]; omega) hrest

theorem year_run (y : Int) {rest : List Char} (hrest : EndsDigits rest) :
    year.run ((yearText y).toList ++ rest) = some (y, rest) := by
  unfold yearText
  split
  case h_1 n =>
    split
    · refine run_bind_eq_some.2 ⟨(), _, blanks_padded 4 n rest, ?_⟩
      have hread : Reads (digits 4) (padded 4 n).toList (n, 4) :=
        digits_reads (by decide) (by omega)
      replace hread := hread rest
      obtain ⟨d, ds, h, hd⟩ := padded_eq_cons 4 n
      rw [h] at hread ⊢
      refine run_bind_eq_some.2 ⟨_, _, rfl, ?_⟩
      split
      case h_1 heq => cases heq; cases hd
      case h_2 heq => cases heq; cases hd
      case h_3 => exact run_bind_eq_some.2 ⟨_, _, hread, rfl⟩
    · have hsign : ("+" ++ padded 4 n).toList = '+' :: (padded 4 n).toList := String.toList_append
      rw [hsign]
      refine run_bind_eq_some.2 ⟨(), _, blanks_run (by rintro c ⟨⟩; decide), ?_⟩
      refine run_bind_eq_some.2 ⟨_, _, rfl, run_bind_eq_some.2 ⟨_, _, rfl, ?_⟩⟩
      exact run_bind_eq_some.2 ⟨_, _, signed_digits n hrest, rfl⟩
  case h_2 n =>
    have hsign : ("-" ++ padded 4 (n + 1)).toList = '-' :: (padded 4 (n + 1)).toList :=
      String.toList_append
    rw [hsign]
    refine run_bind_eq_some.2 ⟨(), _, blanks_run (by rintro c ⟨⟩; decide), ?_⟩
    refine run_bind_eq_some.2 ⟨_, _, rfl, run_bind_eq_some.2 ⟨_, _, rfl, ?_⟩⟩
    exact run_bind_eq_some.2 ⟨_, _, signed_digits (n + 1) hrest, rfl⟩

theorem dropWhile_isDigit {rest : List Char} (hrest : EndsDigits rest) :
    rest.dropWhile Char.isDigit = rest := by
  cases rest with
  | nil => rfl
  | cons c rest => exact List.dropWhile_cons_of_neg (by rw [hrest c rfl]; decide)

theorem places_run {width n : Nat} {rest : List Char} (hwidth : 0 < width) (hnine : width ≤ 9)
    (h : n < 10 ^ width) (hrest : EndsDigits rest) :
    fraction.run (("." ++ padded width n).toList ++ rest) = some (n * 10 ^ (9 - width), rest) := by
  have hpoint : ("." ++ padded width n).toList = '.' :: (padded width n).toList :=
    String.toList_append
  have hlen := length_padded hwidth h
  rw [hpoint]
  refine run_bind_eq_some.2 ⟨_, _, rfl, run_bind_eq_some.2 ⟨_, _, rfl, ?_⟩⟩
  refine run_bind_eq_some.2 ⟨_, _, digits_padded (by omega) hrest, ?_⟩
  have hdrop := congrArg (fun s => some ((), s)) (dropWhile_isDigit hrest)
  refine run_bind_eq_some.2 ⟨(), rest, hdrop, ?_⟩
  rw [hlen]
  rfl

/-- The places that are not written are zeros. -/
theorem fraction_run {nanos : Nat} (h : nanos < 10 ^ 9) (rest : List Char) :
    fraction.run ((fractionText nanos).toList ++ 'Z' :: rest) = some (nanos, 'Z' :: rest) := by
  have hrest : EndsDigits ('Z' :: rest) := endsDigits_cons rfl
  unfold fractionText
  split
  case isTrue hzero => rw [hzero]; rfl
  split
  case isTrue hmilli =>
    rw [places_run (by decide) (by decide) (by omega) hrest]
    exact congrArg (fun n => some (n, 'Z' :: rest))
      (Nat.div_mul_cancel (Nat.dvd_of_mod_eq_zero hmilli))
  split
  case isTrue hmicro =>
    rw [places_run (by decide) (by decide) (by omega) hrest]
    exact congrArg (fun n => some (n, 'Z' :: rest))
      (Nat.div_mul_cancel (Nat.dvd_of_mod_eq_zero hmicro))
  case isFalse => rw [places_run (by decide) (by decide) h hrest, Nat.pow_zero, Nat.mul_one]

theorem timestamp_run {t : Timestamp} (h : t.Valid) :
    timestamp.run t.text.toList = some (t, []) := by
  have hhour := h.hour
  have hminute := h.minute
  have hsecond := h.second
  have hmonth := h.month
  have hday := h.day
  simp only [text, String.toList_append, List.append_assoc]
  refine run_bind_eq_some.2 ⟨_, _, year_run t.year (endsDigits_cons rfl), ?_⟩
  refine run_bind_eq_some.2 ⟨_, _, mark_reads (c := '-') (by decide) _, ?_⟩
  refine run_bind_eq_some.2 ⟨_, _, part_reads hmonth.1 hmonth.2 (by omega) _, ?_⟩
  refine run_bind_eq_some.2 ⟨_, _, mark_reads (c := '-') (by decide) _, ?_⟩
  refine run_bind_eq_some.2 ⟨_, _, part_reads hday.1 hday.2 (by omega) _, ?_⟩
  refine run_bind_eq_some.2 ⟨_, _, rfl, ?_⟩
  refine run_bind_eq_some.2 ⟨_, _, part_reads (Nat.zero_le _) (by omega) (by omega) _, ?_⟩
  refine run_bind_eq_some.2 ⟨_, _, mark_reads (c := ':') (by decide) _, ?_⟩
  refine run_bind_eq_some.2 ⟨_, _, part_reads (Nat.zero_le _) (by omega) (by omega) _, ?_⟩
  refine run_bind_eq_some.2 ⟨_, _, mark_reads (c := ':') (by decide) _, ?_⟩
  refine run_bind_eq_some.2 ⟨_, _, part_reads (Nat.zero_le _) (by omega) (by omega) _, ?_⟩
  refine run_bind_eq_some.2 ⟨_, _, fraction_run h.nanos [], ?_⟩
  refine run_bind_eq_some.2 ⟨_, _, blanks_run (by rintro c ⟨⟩; decide), ?_⟩
  refine run_bind_eq_some.2 ⟨_, _, rfl, ?_⟩
  refine run_bind_eq_some.2 ⟨_, _, rfl, ?_⟩
  change StateT.run (if t.hasDate && (t.ofClock 0).hasDate then pure (t.ofClock 0) else failure)
    [] = some (t, [])
  rw [h.ofClock_zero, h.date]
  rfl

end Reader

/-- A timestamp is read off its own text. -/
theorem ofText?_text {t : Timestamp} (h : t.Valid) : ofText? t.text = some t := by
  rw [ofText?, Reader.timestamp_run h]

end Hsm.Timestamp
