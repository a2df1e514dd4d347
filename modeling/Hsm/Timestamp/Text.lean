import Hsm.Text.Blank
import Hsm.Timestamp.Basic

/-!
# The texts of timestamps

Writing follows RFC 3339 in UTC, with as few of 0, 3, 6 or 9 places as lose nothing. Reading is
more generous: the numbers of a date and a time may have fewer digits and blanks around them, a
blank may stand for the letter between date and time, and the offset may be a letter, a word, or
hours and minutes.
-/

namespace Hsm.Timestamp

/-! ## Writing -/

/-- `n` with zeros before it up to `width` digits. -/
def padded (width n : Nat) : String :=
  let digits := Nat.toDigits 10 n
  String.ofList (List.replicate (width - digits.length) '0' ++ digits)

def yearText (year : Int) : String :=
  match year with
  | .ofNat n => if n ≤ 9999 then padded 4 n else "+" ++ padded 4 n
  | .negSucc n => "-" ++ padded 4 (n + 1)

def fractionText (nanos : Nat) : String :=
  if nanos = 0 then ""
  else if nanos % 1000000 = 0 then "." ++ padded 3 (nanos / 1000000)
  else if nanos % 1000 = 0 then "." ++ padded 6 (nanos / 1000)
  else "." ++ padded 9 nanos

def text (t : Timestamp) : String :=
  yearText t.year ++ "-" ++ padded 2 t.month ++ "-" ++ padded 2 t.day ++ "T" ++
    padded 2 t.hour ++ ":" ++ padded 2 t.minute ++ ":" ++ padded 2 t.second ++
    fractionText t.nanos ++ "Z"

/-! ## Reading -/

/-- Reads a part off the front of a text, or nothing at all. -/
abbrev Reader (α : Type) : Type :=
  StateT (List Char) Option α

namespace Reader

def blanks : Reader Unit :=
  modify (·.dropWhile Text.isBlank)

/-- One character of a kind. -/
def one (kind : Char → Bool) : Reader Char := do
  match ← get with
  | c :: rest =>
    if kind c then
      set rest
      pure c
    else failure
  | [] => failure

/-- One to `width` decimal digits, as many as there are, as a number and their count. -/
def digits (width : Nat) : Reader (Nat × Nat) := do
  let s ← get
  let ds := (s.take width).takeWhile Char.isDigit
  set (s.drop ds.length)
  if ds.isEmpty then failure
  else pure (ds.foldl (fun n c => n * 10 + (c.toNat - '0'.toNat)) 0, ds.length)

/-- A number of one or two digits between `low` and `high`, with blanks before it. -/
def part (low high : Nat) : Reader Nat := do
  blanks
  let (n, _) ← digits 2
  if low ≤ n && n ≤ high then pure n else failure

/-- A separator with blanks before it. -/
def mark (c : Char) : Reader Unit := do
  blanks
  let _ ← one (· = c)

/-- Four digits at most, or any number of them after a sign. -/
def year : Reader Int := do
  blanks
  let s ← get
  match s with
  | '-' :: rest =>
    set rest
    let (n, _) ← digits rest.length
    pure (-(n : Int))
  | '+' :: rest =>
    set rest
    let (n, _) ← digits rest.length
    pure n
  | _ =>
    let (n, _) ← digits 4
    pure n

/-- A fraction of a second in billionths; more than nine digits are passed over. -/
def fraction : Reader Nat := do
  match ← get with
  | '.' :: rest =>
    set rest
    let (n, width) ← digits 9
    modify (·.dropWhile Char.isDigit)
    pure (n * Nat.pow 10 (9 - width))
  | _ => pure 0

/-- Two digits, the first at most `high`. -/
def twoDigits (high : Char) : Reader Nat := do
  let a ← one fun c => c.isDigit && c ≤ high
  let b ← one Char.isDigit
  pure ((a.toNat - '0'.toNat) * 10 + (b.toNat - '0'.toNat))

/-- The minutes by which the clock is ahead of UTC. -/
def offset : Reader Int := do
  let s ← get
  match s with
  | 'Z' :: rest | 'z' :: rest =>
    set rest
    pure 0
  | _ =>
    if (s.take 3).map Char.toUpper = ['U', 'T', 'C'] then
      set (s.drop 3)
      pure 0
    else
      let sign ← one fun c => c = '+' || c = '-' || c = '−'
      let hours ← twoDigits '9'
      modify (·.dropWhile fun c => c = ':' || Text.isBlank c)
      let minutes ← twoDigits '5'
      let n := hours * 60 + minutes
      if n < 1440 then pure (if sign = '+' then n else -(n : Int)) else failure

def timestamp : Reader Timestamp := do
  let year ← year
  mark '-'
  let month ← part 1 12
  mark '-'
  let day ← part 1 31
  let _ ← one fun c => c = 'T' || c = 't' || c = ' '
  let hour ← part 0 23
  mark ':'
  let minute ← part 0 59
  mark ':'
  let second ← part 0 60
  let nanos ← fraction
  blanks
  let offset ← offset
  blanks
  let clock : Timestamp := ⟨year, month, day, hour, minute, second, nanos⟩
  let t := clock.ofClock offset
  if clock.hasDate && t.hasDate then pure t else failure

end Reader

/-- The point in time that a text stands for. -/
def ofText? (s : String) : Option Timestamp :=
  match Reader.timestamp.run s.toList with
  | some (t, []) => some t
  | _ => none

end Hsm.Timestamp
