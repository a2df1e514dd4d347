/-!
# Reading JSON from left to right

A reader takes what it needs from the front of a text, and the first flaw that it meets decides.
Readers know what shape they expect, so that a value of another shape is a flaw at the place
where it starts. This module has the scanners: words, strings, numbers, and values that are
passed over.
-/

namespace Hsm.Json

/-- What is wrong with a text. -/
inductive Flaw
  /-- It is not JSON, or lists and objects are nested too deeply. -/
  | malformed
  /-- It is JSON of another shape. -/
  | mismatch
  /-- It ends too early. -/
  | truncated
  deriving DecidableEq

/-- Reads a value off the front of a text and leaves the rest. -/
def Reader (α : Type) : Type :=
  List Char → Except Flaw (α × List Char)

instance : Monad Reader where
  pure a s := .ok (a, s)
  bind x f s :=
    match x s with
    | .ok (a, s) => f a s
    | .error e => .error e

namespace Reader

variable {α : Type}

def fail (e : Flaw) : Reader α :=
  fun _ => .error e

/-- The next character, which stays. -/
def peek? : Reader (Option Char) :=
  fun s => .ok (s.head?, s)

/-- Drops a character that was looked at. -/
def advance : Reader Unit :=
  fun s => .ok ((), s.tail)

def next : Reader Char
  | [] => .error .truncated
  | c :: s => .ok (c, s)

/-- White space between values. -/
def isSpace (c : Char) : Bool :=
  c = ' ' || c = '\n' || c = '\t' || c = '\r'

/-- The next character that is no white space, which stays. -/
def peekPast? : Reader (Option Char) := fun s =>
  let s := s.dropWhile isSpace
  .ok (s.head?, s)

/-- A loop that takes at least one character each time needs no more rounds than this. -/
def withRounds (loop : Nat → Reader α) : Reader α :=
  fun s => loop (s.length + 1) s

/-- The rest of a word of which the first letter was taken. -/
def word : List Char → Reader Unit
  | [] => pure ()
  | c :: rest => do
    let d ← next
    if d = c then word rest else fail .malformed

/-! ## Strings -/

def hexDigit? (c : Char) : Option Nat :=
  if '0' ≤ c ∧ c ≤ '9' then some (c.toNat - '0'.toNat)
  else if 'a' ≤ c ∧ c ≤ 'f' then some (c.toNat - 'a'.toNat + 10)
  else if 'A' ≤ c ∧ c ≤ 'F' then some (c.toNat - 'A'.toNat + 10)
  else none

/-- The number written by four hexadecimal digits. A text of less than four bytes ends too
early. -/
def hexQuad : Reader Nat
  | a :: b :: c :: d :: rest =>
    match hexDigit? a, hexDigit? b, hexDigit? c, hexDigit? d with
    | some a, some b, some c, some d => .ok (((a * 16 + b) * 16 + c) * 16 + d, rest)
    | _, _, _, _ => .error .malformed
  | s => if (s.map Char.utf8Size).foldl (· + ·) 0 < 4 then .error .truncated else .error .malformed

/-- The character of a `\u` escape. Characters outside the first plane take two escapes, a high
half and a low half, and a half cannot stand alone. -/
def codePoint : Reader Char := do
  let n ← hexQuad
  if n < 0xd800 || 0xe000 ≤ n then pure (Char.ofNat n)
  else if 0xdc00 ≤ n then fail .malformed
  else
    let c ← next
    if c ≠ '\\' then fail .malformed else
    let c ← next
    if c ≠ 'u' then fail .malformed else
    let m ← hexQuad
    if m < 0xdc00 || 0xe000 ≤ m then fail .malformed
    else pure (Char.ofNat (0x10000 + (n - 0xd800) * 0x400 + (m - 0xdc00)))

/-- What follows a backslash; `unicode` reads what follows its `u`. -/
def escape (unicode : Reader Char) : Reader Char := do
  match ← next with
  | '"' => pure '"'
  | '\\' => pure '\\'
  | '/' => pure '/'
  | 'b' => pure '\x08'
  | 'f' => pure '\x0c'
  | 'n' => pure '\n'
  | 'r' => pure '\r'
  | 't' => pure '\t'
  | 'u' => unicode
  | _ => fail .malformed

/-- The characters up to the closing quote, after those in `before`, latest first. -/
def chars (unicode : Reader Char) : Nat → List Char → Reader (List Char)
  | 0, _, _ => .error .truncated
  | _ + 1, _, [] => .error .truncated
  | n + 1, before, c :: s =>
    if c = '"' then .ok (before.reverse, s)
    else if c = '\\' then
      match escape unicode s with
      | .ok (d, s) => chars unicode n (d :: before) s
      | .error e => .error e
    else if c.toNat < 0x20 then .error .malformed
    else chars unicode n (c :: before) s

/-- A string of which the opening quote was taken. -/
def stringRest : Reader String := do
  let cs ← withRounds (chars codePoint · [])
  pure (String.ofList cs)

/-- Passes over a string of which the opening quote was taken. Of an escape by number only the
digits are looked at. -/
def skipStringRest : Reader Unit := do
  let _ ← withRounds (chars (do let _ ← hexQuad; pure ' ') · [])

/-! ## Numbers -/

/-- A number as far as it matters: `digits · 10 ^ exponent`. -/
structure Numeral where
  negative : Bool
  digits : Nat
  exponent : Int
  /-- It is written without a fraction or an exponent, and its digits fit into 64 bits. -/
  whole : Bool

/-- Appends decimal digits to `n` as long as it fits into 64 bits, and counts the others. -/
def accumulate (n : Nat) : List Char → Nat × Nat
  | [] => (n, 0)
  | c :: rest =>
    let m := n * 10 + (c.toNat - '0'.toNat)
    if m < Nat.pow 2 64 then accumulate m rest else (n, rest.length + 1)

/-- The decimal digits at the front. -/
def digitRun : Reader (List Char) :=
  fun s => .ok (s.takeWhile Char.isDigit, s.dropWhile Char.isDigit)

/-- One or more digits; `atEnd` is the flaw if the text ends before the first. -/
def digitRun1 (atEnd : Flaw) : Reader (List Char) := do
  match ← digitRun with
  | [] =>
    match ← peek? with
    | none => fail atEnd
    | some _ => fail .malformed
  | ds => pure ds

/-- The digits before the point: a zero stands alone. -/
def wholePart (atEnd : Flaw) : Reader (List Char) := do
  let ds ← digitRun1 atEnd
  if ds.head? = some '0' && 1 < ds.length then fail .malformed else pure ds

/-- The exponent after its `e`. -/
def exponentPart (atEnd : Flaw) : Reader Int := do
  let negative ← match ← peek? with
    | some '+' => do advance; pure false
    | some '-' => do advance; pure true
    | _ => pure false
  let ds ← digitRun1 atEnd
  let n := ds.foldl (fun n c => n * 10 + (c.toNat - '0'.toNat)) 0
  pure (if negative then -(n : Int) else n)

/-- A number. Digits that do not fit into 64 bits any more count for the exponent before the point
and are dropped after it. -/
def numeral (atEnd : Flaw) : Reader Numeral := do
  let negative ← match ← peek? with
    | some '-' => do advance; pure true
    | _ => pure false
  let (n, surplus) := accumulate 0 (← wholePart atEnd)
  let (n, places, fraction) ← match ← peek? with
    | some '.' => do
      advance
      let ds ← digitRun1 atEnd
      let (m, dropped) := accumulate n ds
      pure (m, ds.length - dropped, true)
    | _ => pure (n, 0, false)
  let exponent : Int := surplus - places
  match ← peek? with
  | some 'e' | some 'E' =>
    advance
    let e ← exponentPart atEnd
    pure ⟨negative, n, exponent + e, false⟩
  | _ => pure ⟨negative, n, exponent, !fraction && surplus = 0⟩

/-- The nearest number with 53 binary digits, an even one if two are near. -/
def roundBinary (n : Nat) : Nat :=
  if n < Nat.pow 2 53 then n
  else
    let unit := Nat.pow 2 (n.log2 - 52)
    let q := n / unit
    let r := n % unit * 2
    (if unit < r || (r = unit && q % 2 = 1) then q + 1 else q) * unit

/-- The numeral is beyond the largest double: its digits times a power of ten, both rounded,
round to infinity. -/
def Numeral.overflows (x : Numeral) : Bool :=
  match x.exponent with
  | .negSucc _ => false
  | .ofNat e =>
    if 308 < e then x.digits ≠ 0
    else Nat.pow 2 1024 - Nat.pow 2 970 ≤ roundBinary x.digits * roundBinary (Nat.pow 10 e)

/-- A number that a double can hold. -/
def number : Reader Numeral := do
  let x ← numeral .truncated
  if !x.whole && x.overflows then fail .malformed else pure x

/-! ## Passing over values -/

/-- The elements of a list, one of which has to come next, and the end of the list. -/
def skipElements (value : Reader Unit) : Nat → Reader Unit
  | 0 => fail .truncated
  | n + 1 => do
    value
    match ← peekPast? with
    | some ',' => do advance; skipElements value n
    | some ']' => advance
    | some _ => fail .malformed
    | none => fail .truncated

/-- The colon between a name and a value. -/
def colon : Reader Unit := do
  match ← peekPast? with
  | some ':' => advance
  | some _ => fail .malformed
  | none => fail .truncated

/-- The members of an object, one of which has to come next, and the end of the object. -/
def skipMembers (value : Reader Unit) : Nat → Reader Unit
  | 0 => fail .truncated
  | n + 1 => do
    match ← peekPast? with
    | some '"' =>
      advance
      skipStringRest
      colon
      value
      match ← peekPast? with
      | some ',' => do advance; skipMembers value n
      | some '}' => advance
      | some _ => fail .malformed
      | none => fail .truncated
    | some _ => fail .malformed
    | none => fail .truncated

/-- Passes over a value with at most `n` levels. Nothing but its grammar is looked at. -/
def skipWithin : Nat → Reader Unit
  | 0 => fail .truncated
  | n + 1 => do
    match ← peekPast? with
    | none => fail .truncated
    | some 'n' => do advance; word ['u', 'l', 'l']
    | some 't' => do advance; word ['r', 'u', 'e']
    | some 'f' => do advance; word ['a', 'l', 's', 'e']
    | some '"' => do advance; skipStringRest
    | some '[' =>
      advance
      match ← peekPast? with
      | some ']' => advance
      | _ => withRounds (skipElements (skipWithin n))
    | some '{' =>
      advance
      match ← peekPast? with
      | some '}' => advance
      | _ => withRounds (skipMembers (skipWithin n))
    | some c =>
      if c = '-' || c.isDigit then do let _ ← numeral .malformed
      else fail .malformed

/-- Passes over any value. -/
def skip : Reader Unit :=
  withRounds skipWithin

end Reader

end Hsm.Json
