import Hsm.Json.Reader

/-!
# Reading values of a known shape

A list is read element by element. A record is read from an object, whose members may come in any
order and among unknown ones, or from a list of its fields in order. Lists and records open one
level of nesting each; a reader of something nested is absent where no level is left.
-/

namespace Hsm.Json.Reader

variable {α : Type}

/-- Refuses a value of another shape, after the value itself if it is no list and no object. -/
def refuse : Reader α := do
  match ← peek? with
  | none => fail .truncated
  | some 'n' => do advance; word ['u', 'l', 'l']
  | some 't' => do advance; word ['r', 'u', 'e']
  | some 'f' => do advance; word ['a', 'l', 's', 'e']
  | some '"' => do advance; let _ ← stringRest
  | some '[' | some '{' => pure ()
  | some c =>
    if c = '-' || c.isDigit then do let _ ← number
    else fail .malformed
  fail .mismatch

def string : Reader String := do
  match ← peekPast? with
  | some '"' => do advance; stringRest
  | _ => refuse

def boolean : Reader Bool := do
  match ← peekPast? with
  | some 't' => do advance; word ['r', 'u', 'e']; pure true
  | some 'f' => do advance; word ['a', 'l', 's', 'e']; pure false
  | _ => refuse

/-- A value or null. -/
def optional (value : Reader α) : Reader (Option α) := do
  match ← peekPast? with
  | some 'n' => do advance; word ['u', 'l', 'l']; pure none
  | _ => do
    let a ← value
    pure (some a)

/-- A natural number below `bound`. -/
def natural (bound : Nat) : Reader Nat := do
  match ← peekPast? with
  | some c =>
    if c = '-' || c.isDigit then
      let x ← number
      if x.whole && !x.negative && x.digits < bound then pure x.digits else fail .mismatch
    else refuse
  | none => refuse

/-! ## Lists -/

/-- Whether another element comes before the end of the list, which stays. -/
def hasElement (first : Bool) : Reader Bool := do
  match ← peekPast? with
  | none => fail .truncated
  | some ']' => pure false
  | some ',' =>
    if first then pure true
    else
      advance
      match ← peekPast? with
      | none => fail .truncated
      | some ']' => fail .malformed
      | some _ => pure true
  | some _ => if first then pure true else fail .malformed

def closeList : Reader Unit := do
  match ← peekPast? with
  | none => fail .truncated
  | some ']' => advance
  | some _ => fail .malformed

def elements (item : Reader α) : Bool → Nat → Reader (List α)
  | _, 0 => fail .truncated
  | first, n + 1 => do
    if ← hasElement first then
      let a ← item
      let rest ← elements item false n
      pure (a :: rest)
    else pure []

def list (item : Option (Reader α)) : Reader (List α) := do
  match ← peekPast?, item with
  | some '[', none => fail .malformed
  | some '[', some item =>
    advance
    let as ← withRounds (elements item true)
    closeList
    pure as
  | _, _ => refuse

/-! ## Records -/

/-- The next field of a record written as a list. -/
def field (first : Bool) (value : Reader α) (absent : Option α) : Reader α := do
  if ← hasElement first then value
  else
    match absent with
    | some a => pure a
    | none => fail .mismatch

/-- What a member of an object is to a record of which some fields were read. -/
inductive Member (α : Type)
  | unknown
  | repeated
  /-- Reading the value completes the record by one field. -/
  | known (value : Reader α)

/-- A field that may be set once. -/
def Member.once {β : Type} (field : Option β) (value : Reader β) (set : β → α) : Member α :=
  match field with
  | some _ => .repeated
  | none => .known (do let b ← value; pure (set b))

/-- Whether another member comes before the end of the object, which stays. -/
def hasMember (first : Bool) : Reader Bool := do
  match ← peekPast? with
  | none => fail .truncated
  | some '}' => pure false
  | some '"' => if first then pure true else fail .malformed
  | some ',' =>
    if first then fail .malformed
    else
      advance
      match ← peekPast? with
      | none => fail .truncated
      | some '"' => pure true
      | some _ => fail .malformed
  | some _ => fail .malformed

def members (member : α → String → Member α) : Bool → Nat → α → Reader α
  | _, 0, _ => fail .truncated
  | first, n + 1, partly => do
    if ← hasMember first then
      advance
      let name ← stringRest
      match member partly name with
      | .repeated => fail .mismatch
      | .unknown =>
        colon
        skip
        members member false n partly
      | .known value =>
        colon
        let more ← value
        members member false n more
    else pure partly

/-- A record that starts as `empty` and is complete if `finish` says so. -/
def object {β : Type} (member : α → String → Member α) (empty : α) (finish : α → Option β) :
    Reader β := do
  let partly ← withRounds fun n => members member true n empty
  match finish partly with
  | some b => do advance; pure b
  | none => fail .mismatch

/-- The two forms of a record, after the bracket or brace. -/
structure Record (α : Type) where
  asList : Reader α
  asObject : Reader α

def record (form : Option (Record α)) : Reader α := do
  match ← peekPast?, form with
  | some '[', none | some '{', none => fail .malformed
  | some '[', some form =>
    advance
    let a ← form.asList
    closeList
    pure a
  | some '{', some form => do advance; form.asObject
  | _, _ => refuse

/-- Reads a whole text, with nothing but white space after the value. -/
def run (value : Reader α) (text : String) : Except Flaw α :=
  match (do
    let a ← value
    match ← peekPast? with
    | none => pure a
    | some _ => fail .malformed : Reader α) text.toList with
  | .ok (a, _) => .ok a
  | .error e => .error e

end Hsm.Json.Reader
