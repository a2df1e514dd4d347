/-!
# Writing JSON

Compact texts: no white space, and in strings no more escapes than JSON asks for.
-/

namespace Hsm.Json

def hexDigit (n : Nat) : Char :=
  Nat.digitChar n

/-- The written form of a character in a string. -/
def escapeChar (c : Char) : List Char :=
  match c with
  | '"' => ['\\', '"']
  | '\\' => ['\\', '\\']
  | '\x08' => ['\\', 'b']
  | '\x0c' => ['\\', 'f']
  | '\n' => ['\\', 'n']
  | '\r' => ['\\', 'r']
  | '\t' => ['\\', 't']
  | c =>
    if c.toNat < 0x20 then
      ['\\', 'u', '0', '0', hexDigit (c.toNat / 16), hexDigit (c.toNat % 16)]
    else [c]

def string (s : String) : String :=
  String.ofList (['"'] ++ s.toList.flatMap escapeChar ++ ['"'])

def boolean (b : Bool) : String :=
  if b then "true" else "false"

def list (items : List String) : String :=
  "[" ++ ",".intercalate items ++ "]"

/-- An object of members in order. -/
def object (members : List (String × String)) : String :=
  "\x7b" ++ ",".intercalate (members.map fun m => string m.1 ++ ":" ++ m.2) ++ "\x7d"

end Hsm.Json
