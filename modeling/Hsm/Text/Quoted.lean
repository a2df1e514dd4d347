/-!
# Quoted text

A text in double quotes, in which a quote, a backslash and the control characters are escaped;
every other character stands for itself.
-/

namespace Hsm.Text

/-- A control character of ASCII or of the block after it. -/
def isControl (c : Char) : Bool :=
  c.toNat < 0x20 || (0x7f ≤ c.toNat && c.toNat < 0xa0)

/-- The written form of one character: a letter escape if it has one, else a control character
by its number in lower-case hexadecimal without padding. -/
def quoteChar (c : Char) : List Char :=
  match c with
  | '"' => ['\\', '"']
  | '\\' => ['\\', '\\']
  | '\n' => ['\\', 'n']
  | '\r' => ['\\', 'r']
  | '\t' => ['\\', 't']
  | '\x00' => ['\\', '0']
  | c => if isControl c then ['\\', 'u', '\x7b'] ++ Nat.toDigits 16 c.toNat ++ ['\x7d'] else [c]

/-- The text in quotes. A debug print by the Unicode tables would also escape, by their numbers,
characters that cannot be printed and ones that extend a grapheme (such as U+00AD, U+200B and
U+0301). Here they stand for themselves, so the two agree on texts without such characters. -/
def quoted (s : String) : String :=
  String.ofList (['"'] ++ s.toList.flatMap quoteChar ++ ['"'])

end Hsm.Text
