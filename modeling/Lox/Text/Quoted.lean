import Lox.Text.Printable

/-!
# Quoted names

A name from outside is shown between double quotes.  Quotes, backslashes and
characters that do not show are written as escapes, so the name stays on one
line and its ends can be seen.
-/

namespace Lox.Text

/-- The escape of a character by its number. -/
def codeEscape (c : Char) : List Char :=
  '\\' :: 'u' :: '\x7b' :: Nat.toDigits 16 c.toNat ++ ['\x7d']

/-- A character between quotes. -/
def quoteChar (c : Char) : List Char :=
  match c with
  | '\x00' => ['\\', '0']
  | '\t' => ['\\', 't']
  | '\n' => ['\\', 'n']
  | '\r' => ['\\', 'r']
  | '"' => ['\\', '"']
  | '\x27' => ['\\', '\x27']
  | '\\' => ['\\', '\\']
  | _ => if isPrintable c then [c] else codeEscape c

/-- A text between double quotes. -/
def quote (text : String) : String :=
  "\"" ++ String.ofList (text.toList.flatMap quoteChar) ++ "\""

end Lox.Text
