import Lox.Number

/-!
# JSON documents

The documents in which expression trees are written out.  Members of an
object keep the order they were given in.  `Json.pretty` writes a document
with two spaces of indentation per level.
-/

namespace Lox

/-- A JSON document.  Whole numbers such as lines and ids are kept apart from
doubles. -/
inductive Json where
  | null
  | count (n : Nat)
  | number (value : Float)
  | text (content : String)
  | array (items : List Json)
  | object (members : List (String × Json))

namespace Json

/-- The two lowercase hexadecimal digits of a small number. -/
def hexByte (n : Nat) : List Char :=
  [Nat.digitChar (n / 16 % 16), Nat.digitChar (n % 16)]

/-- A character inside a JSON string: quotes, backslashes and control
characters are escaped, all others stand for themselves. -/
def escape (c : Char) : List Char :=
  match c with
  | '"' => ['\\', '"']
  | '\\' => ['\\', '\\']
  | '\x08' => ['\\', 'b']
  | '\x0c' => ['\\', 'f']
  | '\n' => ['\\', 'n']
  | '\r' => ['\\', 'r']
  | '\t' => ['\\', 't']
  | _ =>
    if c.toNat < 0x20 then '\\' :: 'u' :: '0' :: '0' :: hexByte c.toNat
    else [c]

/-- A JSON string with its quotes. -/
def quote (content : String) : String :=
  "\"" ++ String.ofList (content.toList.flatMap escape) ++ "\""

/-- A line end and the indentation of a level. -/
def newline (level : Nat) : String :=
  "\n" ++ String.ofList (List.replicate (2 * level) ' ')

mutual

/-- A document at a level of indentation. -/
def prettyAt (level : Nat) : Json → String
  | null => "null"
  | count n => toString n
  | number value => Number.jsonText value
  | text content => quote content
  | array [] => "[]"
  | array (item :: rest) =>
    "[" ++ newline (level + 1) ++ prettyAt (level + 1) item
      ++ prettyItems (level + 1) rest ++ newline level ++ "]"
  | object [] => "\x7b\x7d"
  | object ((key, value) :: rest) =>
    "\x7b" ++ newline (level + 1) ++ quote key ++ ": "
      ++ prettyAt (level + 1) value
      ++ prettyMembers (level + 1) rest ++ newline level ++ "\x7d"

/-- The items of an array after the first. -/
def prettyItems (level : Nat) : List Json → String
  | [] => ""
  | item :: rest =>
    "," ++ newline level ++ prettyAt level item ++ prettyItems level rest

/-- The members of an object after the first. -/
def prettyMembers (level : Nat) : List (String × Json) → String
  | [] => ""
  | (key, value) :: rest =>
    "," ++ newline level ++ quote key ++ ": " ++ prettyAt level value
      ++ prettyMembers level rest

end

/-- A whole document. -/
def pretty (document : Json) : String :=
  document.prettyAt 0

end Json

end Lox
