/-!
# Lines of a text

A line ends at a line feed, which a carriage return may precede; neither is
part of it.  A text that does not end in a line feed ends with one more line.
-/

namespace Lox.Text

/-- Cuts the line feed at the end of a line, and a carriage return before
it. -/
def chomp (line : String) : String :=
  match line.toList.reverse with
  | '\n' :: '\r' :: rest => String.ofList rest.reverse
  | '\n' :: rest => String.ofList rest.reverse
  | _ => line

/-- Cuts a text behind every line feed.  `current` is the line so far,
backwards. -/
def cutLines (current : List Char) (found : List String) :
    List Char → List String
  | [] =>
    if current.isEmpty then found.reverse
    else (String.ofList current.reverse :: found).reverse
  | '\n' :: rest =>
    cutLines [] (String.ofList ('\n' :: current).reverse :: found) rest
  | c :: rest => cutLines (c :: current) found rest

/-- The lines of a text. -/
def lines (text : String) : List String :=
  (cutLines [] [] text.toList).map chomp

end Lox.Text
