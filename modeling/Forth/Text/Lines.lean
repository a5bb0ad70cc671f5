/-!
# Lines of a text

A line ends at a line feed, and a carriage return just before the line feed belongs to the line
end.  A last line without a line feed is a line too, and keeps its carriage return.
-/

namespace Forth.Text

/-- A reversed line without the carriage return at its end. -/
def withoutReturn : List Char → List Char
  | '\r' :: cs => cs
  | cs => cs

/-- The lines of `cs`, where `line` holds the characters of the first one read so far, last
character first. -/
def linesFrom (line : List Char) : List Char → List (List Char)
  | [] => if line.isEmpty then [] else [line.reverse]
  | '\n' :: cs => (withoutReturn line).reverse :: linesFrom [] cs
  | c :: cs => linesFrom (c :: line) cs

/-- The lines of a text, without their ends. -/
def lines (text : String) : List String :=
  (linesFrom [] text.toList).map String.ofList

end Forth.Text
