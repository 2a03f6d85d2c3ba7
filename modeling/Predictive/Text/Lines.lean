/-!
# Lines

A text is cut into lines at its line feeds, and made of lines by putting a line feed after each.
-/

namespace Predictive.Text

/-- Drops a carriage return at the head. -/
def dropReturn : List Char → List Char
  | '\r' :: cs => cs
  | cs => cs

/-- Cuts a text into lines, where `read` is what was read of the current line, newest first. -/
def linesFrom (read : List Char) : List Char → List (List Char)
  | [] => if read.isEmpty then [] else [read.reverse]
  | c :: cs =>
    if c = '\n' then (dropReturn read).reverse :: linesFrom [] cs else linesFrom (c :: read) cs

/-- The lines of a text. A line ends at a line feed, and a carriage return just before it belongs to
the line's end; after the last line feed there is a line only if there is text. -/
def lines (cs : List Char) : List (List Char) := linesFrom [] cs

/-- The text with the given lines. -/
def unlines (lines : List String) : String := String.join (lines.map (· ++ "\n"))

end Predictive.Text
