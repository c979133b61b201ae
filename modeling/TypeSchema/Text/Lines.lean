/-!
# Lines

A line ends at a line feed, and a carriage return right before that line feed belongs to the line
end.  What follows the last line feed is a line of its own unless it is empty.
-/

namespace TypeSchema.Text

/-- The lines of a text, without their ends. -/
def lines : List Char → List (List Char)
  | [] => []
  | '\r' :: '\n' :: cs => [] :: lines cs
  | c :: cs =>
    if c = '\n' then [] :: lines cs
    else
      match lines cs with
      | [] => [[c]]
      | l :: ls => (c :: l) :: ls

end TypeSchema.Text
