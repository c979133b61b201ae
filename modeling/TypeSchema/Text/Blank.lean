import TypeSchema.Text.CharClass

/-!
# Blank characters and the words between them

* `isBlank`: the Unicode property `White_Space`.
* `words`, `collapse`: the maximal runs without blanks, and the text with one space between them.
* `trim`: a text without the blanks at its two ends.
-/

namespace TypeSchema.Text

/-- The characters with the property `White_Space`. -/
def blanks : CharClass := ⟨[
  (0x9, 0xd), (0x20, 0x20), (0x85, 0x85), (0xa0, 0xa0), (0x1680, 0x1680), (0x2000, 0x200a),
  (0x2028, 0x2029), (0x202f, 0x202f), (0x205f, 0x205f), (0x3000, 0x3000)]⟩

/-- Whether `c` is blank. -/
def isBlank (c : Char) : Bool := blanks.contains c

theorem isBlank_of_isWhitespace {c : Char} (h : c.isWhitespace) : isBlank c := by
  simp only [Char.isWhitespace, Bool.or_eq_true, decide_eq_true_eq] at h
  rcases h with ((h | h) | h) | h <;> subst h <;> decide

/-- Whether a text starts with a character that is not blank. -/
def startsWord : List Char → Bool
  | [] => false
  | c :: _ => !isBlank c

/-- The maximal runs of characters that are not blank, in order. -/
def words : List Char → List (List Char)
  | [] => []
  | c :: cs =>
    if isBlank c then words cs
    else if startsWord cs then
      match words cs with
      | [] => [[c]]
      | w :: ws => (c :: w) :: ws
    else [c] :: words cs

/-- The words of a text with a single space between them. -/
def collapseChars (cs : List Char) : List Char := [' '].intercalate (words cs)

/-- The text with every run of blanks made one space, and none at its ends. -/
def collapse (text : String) : String := String.ofList (collapseChars text.toList)

/-- The text without the blanks at its start and at its end. -/
def trim (cs : List Char) : List Char :=
  ((cs.dropWhile isBlank).reverse.dropWhile isBlank).reverse

end TypeSchema.Text
