import TypeSchema.Text.Letter
import TypeSchema.Text.Numeral

/-!
# Identifiers

An identifier starts with a letter, an underscore or a dollar sign; numerals may follow.
-/

namespace TypeSchema.Identifier

/-- Whether an identifier may start with `c`. -/
def isStart (c : Char) : Bool := Text.isLetter c || c == '_' || c == '$'

/-- Whether `c` may stand in an identifier behind its first character. -/
def isPart (c : Char) : Bool := Text.isLetter c || Text.isNumeral c || c == '_' || c == '$'

theorem isPart_of_isStart {c : Char} (h : isStart c) : isPart c := by
  simp only [isStart, isPart, Bool.or_eq_true] at h ⊢
  rcases h with (h | h) | h <;> simp [h]

/-- Whether the whole text is one identifier. -/
def isIdentifier : List Char → Bool
  | [] => false
  | c :: cs => isStart c && cs.all isPart

end TypeSchema.Identifier
