import TypeSchema.Proofs.Lexing.Bodies
import TypeSchema.Text.Quoted

/-!
# Escaped texts stay between their marks

* `quotedText_requote`: text without line feeds, made fit for double quotes, may stand between them;
* `quotedText_quoteText`: so may any text that is quoted;
* `commentText_hideCommentEnd`: text with its comment ends hidden may stand in a block comment.
-/

namespace TypeSchema

namespace Lexeme

open Text (requoteChars quoteChar hideCommentEndChars)

/-- **A requoted text stays between its quotes.** -/
theorem quotedText_requote {cs : List Char} (h : '\n' ∉ cs) : QuotedText '"' (requoteChars cs) := by
  fun_induction requoteChars cs with
  | case1 => exact .nil
  | case2 => exact .pair (by decide) .nil
  | case3 c cs ih =>
    simp only [List.mem_cons, not_or] at h
    exact .pair (Ne.symm h.2.1) (ih h.2.2)
  | case4 cs ih =>
    simp only [List.mem_cons, not_or] at h
    exact .pair (by decide) (ih h.2)
  | case5 c cs hlast hpair hquote ih =>
    simp only [List.mem_cons, not_or] at h
    refine .char ?_ hquote (Ne.symm h.1) (ih h.2)
    rintro rfl
    cases cs with
    | nil => exact hlast rfl rfl
    | cons d ds => exact hpair d ds rfl rfl

theorem quotedText_quoteChar (c : Char) {cs : List Char} (h : QuotedText '"' cs) :
    QuotedText '"' (quoteChar c ++ cs) := by
  unfold quoteChar
  split
  · exact .pair (by decide) h
  · exact .pair (by decide) h
  · exact .char (by decide) (by decide) (by decide) h
  · exact .char (by decide) (by decide) (by decide) h
  · rename_i h₁ h₂ h₃ h₄
    exact .char h₁ h₂ h₃ h

/-- **A quoted text stays between its quotes.** -/
theorem quotedText_quoteText (cs : List Char) : QuotedText '"' (cs.flatMap quoteChar) := by
  induction cs with
  | nil => exact .nil
  | cons c cs ih => exact quotedText_quoteChar c ih

theorem head?_hideCommentEndChars (cs : List Char) : (hideCommentEndChars cs).head? = cs.head? := by
  fun_cases hideCommentEndChars cs <;> rfl

theorem commentText_append {cs tail : List Char} (h : '*' ∉ cs) (ht : CommentText tail) : CommentText (cs ++ tail) := by
  induction cs with
  | nil => exact ht
  | cons c cs ih =>
    rw [List.mem_cons, not_or] at h
    exact .cons (fun hc => absurd hc.symm h.1) (ih h.2)

/-- **A text with its comment ends hidden stays inside of its comment.** -/
theorem commentText_hideCommentEnd {tail : List Char} (ht : CommentText tail) (hh : tail.head? ≠ some '/')
    (cs : List Char) : CommentText (hideCommentEndChars cs ++ tail) := by
  fun_induction hideCommentEndChars cs with
  | case1 => exact ht
  | case2 cs ih =>
    exact .cons (by simp) (.cons (by simp) (.cons (by simp) ih))
  | case3 c cs hend ih =>
    refine .cons ?_ ih
    rintro rfl
    cases cs with
    | nil => exact hh
    | cons d ds =>
      have hd : d ≠ '/' := by
        rintro rfl
        exact hend ds rfl rfl
      show (hideCommentEndChars (d :: ds) ++ tail).head? ≠ some '/'
      rw [List.head?_append, head?_hideCommentEndChars]
      simpa using hd

end Lexeme

end TypeSchema
