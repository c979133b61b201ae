import TypeSchema.Token.Lexer

/-!
# Text between an opening and a closing mark

For strings, templates and block comments: which texts may stand between the marks (`QuotedText`, `TemplateText`,
`CommentText`), that such a text is read up to its mark whatever follows (`quotedBody_append` and its siblings), and
that every closed body is such a text (`quotedText_of_closed` and its siblings).  A body that is not closed reaches the
end of the text, or a line feed in the case of a string.
-/

namespace TypeSchema

namespace Lexeme

/-! ## Strings -/

/-- Text that may stand between two quotes: escaped pairs, and characters that are neither a backslash nor the quote;
no line feeds. -/
inductive QuotedText (quote : Char) : List Char → Prop
  | nil : QuotedText quote []
  | pair {c : Char} {cs : List Char} : c ≠ '\n' → QuotedText quote cs → QuotedText quote ('\\' :: c :: cs)
  | char {c : Char} {cs : List Char} : c ≠ '\\' → c ≠ quote → c ≠ '\n' → QuotedText quote cs →
      QuotedText quote (c :: cs)

theorem quotedBody_append {quote : Char} (hq : quote ≠ '\\') {body : List Char} (h : QuotedText quote body)
    (rest : List Char) : quotedBody quote (body ++ quote :: rest) = ⟨body, true, rest⟩ := by
  induction h with
  | nil => simp [quotedBody, hq]
  | pair hc _ ih => simp [quotedBody, hc, ih, Body.push]
  | char h₁ h₂ h₃ _ ih => simp [quotedBody, h₁, h₂, h₃, ih, Body.push]

theorem quotedText_of_closed {quote : Char} {cs : List Char} (h : (quotedBody quote cs).closed = true) :
    QuotedText quote (quotedBody quote cs).value := by
  fun_induction quotedBody quote cs with
  | case1 => cases h
  | case2 => cases h
  | case3 => cases h
  | case4 c cs hc ih => exact .pair hc (ih h)
  | case5 => exact .nil
  | case6 => cases h
  | case7 c cs h₁ h₂ hq hn ih =>
    refine .char ?_ hq hn (ih h)
    rintro rfl
    cases cs with
    | nil => exact h₁ rfl rfl
    | cons d ds => exact h₂ d ds rfl rfl

theorem newline_not_mem_quotedText {quote : Char} {body : List Char} (h : QuotedText quote body) : '\n' ∉ body := by
  induction h with
  | nil => simp
  | pair hc _ ih => simp [Ne.symm hc, ih]
  | char _ _ hn _ ih => simp [Ne.symm hn, ih]

/-- An open string ends before a line feed or at the end of the text. -/
theorem rest_of_open_quotedBody {quote : Char} {cs : List Char} (h : (quotedBody quote cs).closed = false)
    {c : Char} (hc : (quotedBody quote cs).rest.head? = some c) : c = '\n' := by
  fun_induction quotedBody quote cs with
  | case1 => cases hc
  | case2 => cases hc
  | case3 cs => exact (Option.some.inj hc).symm
  | case4 c' cs _ ih => exact ih h hc
  | case5 => cases h
  | case6 cs => exact (Option.some.inj hc).symm
  | case7 c' cs _ _ _ _ ih => exact ih h hc

/-! ## Templates -/

/-- Text that may stand between two backquotes. -/
inductive TemplateText : List Char → Prop
  | nil : TemplateText []
  | pair {c : Char} {cs : List Char} : TemplateText cs → TemplateText ('\\' :: c :: cs)
  | char {c : Char} {cs : List Char} : c ≠ '\\' → c ≠ backquote → TemplateText cs → TemplateText (c :: cs)

theorem templateBody_append {body : List Char} (h : TemplateText body) (rest : List Char) :
    templateBody (body ++ backquote :: rest) = ⟨body, true, rest⟩ := by
  induction h with
  | nil => simp [templateBody, backquote]
  | pair _ ih => simp [templateBody, ih, Body.push]
  | char h₁ h₂ _ ih => simp [templateBody, h₁, h₂, ih, Body.push]

theorem templateText_of_closed {cs : List Char} (h : (templateBody cs).closed = true) :
    TemplateText (templateBody cs).value := by
  fun_induction templateBody cs with
  | case1 => cases h
  | case2 => cases h
  | case3 c cs ih => exact .pair (ih h)
  | case4 => exact .nil
  | case5 c cs h₁ h₂ hq ih =>
    refine .char ?_ hq (ih h)
    rintro rfl
    cases cs with
    | nil => exact h₁ rfl rfl
    | cons d ds => exact h₂ d ds rfl rfl

theorem rest_of_open_templateBody {cs : List Char} (h : (templateBody cs).closed = false) :
    (templateBody cs).rest = [] := by
  fun_induction templateBody cs with
  | case1 => rfl
  | case2 => rfl
  | case3 c cs ih => exact ih h
  | case4 => cases h
  | case5 c cs _ _ _ ih => exact ih h

/-! ## Block comments -/

/-- Text in which no star stands before a slash. -/
inductive CommentText : List Char → Prop
  | nil : CommentText []
  | cons {c : Char} {cs : List Char} : (c = '*' → cs.head? ≠ some '/') → CommentText cs → CommentText (c :: cs)

theorem commentBody_cons {c : Char} {cs : List Char} (h : c = '*' → cs.head? ≠ some '/') :
    commentBody (c :: cs) = (commentBody cs).push [c] := by
  rw [commentBody.eq_3]
  rintro ds rfl rfl
  exact h rfl rfl

theorem commentBody_append {body : List Char} (h : CommentText body) (rest : List Char) :
    commentBody (body ++ '*' :: '/' :: rest) = ⟨body, true, rest⟩ := by
  induction h with
  | nil => rfl
  | @cons c cs hc _ ih =>
    rw [List.cons_append, commentBody_cons, ih]
    · rfl
    · intro hs
      cases cs with
      | nil => simp
      | cons d ds => exact hc hs

theorem commentText_of_closed {cs : List Char} (h : (commentBody cs).closed = true) :
    CommentText (commentBody cs).value := by
  fun_induction commentBody cs with
  | case1 => cases h
  | case2 => exact .nil
  | case3 c cs hs ih =>
    refine .cons ?_ (ih h)
    rintro rfl hd
    -- the body starts as the text does, so a slash would have closed the comment here
    have hcov := commentBody_covered cs
    have hclosed : (commentBody cs).closed = true := h
    rw [Body.covered, if_pos hclosed] at hcov
    cases hv : (commentBody cs).value with
    | nil => rw [hv] at hd; cases hd
    | cons d ds =>
      rw [hv] at hd hcov
      cases hd
      exact hs _ rfl hcov.symm

theorem rest_of_open_commentBody {cs : List Char} (h : (commentBody cs).closed = false) :
    (commentBody cs).rest = [] := by
  fun_induction commentBody cs with
  | case1 => rfl
  | case2 => cases h
  | case3 c cs _ ih => exact ih h

end Lexeme

end TypeSchema
