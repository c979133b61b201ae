import TypeSchema.Proofs.Lexing.Run
import TypeSchema.Proofs.Text.Collapse

/-!
# Reading squeezed texts

Making every run of blanks one space keeps the shape of a text: lexemes stay lexemes, also those with blanks inside.
Line comments are the exception, since they end with their line.

* `spells_squeeze`: a squeezed lexeme is a lexeme of the same shape;
* `Reads.squeeze`: in a text without line feeds, a squeezed run before further text is a run of the same shape.
-/

namespace TypeSchema

/-- What a token is apart from its text, as far as brackets, comments and errors go. -/
def TokenKind.shape : TokenKind → TokenKind
  | punct p => .punct p
  | comment _ | docComment _ => .comment ""
  | error fault => .error fault
  | _ => .eof

namespace Lexeme

open Text (isBlank squeeze squeeze_cons squeeze_blank squeeze_dropWhile squeeze_append head?_squeeze endsWord)

/-! ## Texts between marks -/

theorem quotedText_squeeze {quote : Char} (hq : isBlank quote = false) {cs : List Char} (h : QuotedText quote cs) :
    QuotedText quote (squeeze cs) := by
  have hne : ' ' ≠ quote := by
    rintro rfl
    exact absurd hq (by decide)
  -- a space may be taken away from the front of such a text, since it is neither a backslash nor the quote
  have htail (ds : List Char) (h : QuotedText quote (' ' :: ds)) : QuotedText quote ds := by
    cases h with
    | char _ _ _ h => exact h
  induction h with
  | nil => exact .nil
  | @pair c cs hc _ ih =>
    rw [squeeze_cons (by decide)]
    cases hb : isBlank c with
    | true =>
      rw [squeeze_blank hb]
      exact .pair (by decide) (squeeze_dropWhile htail ih)
    | false =>
      rw [squeeze_cons hb]
      exact .pair hc ih
  | @char c cs h₁ h₂ h₃ _ ih =>
    cases hb : isBlank c with
    | true =>
      rw [squeeze_blank hb]
      exact .char (by decide) hne (by decide) (squeeze_dropWhile htail ih)
    | false =>
      rw [squeeze_cons hb]
      exact .char h₁ h₂ h₃ ih

theorem templateText_squeeze {cs : List Char} (h : TemplateText cs) : TemplateText (squeeze cs) := by
  have htail (ds : List Char) (h : TemplateText (' ' :: ds)) : TemplateText ds := by
    cases h with
    | char _ _ h => exact h
  induction h with
  | nil => exact .nil
  | @pair c cs _ ih =>
    rw [squeeze_cons (by decide)]
    cases hb : isBlank c with
    | true =>
      rw [squeeze_blank hb]
      exact .pair (squeeze_dropWhile htail ih)
    | false =>
      rw [squeeze_cons hb]
      exact .pair ih
  | @char c cs h₁ h₂ _ ih =>
    cases hb : isBlank c with
    | true =>
      rw [squeeze_blank hb]
      exact .char (by decide) (by decide) (squeeze_dropWhile htail ih)
    | false =>
      rw [squeeze_cons hb]
      exact .char h₁ h₂ ih

/-- A mark that is not blank stands at the front of a squeezed text iff it does so in the text. -/
theorem head?_squeeze_eq_some_iff {cs : List Char} {c : Char} (hc : isBlank c = false) :
    (squeeze cs).head? = some c ↔ cs.head? = some c := by
  rw [head?_squeeze]
  cases cs with
  | nil => simp
  | cons d ds =>
    simp only [List.head?_cons, Option.map_some, Option.some.injEq]
    cases hd : isBlank d with
    | true =>
      rw [if_pos rfl]
      constructor
      · rintro rfl
        exact absurd hc (by decide)
      · rintro rfl
        rw [hc] at hd
        cases hd
    | false => simp

theorem commentText_squeeze {cs : List Char} (h : CommentText cs) : CommentText (squeeze cs) := by
  have htail (ds : List Char) (h : CommentText (' ' :: ds)) : CommentText ds := by
    cases h with
    | cons _ h => exact h
  induction h with
  | nil => exact .nil
  | @cons c cs hc _ ih =>
    cases hb : isBlank c with
    | true =>
      rw [squeeze_blank hb]
      exact .cons (fun h => absurd h (by decide)) (squeeze_dropWhile htail ih)
    | false =>
      rw [squeeze_cons hb]
      refine .cons (fun he hd => hc he ?_) ih
      rwa [head?_squeeze_eq_some_iff (by decide)] at hd

/-! ## Lexemes -/

theorem head_of_squeeze {p : Char → Bool} (hspace : p ' ' = false) {rest : List Char}
    (h : ∀ c, rest.head? = some c → p c = false) : ∀ c, (squeeze rest).head? = some c → p c = false := by
  intro c hc
  rw [head?_squeeze] at hc
  obtain ⟨d, hd, rfl⟩ := Option.map_eq_some_iff.1 hc
  split
  · exact hspace
  · exact h d hd

/-- Squeezing what follows does not let a lexeme reach further, unless it is a comment. -/
theorem stops_squeeze {kind : TokenKind} (hk : kind.isComment = false) {rest : List Char} (h : Stops kind rest) :
    Stops kind (squeeze rest) := by
  unfold Stops at h ⊢
  split at h
  · rwa [Ne, head?_squeeze_eq_some_iff (by decide)]
  · exact head_of_squeeze (by decide) h
  · exact head_of_squeeze (by decide) h
  · cases hk
  · rwa [Ne, Ne, head?_squeeze_eq_some_iff (by decide), head?_squeeze_eq_some_iff (by decide)]
  · trivial

theorem isBlank_eq_false_of_isNumberPart {c : Char} (h : isNumberPart c = true) : isBlank c = false := by
  simp only [isNumberPart, Bool.or_eq_true, beq_iff_eq] at h
  rcases h with (h | rfl) | rfl
  · exact Text.isBlank_eq_false_of_isAlphanum h
  · decide
  · decide

/-- A lexeme without blanks is the same when squeezed. -/
theorem squeeze_of_word {kind : TokenKind} {w : List Char} (h : Spells kind w) (hw : Text.isWord w = true)
    (hk : kind.isComment = false) : endsWord w = true ∧ ∃ kind', Spells kind' (squeeze w) ∧
      kind'.shape = kind.shape ∧ ∀ rest, Stops kind rest → Stops kind' (squeeze rest) := by
  refine ⟨Text.endsWord_of_isWord hw, kind, ?_, rfl, fun rest => stops_squeeze hk⟩
  rwa [Text.squeeze_of_isWord hw]

/-- Between marks, only the text inside is squeezed. -/
theorem squeeze_marked {opening closing : List Char} (ho : Text.isWord opening = true)
    (hc : Text.isWord closing = true) (body : List Char) :
    squeeze (opening ++ (body ++ closing)) = opening ++ (squeeze body ++ closing) := by
  rw [squeeze_append (.inl (Text.endsWord_of_isWord ho)), squeeze_append (.inr (Text.startsWord_of_isWord hc)),
    Text.squeeze_of_isWord ho, Text.squeeze_of_isWord hc]

/-- The blanks of a lexeme stand between its marks, and not at its end; a line comment has no mark at its end. -/
theorem spells_squeeze {kind : TokenKind} {w : List Char} (h : Spells kind w) (hl : ¬ ['/', '/'] <+: w) :
    endsWord w = true ∧ ∃ kind', Spells kind' (squeeze w) ∧ kind'.shape = kind.shape ∧
      ∀ rest, Stops kind rest → Stops kind' (squeeze rest) := by
  cases h with
  | punct p =>
    refine squeeze_of_word (.punct p) ?_ rfl
    cases p <;> decide
  | ident hi =>
    refine squeeze_of_word (.ident hi) ?_ rfl
    cases w with
    | nil => cases hi
    | cons c cs =>
      rw [Identifier.isIdentifier, Bool.and_eq_true, List.all_eq_true] at hi
      exact Text.isWord_cons.2 ⟨Identifier.isBlank_eq_false_of_isStart hi.1,
        fun d hd => Identifier.isBlank_eq_false_of_isPart (hi.2 d hd)⟩
  | number hd hw =>
    have hdigit := Text.isBlank_eq_false_of_isDigit hd
    refine squeeze_of_word (.number hd hw) (Text.isWord_cons.2 ⟨hdigit, fun d hm => ?_⟩) rfl
    exact isBlank_eq_false_of_isNumberPart (List.all_eq_true.1 hw d hm)
  | @str quote body hq hb =>
    have hblank : isBlank quote = false := by rcases hq with rfl | rfl <;> decide
    have hmark : Text.isWord [quote] = true := Text.isWord_cons.2 ⟨hblank, by simp⟩
    refine ⟨Text.endsWord_append (Text.endsWord_of_isWord hmark) (quote :: body),
      .str (String.ofList (squeeze body)) quote, ?_, rfl, fun _ _ => trivial⟩
    have hs := squeeze_marked hmark hmark body
    rw [List.singleton_append] at hs
    rw [hs]
    exact .str hq (quotedText_squeeze hblank hb)
  | @template body hb =>
    have hmark : Text.isWord [backquote] = true := by decide
    refine ⟨Text.endsWord_append (Text.endsWord_of_isWord hmark) (backquote :: body),
      .template (String.ofList (squeeze body)), ?_, rfl, fun _ _ => trivial⟩
    have hs := squeeze_marked hmark hmark body
    rw [List.singleton_append] at hs
    rw [hs]
    exact .template (templateText_squeeze hb)
  | @docComment body hb =>
    have hopening : Text.isWord ['/', '*', '*'] = true := by decide
    have hclosing : Text.isWord ['*', '/'] = true := by decide
    refine ⟨Text.endsWord_append (Text.endsWord_of_isWord hclosing) ('/' :: '*' :: '*' :: body),
      .docComment (String.ofList (docText (squeeze body))), ?_, rfl, fun _ _ => trivial⟩
    have hs := squeeze_marked hopening hclosing body
    have hb' := commentText_squeeze hb
    rw [squeeze_cons (by decide)] at hb'
    change Spells _ (squeeze (['/', '*', '*'] ++ (body ++ ['*', '/'])))
    rw [hs]
    exact .docComment hb'
  | @blockComment body hb hn =>
    have hopening : Text.isWord ['/', '*'] = true := by decide
    have hclosing : Text.isWord ['*', '/'] = true := by decide
    refine ⟨Text.endsWord_append (Text.endsWord_of_isWord hclosing) ('/' :: '*' :: body),
      .comment (String.ofList ('/' :: '*' :: (squeeze body ++ ['*', '/']))), ?_, rfl, ?_⟩
    · have hs := squeeze_marked hopening hclosing body
      change Spells _ (squeeze (['/', '*'] ++ (body ++ ['*', '/'])))
      rw [hs]
      refine .blockComment (commentText_squeeze hb) ?_
      rwa [Ne, head?_squeeze_eq_some_iff (by decide)]
    · rintro rest - ⟨t, ht⟩
      simp at ht
  | lineComment => exact absurd ⟨_, rfl⟩ hl
  | @other c ho =>
    refine squeeze_of_word (.other ho) ?_ rfl
    simp only [isOther, Bool.and_eq_true, Bool.not_eq_true'] at ho
    exact Text.isWord_cons.2 ⟨ho.2, by simp⟩

/-- Only line comments start with two slashes. -/
theorem kind_of_slashes {kind : TokenKind} {w : List Char} (h : Spells kind w) (hl : ['/', '/'] <+: w) :
    kind = .comment (String.ofList w) := by
  obtain ⟨t, rfl⟩ := hl
  generalize hw : ['/', '/'] ++ t = w at h
  cases h with
  | punct p => cases p <;> cases hw
  | ident hi =>
    subst hw
    rw [List.cons_append, Identifier.isIdentifier, Bool.and_eq_true] at hi
    exact absurd hi.1 (by decide)
  | number hd =>
    cases hw
    exact absurd hd (by decide)
  | str hq =>
    obtain ⟨rfl, -⟩ := List.cons.inj hw
    exact absurd hq (by decide)
  | template => cases hw
  | docComment => cases hw
  | blockComment => cases hw
  | lineComment => rfl
  | other => cases hw

end Lexeme

namespace Lexer

open Lexeme (Spells Stops)

/-- In a text without line feeds, a lexeme before further text is closed and is no line comment. -/
theorem spells_of_read_before {c : Char} {cs covered rest : List Char} {kind : TokenKind}
    (hc : Text.isBlank c = false) (hread : Lexeme.read c cs = ⟨kind, covered, rest⟩) (hrest : rest ≠ [])
    (hn : '\n' ∉ rest) :
    kind.isError = false ∧ Spells kind covered ∧ Stops kind rest ∧ ¬ ['/', '/'] <+: covered := by
  obtain ⟨d, ds, rfl⟩ := List.exists_cons_of_ne_nil hrest
  have hd : d ≠ '\n' := by
    rintro rfl
    exact hn List.mem_cons_self
  have he : kind.isError = false := by
    cases kind with
    | error fault =>
      have hopen := Lexeme.endsIfOpen_read c cs
      rw [hread] at hopen
      exact absurd (hopen fault rfl d rfl) hd
    | _ => rfl
  obtain ⟨hspells, hstops⟩ := spells_of_read hc hread he
  refine ⟨he, hspells, hstops, fun hl => ?_⟩
  rw [Lexeme.kind_of_slashes hspells hl] at hstops
  exact hd (hstops (by rwa [String.toList_ofList]) d rfl)

/-- **A squeezed run** before further text, without line feeds, has no open lexemes and is a run of the same shape. -/
theorem Reads.squeeze {w rest : List Char} {p : Position} {ts : List Token} (h : Reads rest p w ts)
    (hrest : rest ≠ []) (hn : '\n' ∉ w ++ rest) :
    (∀ t ∈ ts, t.kind.isError = false ∧ Text.endsWord t.text.toList = true) ∧
      ∀ p', ∃ ts', Reads [] p' (Text.squeeze w) ts' ∧
        ts'.map (fun t => t.kind.shape) = ts.map fun t => t.kind.shape := by
  induction h with
  | done p => exact ⟨by simp, fun p' => ⟨[], .done _, rfl⟩⟩
  | @blank c w p ts hc _ ih =>
    obtain ⟨he, hrun⟩ := ih fun hm => hn (List.mem_cons_of_mem _ hm)
    refine ⟨he, fun p' => ?_⟩
    rw [Text.squeeze, if_pos hc]
    split
    · exact hrun p'
    · obtain ⟨ts', hr, hk⟩ := hrun (p'.next ' ')
      exact ⟨ts', .blank (by decide) hr, hk⟩
  | @lexeme kind c cs w p ts hc hread _ ih =>
    have hn' : '\n' ∉ w ++ rest := by
      intro hm
      refine hn ?_
      rw [List.cons_append, List.append_assoc]
      exact List.mem_cons_of_mem _ (List.mem_append_right _ hm)
    obtain ⟨he, hspells, hstops, hl⟩ := spells_of_read_before hc hread (by simp [hrest]) hn'
    obtain ⟨hes, hrun⟩ := ih hn'
    obtain ⟨hends, kind', hspells', hshape, hstops'⟩ := Lexeme.spells_squeeze hspells hl
    refine ⟨?_, fun p' => ?_⟩
    · intro t ht
      rcases List.mem_cons.1 ht with rfl | ht
      · exact ⟨he, by simpa [Token.spelled] using hends⟩
      · exact hes t ht
    · obtain ⟨ts', hr, hk⟩ := hrun (p'.advance (Text.squeeze (c :: cs)))
      refine ⟨.spelled kind' p' (Text.squeeze (c :: cs)) :: ts', ?_, by simp [hshape, hk]⟩
      rw [← List.cons_append, Text.squeeze_append (.inl hends)]
      refine (reads_spelled hspells' ?_ p').trans hr
      rw [List.append_nil]
      -- if nothing follows any more, nothing can be reached into
      cases w with
      | nil => exact Lexeme.stops_nil _
      | cons d ds =>
        refine (Lexeme.stops_congr ?_).1 (hstops' _ hstops)
        rw [Text.head?_squeeze, Text.head?_squeeze]
        rfl

end Lexer

end TypeSchema
