import TypeSchema.Proofs.Lexing.Bodies
import TypeSchema.Proofs.Text.Classes

/-!
# Which texts are lexemes

`Spells kind text` says that `text` is a whole lexeme of this kind, and `Stops kind rest` that such a lexeme does not
reach into `rest`.

* `read_of_spells`: a lexeme before a text into which it does not reach is read as that lexeme;
* `fits_read`: every lexeme that is read and is not open arises so;
* `endsIfOpen_read`: an open lexeme reaches the end of its text or of its line.
-/

namespace TypeSchema

namespace Lexeme

open Identifier (isStart isPart isIdentifier)

/-- Whether `c` has no meaning, so that it is a token by itself. -/
def isOther (c : Char) : Bool :=
  (Punct.ofChar? c).isNone && c != '=' && c != '"' && c != '\'' && c != backquote && !c.isDigit && !isStart c
    && !Text.isBlank c

/-- The text is a whole lexeme of this kind. -/
inductive Spells : TokenKind → List Char → Prop
  | punct (p : Punct) : Spells (.punct p) p.symbol
  | ident {cs : List Char} : isIdentifier cs = true → Spells (.ident (String.ofList cs)) cs
  | number {c : Char} {cs : List Char} : c.isDigit = true → cs.all isNumberPart = true →
      Spells (.number (String.ofList (c :: cs))) (c :: cs)
  | str {quote : Char} {body : List Char} : quote = '"' ∨ quote = '\'' → QuotedText quote body →
      Spells (.str (String.ofList body) quote) (quote :: (body ++ [quote]))
  | template {body : List Char} : TemplateText body →
      Spells (.template (String.ofList body)) (backquote :: (body ++ [backquote]))
  | docComment {body : List Char} : CommentText ('*' :: body) →
      Spells (.docComment (String.ofList (docText body))) ('/' :: '*' :: '*' :: (body ++ ['*', '/']))
  | blockComment {body : List Char} : CommentText body → body.head? ≠ some '*' →
      Spells (.comment (String.ofList ('/' :: '*' :: (body ++ ['*', '/'])))) ('/' :: '*' :: (body ++ ['*', '/']))
  | lineComment {cs : List Char} : '\n' ∉ cs →
      Spells (.comment (String.ofList ('/' :: '/' :: cs))) ('/' :: '/' :: cs)
  | other {c : Char} : isOther c = true → Spells (.other c) [c]

/-- A lexeme of this kind does not reach into the text behind it. -/
def Stops (kind : TokenKind) (rest : List Char) : Prop :=
  match kind with
  | .punct .equals => rest.head? ≠ some '>'
  | .ident _ => ∀ c, rest.head? = some c → isPart c = false
  | .number _ => ∀ c, rest.head? = some c → isNumberPart c = false
  | .comment text => ['/', '/'] <+: text.toList → ∀ c, rest.head? = some c → c = '\n'
  | .other '/' => rest.head? ≠ some '/' ∧ rest.head? ≠ some '*'
  | _ => True

/-- Only the first character behind a lexeme matters. -/
theorem stops_congr {kind : TokenKind} {rest rest' : List Char} (h : rest.head? = rest'.head?) :
    Stops kind rest ↔ Stops kind rest' := by
  unfold Stops
  rw [h]

theorem stops_nil (kind : TokenKind) : Stops kind [] := by
  unfold Stops
  split <;> simp

/-! ## Characters with a meaning of their own -/

theorem ofChar?_eq_none_of_isStart {c : Char} (h : isStart c = true) : Punct.ofChar? c = none := by
  unfold Punct.ofChar?
  split
  case h_16 => rfl
  all_goals exact absurd h (by decide)

theorem ofChar?_eq_none_of_isDigit {c : Char} (h : c.isDigit = true) : Punct.ofChar? c = none := by
  unfold Punct.ofChar?
  split
  case h_16 => rfl
  all_goals exact absurd h (by decide)

theorem isStart_eq_false_of_isDigit {c : Char} (h : c.isDigit = true) : isStart c = false := by
  have hn := Text.toNat_of_isDigit h
  have hl : Text.isLetter c = false := by
    rw [Text.isLetter_eq_isAlpha (by omega), Bool.eq_false_iff]
    intro ha
    have hn' := Text.toNat_of_isAlpha ha
    omega
  have h₁ : c ≠ '_' := by rintro rfl; exact absurd h (by decide)
  have h₂ : c ≠ '$' := by rintro rfl; exact absurd h (by decide)
  simp [isStart, hl, h₁, h₂]

/-- A character of a class is none outside of it. -/
theorem ne_of_class {p : Char → Bool} {c d : Char} (h : p c = true) (hd : p d = false) : c ≠ d := by
  rintro rfl
  rw [h] at hd
  cases hd

/-! ## Reading by the first character -/

/-- Where no mark of several characters can start, the first character decides. -/
theorem read_plain {c : Char} (cs : List Char) (h₁ : Punct.ofChar? c = none) (h₂ : c ≠ '=')
    (h₃ : c = '/' → cs.head? ≠ some '/' ∧ cs.head? ≠ some '*') :
    read c cs = if c = '"' ∨ c = '\'' then quoted c cs
      else if c = backquote then templated cs
      else if c.isDigit then run .number isNumberPart (c :: cs)
      else if isStart c then run .ident isPart (c :: cs)
      else ⟨.other c, [c], cs⟩ := by
  unfold read
  rw [h₁]
  dsimp only
  split
  · exact absurd rfl h₂
  · exact absurd rfl h₂
  · exact absurd rfl (h₃ rfl).1
  · exact absurd rfl (h₃ rfl).2
  · rfl

theorem read_equals {cs : List Char} (h : cs.head? ≠ some '>') : read '=' cs = ⟨.punct .equals, ['='], cs⟩ := by
  cases cs with
  | nil => rfl
  | cons d ds =>
    have hd : d ≠ '>' := fun he => h (by rw [he]; rfl)
    simp [read, Punct.ofChar?, hd]

theorem run_append {kind : String → TokenKind} {p : Char → Bool} {w rest : List Char} (hw : ∀ c ∈ w, p c = true)
    (hr : ∀ c, rest.head? = some c → p c = false) :
    run kind p (w ++ rest) = ⟨kind (String.ofList w), w, rest⟩ := by
  have htake : rest.takeWhile p = [] := by
    cases rest with
    | nil => rfl
    | cons c rest => simp [hr c rfl]
  have hdrop : rest.dropWhile p = rest := by
    cases rest with
    | nil => rfl
    | cons c rest => simp [hr c rfl]
  simp only [run, List.takeWhile_append_of_pos hw, List.dropWhile_append_of_pos hw, htake, hdrop, List.append_nil]

theorem read_ident {c : Char} {w rest : List Char} (h : isIdentifier (c :: w) = true)
    (hs : ∀ d, rest.head? = some d → isPart d = false) :
    read c (w ++ rest) = ⟨.ident (String.ofList (c :: w)), c :: w, rest⟩ := by
  rw [isIdentifier, Bool.and_eq_true, List.all_eq_true] at h
  obtain ⟨hc, hw⟩ := h
  have hquote : ¬ (c = '"' ∨ c = '\'') := by
    rintro (h | h)
    · exact ne_of_class hc rfl h
    · exact ne_of_class hc rfl h
  have hdigit : ¬ c.isDigit = true := by
    intro hd
    rw [isStart_eq_false_of_isDigit hd] at hc
    cases hc
  have hslash : c ≠ '/' := ne_of_class hc rfl
  rw [read_plain _ (ofChar?_eq_none_of_isStart hc) (ne_of_class hc rfl) fun h => absurd h hslash, if_neg hquote,
    if_neg (ne_of_class hc rfl), if_neg hdigit, if_pos hc, ← List.cons_append]
  refine run_append (fun d hd => ?_) hs
  rcases List.mem_cons.1 hd with rfl | hd
  · exact Identifier.isPart_of_isStart hc
  · exact hw d hd

theorem read_number {c : Char} {w rest : List Char} (hc : c.isDigit = true) (hw : w.all isNumberPart = true)
    (hs : ∀ d, rest.head? = some d → isNumberPart d = false) :
    read c (w ++ rest) = ⟨.number (String.ofList (c :: w)), c :: w, rest⟩ := by
  have hquote : ¬ (c = '"' ∨ c = '\'') := by
    rintro (h | h)
    · exact ne_of_class hc rfl h
    · exact ne_of_class hc rfl h
  have hslash : c ≠ '/' := ne_of_class hc rfl
  rw [read_plain _ (ofChar?_eq_none_of_isDigit hc) (ne_of_class hc rfl) fun h => absurd h hslash, if_neg hquote,
    if_neg (ne_of_class hc rfl), if_pos hc, ← List.cons_append]
  refine run_append (fun d hd => ?_) hs
  rcases List.mem_cons.1 hd with rfl | hd
  · exact isNumberPart_of_isDigit hc
  · exact List.all_eq_true.1 hw d hd

theorem read_quoted {quote : Char} {body : List Char} (hq : quote = '"' ∨ quote = '\'') (hb : QuotedText quote body)
    (rest : List Char) : read quote (body ++ [quote] ++ rest) =
      ⟨.str (String.ofList body) quote, quote :: (body ++ [quote]), rest⟩ := by
  have hne : quote ≠ '\\' := by rcases hq with rfl | rfl <;> decide
  have hread : read quote (body ++ quote :: rest) = quoted quote (body ++ quote :: rest) := by
    rcases hq with rfl | rfl <;> rfl
  rw [List.append_assoc, List.singleton_append, hread, quoted, quotedBody_append hne hb rest]
  rfl

theorem read_template {body : List Char} (hb : TemplateText body) (rest : List Char) :
    read backquote (body ++ [backquote] ++ rest) =
      ⟨.template (String.ofList body), backquote :: (body ++ [backquote]), rest⟩ := by
  have hread : read backquote (body ++ backquote :: rest) = templated (body ++ backquote :: rest) := rfl
  rw [List.append_assoc, List.singleton_append, hread, templated, templateBody_append hb rest]
  rfl

theorem read_docComment {body : List Char} (hb : CommentText ('*' :: body)) (rest : List Char) :
    read '/' ('*' :: '*' :: (body ++ ['*', '/']) ++ rest) =
      ⟨.docComment (String.ofList (docText body)), '/' :: '*' :: '*' :: (body ++ ['*', '/']), rest⟩ := by
  have hread : read '/' ('*' :: '*' :: (body ++ ['*', '/']) ++ rest) =
      blockComment ('*' :: body ++ '*' :: '/' :: rest) := by
    simp only [List.cons_append, List.append_assoc, List.nil_append]
    rfl
  rw [hread, blockComment, commentBody_append hb rest]
  rfl

theorem read_blockComment {body : List Char} (hb : CommentText body) (hn : body.head? ≠ some '*')
    (rest : List Char) : read '/' ('*' :: (body ++ ['*', '/']) ++ rest) =
      ⟨.comment (String.ofList ('/' :: '*' :: (body ++ ['*', '/']))), '/' :: '*' :: (body ++ ['*', '/']), rest⟩ := by
  have hread : read '/' ('*' :: (body ++ ['*', '/']) ++ rest) = blockComment (body ++ '*' :: '/' :: rest) := by
    simp only [List.cons_append, List.append_assoc, List.nil_append]
    rfl
  rw [hread, blockComment, commentBody_append hb rest]
  cases body with
  | nil => rfl
  | cons d ds =>
    have hd : d ≠ '*' := fun he => hn (by rw [he]; rfl)
    simp [Body.covered, hd]

theorem read_lineComment {cs rest : List Char} (hn : '\n' ∉ cs) (hs : ∀ c, rest.head? = some c → c = '\n') :
    read '/' ('/' :: cs ++ rest) = ⟨.comment (String.ofList ('/' :: '/' :: cs)), '/' :: '/' :: cs, rest⟩ := by
  have hread : read '/' ('/' :: cs ++ rest) = run .comment (· ≠ '\n') ('/' :: '/' :: cs ++ rest) := rfl
  rw [hread]
  refine run_append (fun d hd => ?_) (fun d hd => ?_)
  · simp only [ne_eq, decide_not, Bool.not_eq_true', decide_eq_false_iff_not]
    rintro rfl
    simp [hn] at hd
  · simp [hs d hd]

theorem read_other {c : Char} {rest : List Char} (h : isOther c = true) (hs : Stops (.other c) rest) :
    read c rest = ⟨.other c, [c], rest⟩ := by
  simp only [isOther, Bool.and_eq_true, Option.isNone_iff_eq_none, bne_iff_ne, ne_eq, Bool.not_eq_true'] at h
  obtain ⟨⟨⟨⟨⟨⟨⟨h₁, h₂⟩, h₃⟩, h₄⟩, h₅⟩, h₆⟩, h₇⟩, -⟩ := h
  rw [read_plain _ h₁ h₂ (fun he => by subst he; exact hs)]
  simp [h₃, h₄, h₅, h₆, h₇]

/-- **A lexeme is read as such** before a text into which it does not reach. -/
theorem read_of_spells {kind : TokenKind} {c : Char} {w rest : List Char} (h : Spells kind (c :: w))
    (hs : Stops kind rest) : read c (w ++ rest) = ⟨kind, c :: w, rest⟩ := by
  generalize ht : c :: w = text at h
  cases h with
  | punct p =>
    cases p <;> simp only [Punct.symbol, List.cons.injEq] at ht <;> obtain ⟨rfl, rfl⟩ := ht
    case equals => exact read_equals hs
    all_goals rfl
  | ident hi =>
    subst ht
    exact read_ident hi hs
  | number hd hw =>
    obtain ⟨rfl, rfl⟩ := List.cons.inj ht
    exact read_number hd hw hs
  | str hq hb =>
    obtain ⟨rfl, rfl⟩ := List.cons.inj ht
    exact read_quoted hq hb rest
  | template hb =>
    obtain ⟨rfl, rfl⟩ := List.cons.inj ht
    exact read_template hb rest
  | docComment hb =>
    obtain ⟨rfl, rfl⟩ := List.cons.inj ht
    exact read_docComment hb rest
  | blockComment hb hn =>
    obtain ⟨rfl, rfl⟩ := List.cons.inj ht
    exact read_blockComment hb hn rest
  | lineComment hn =>
    obtain ⟨rfl, rfl⟩ := List.cons.inj ht
    exact read_lineComment hn (hs (by simp))
  | other ho =>
    obtain ⟨rfl, rfl⟩ := List.cons.inj ht
    exact read_other ho hs

/-! ## What is read -/

theorem head?_dropWhile {p : Char → Bool} {cs : List Char} {c : Char} (h : (cs.dropWhile p).head? = some c) :
    p c = false := by
  have hn := List.head?_dropWhile_not p cs
  rwa [h] at hn

/-- The lexeme is spelled as its kind asks and does not reach further. -/
structure Fits (x : Lexeme) : Prop where
  spells : Spells x.kind x.covered
  stops : Stops x.kind x.rest

theorem fits_quoted {c : Char} {cs : List Char} (hc : c = '"' ∨ c = '\'')
    (h : (quotedBody c cs).closed = true) : Fits (quoted c cs) := by
  have ht := quotedText_of_closed h
  constructor
  · simp only [quoted, h, if_true, Body.covered]
    exact .str hc ht
  · simp only [quoted, h, if_true]
    trivial

theorem fits_templated {cs : List Char} (h : (templateBody cs).closed = true) : Fits (templated cs) := by
  have ht := templateText_of_closed h
  constructor
  · simp only [templated, h, if_true, Body.covered]
    exact .template ht
  · simp only [templated, h, if_true]
    trivial

theorem fits_blockComment {cs : List Char} (h : (commentBody cs).closed = true) : Fits (blockComment cs) := by
  have ht := commentText_of_closed h
  cases hb : commentBody cs with
  | mk value closed rest =>
    rw [hb] at h ht
    dsimp only at h ht
    subst h
    unfold blockComment
    rw [hb]
    simp only [if_true, Body.covered]
    split
    · constructor
      · exact .docComment ht
      · trivial
    · rename_i hn
      constructor
      · refine .blockComment ht ?_
        intro hd
        cases value with
        | nil => cases hd
        | cons d ds => cases hd; exact hn ds rfl
      · rintro ⟨t, ht⟩
        simp at ht

theorem fits_lineComment (cs : List Char) : Fits (run .comment (· ≠ '\n') ('/' :: '/' :: cs)) := by
  have hcov : (run .comment (· ≠ '\n') ('/' :: '/' :: cs)).covered = '/' :: '/' :: cs.takeWhile (· ≠ '\n') := by
    simp [run]
  constructor
  · have hk : (run .comment (· ≠ '\n') ('/' :: '/' :: cs)).kind =
        .comment (String.ofList ('/' :: '/' :: cs.takeWhile (· ≠ '\n'))) := by simp [run]
    rw [hk, hcov]
    refine .lineComment fun hm => ?_
    have := List.all_eq_true.1 (List.all_takeWhile (p := (· ≠ '\n')) (l := cs)) _ hm
    simp at this
  · intro _ c hc
    have := head?_dropWhile hc
    simpa using this

theorem stops_other {c : Char} {rest : List Char} (h : c = '/' → rest.head? ≠ some '/' ∧ rest.head? ≠ some '*') :
    Stops (.other c) rest := by
  by_cases hc : c = '/'
  · subst hc
    exact h rfl
  · unfold Stops
    split
    · rename_i heq
      cases heq
    · rename_i heq
      cases heq
    · rename_i heq
      cases heq
    · rename_i heq
      cases heq
    · rename_i heq
      cases heq
      exact absurd rfl hc
    · trivial

/-- Where the first character decides, what is read fits unless it is open. -/
theorem fits_plain {c : Char} {cs : List Char} (hb : Text.isBlank c = false)
    (he : ∀ fault, (read c cs).kind ≠ .error fault) (h₁ : Punct.ofChar? c = none) (h₂ : c ≠ '=')
    (h₃ : c = '/' → cs.head? ≠ some '/' ∧ cs.head? ≠ some '*') : Fits (read c cs) := by
  rw [read_plain cs h₁ h₂ h₃] at he ⊢
  by_cases hq : c = '"' ∨ c = '\''
  · rw [if_pos hq] at he ⊢
    refine fits_quoted hq ?_
    cases hc : (quotedBody c cs).closed with
    | true => rfl
    | false => exact absurd (by simp [quoted, hc]) (he .openString)
  rw [if_neg hq] at he ⊢
  by_cases ht : c = backquote
  · rw [if_pos ht] at he ⊢
    refine fits_templated ?_
    cases hc : (templateBody cs).closed with
    | true => rfl
    | false => exact absurd (by simp [templated, hc]) (he .openTemplate)
  rw [if_neg ht]
  by_cases hd : c.isDigit = true
  · rw [if_pos hd]
    refine ⟨?_, fun d hr => head?_dropWhile hr⟩
    simp only [run, List.takeWhile_cons, isNumberPart_of_isDigit hd, if_true]
    exact .number hd List.all_takeWhile
  rw [if_neg hd]
  by_cases hs : isStart c = true
  · rw [if_pos hs]
    refine ⟨?_, fun d hr => head?_dropWhile hr⟩
    simp only [run, List.takeWhile_cons, Identifier.isPart_of_isStart hs, if_true]
    refine .ident ?_
    rw [isIdentifier, hs, Bool.true_and]
    exact List.all_takeWhile
  · rw [if_neg hs]
    rw [not_or] at hq
    exact ⟨.other (by simp [isOther, h₁, h₂, hq.1, hq.2, ht, hd, hs, hb]), stops_other h₃⟩

/-- A slash before a slash or a star starts a comment. -/
theorem fits_slash {cs : List Char} (he : ∀ fault, (read '/' cs).kind ≠ .error fault)
    (h : cs.head? = some '/' ∨ cs.head? = some '*') : Fits (read '/' cs) := by
  cases cs with
  | nil => rcases h with h | h <;> cases h
  | cons d ds =>
    rcases h with h | h
    · cases h
      exact fits_lineComment ds
    · cases h
      have hread : read '/' ('*' :: ds) = blockComment ds := rfl
      rw [hread] at he ⊢
      refine fits_blockComment ?_
      cases hc : (commentBody ds).closed with
      | true => rfl
      | false => exact absurd (by simp [blockComment, hc]) (he .openComment)

theorem fits_equals (cs : List Char) : Fits (read '=' cs) := by
  by_cases h : cs.head? = some '>'
  · cases cs with
    | nil => cases h
    | cons d ds =>
      cases h
      exact ⟨.punct .arrow, trivial⟩
  · rw [read_equals h]
    exact ⟨.punct .equals, h⟩

theorem fits_punct {c : Char} {cs : List Char} {p : Punct} (hp : Punct.ofChar? c = some p) : Fits (read c cs) := by
  have hread : read c cs = ⟨.punct p, [c], cs⟩ := by
    unfold read
    rw [hp]
  have hs := Punct.symbol_of_ofChar? hp
  rw [hread]
  constructor
  · rw [← hs]
    exact .punct p
  · cases p with
    | equals =>
      simp only [Punct.symbol, List.cons.injEq, and_true] at hs
      subst hs
      cases hp
    | _ => trivial

/-- **A lexeme that is read fits**, unless it is open. -/
theorem fits_read {c : Char} {cs : List Char} (hb : Text.isBlank c = false)
    (he : ∀ fault, (read c cs).kind ≠ .error fault) : Fits (read c cs) := by
  cases hp : Punct.ofChar? c with
  | some p => exact fits_punct hp
  | none =>
    by_cases h₁ : c = '='
    · subst h₁
      exact fits_equals cs
    · by_cases h₂ : c = '/' ∧ (cs.head? = some '/' ∨ cs.head? = some '*')
      · obtain ⟨rfl, h₂⟩ := h₂
        exact fits_slash he h₂
      · refine fits_plain hb he hp h₁ fun hc => ?_
        exact ⟨fun h => h₂ ⟨hc, .inl h⟩, fun h => h₂ ⟨hc, .inr h⟩⟩

/-- If the lexeme is open, then it reaches the end of the text or of the line. -/
def EndsIfOpen (x : Lexeme) : Prop :=
  ∀ fault, x.kind = .error fault → ∀ c, x.rest.head? = some c → c = '\n'

theorem endsIfOpen_quoted (quote : Char) (cs : List Char) : EndsIfOpen (quoted quote cs) := by
  intro fault h c hc
  simp only [quoted] at h hc
  split at h
  · cases h
  · rename_i hopen
    exact rest_of_open_quotedBody (Bool.eq_false_iff.2 hopen) hc

theorem endsIfOpen_templated (cs : List Char) : EndsIfOpen (templated cs) := by
  intro fault h c hc
  simp only [templated] at h hc
  split at h
  · cases h
  · rename_i hopen
    rw [rest_of_open_templateBody (Bool.eq_false_iff.2 hopen)] at hc
    cases hc

theorem endsIfOpen_blockComment (cs : List Char) : EndsIfOpen (blockComment cs) := by
  intro fault h c hc
  simp only [blockComment] at h hc
  split at h
  · split at h <;> cases h
  · rename_i hopen
    rw [rest_of_open_commentBody (Bool.eq_false_iff.2 hopen)] at hc
    cases hc

/-- **An open lexeme** reaches the end of the text, or of the line in the case of a string. -/
theorem endsIfOpen_read (c : Char) (cs : List Char) : EndsIfOpen (read c cs) := by
  unfold read
  split
  · intro fault h
    cases h
  · split
    · intro fault h
      cases h
    · intro fault h
      cases h
    · intro fault h
      cases h
    · exact endsIfOpen_blockComment _
    · split
      · exact endsIfOpen_quoted _ _
      · split
        · exact endsIfOpen_templated _
        · split
          · intro fault h
            cases h
          · split <;> intro fault h <;> cases h

end Lexeme

end TypeSchema
