import Mathlib
import TypeSchema.Proofs.Lexing.Tiling

/-!
# What a token depends on

A token depends on nothing but the text it covers: read on its own, that text is the one token of the same kind
(`tokenize_covered`), and what the kind says is what the text holds (`TokenKind.IsWritten`).

A text is read line by line exactly if nothing in it is open across lines (`tokenize_append_newline_iff`): templates and
comments that are open go on behind a line feed, and they are the only lexemes that do.
-/

namespace TypeSchema

/-! ## Lexemes on their own -/

namespace Lexeme

/-- An open string is open as well where nothing follows it. -/
theorem quotedBody_value {quote : Char} {cs : List Char} (h : (quotedBody quote cs).closed = false) :
    quotedBody quote (quotedBody quote cs).value = ⟨(quotedBody quote cs).value, false, []⟩ := by
  fun_induction quotedBody quote cs with
  | case1 | case2 | case3 | case6 => simp [quotedBody]
  | case4 c cs hc ih =>
    have hrest := ih h
    simp [Body.push, quotedBody, hc, hrest]
  | case5 => cases h
  | case7 c cs h₁ h₂ hquote hn ih =>
    have hc : c ≠ '\\' := by
      rintro rfl
      cases cs with
      | nil => exact h₁ rfl rfl
      | cons d ds => exact h₂ d ds rfl rfl
    have hrest := ih h
    simp [Body.push, quotedBody, hc, hquote, hn, hrest]

theorem read_openString_alone {c : Char} {cs rest : List Char}
    (h : read c (cs ++ rest) = ⟨.error .openString, c :: cs, rest⟩) :
    read c cs = ⟨.error .openString, c :: cs, []⟩ := by
  have hkind : (read c (cs ++ rest)).kind = .error .openString := congrArg Lexeme.kind h
  obtain ⟨hq, hread⟩ := read_eq_quoted hkind
  have hquoted : read c cs = quoted c cs := by
    rcases hq with rfl | rfl <;> rfl
  rw [hread, quoted] at h
  simp only [mk.injEq, List.cons.injEq, true_and] at h
  obtain ⟨hkind, hcovered, -⟩ := h
  have hopen : (quotedBody c (cs ++ rest)).closed = false := by
    cases hclosed : (quotedBody c (cs ++ rest)).closed with
    | false => rfl
    | true =>
      rw [hclosed] at hkind
      cases hkind
  rw [Body.covered, if_neg (by simp [hopen])] at hcovered
  have hbody := quotedBody_value hopen
  rw [hcovered] at hbody
  simp [hquoted, quoted, hbody, Body.covered]

/-- **A lexeme is read the same where nothing follows it.** -/
theorem read_alone {c : Char} {cs rest : List Char} {kind : TokenKind} (hc : Text.isBlank c = false)
    (h : read c (cs ++ rest) = ⟨kind, c :: cs, rest⟩) : read c cs = ⟨kind, c :: cs, []⟩ := by
  cases he : kind.isError with
  | false =>
    have hspells := (Lexer.spells_of_read hc h he).1
    have hread := read_of_spells hspells (stops_nil kind)
    rwa [List.append_nil] at hread
  | true =>
    cases kind with
    | error fault =>
      cases fault with
      | openString => exact read_openString_alone h
      | openTemplate | openComment =>
        -- the lexeme has taken all of the text
        have hrest := rest_of_open (congrArg Lexeme.kind h) (by decide)
        rw [h] at hrest
        dsimp only at hrest
        rwa [hrest, List.append_nil] at h
    | _ => cases he

end Lexeme

/-! ## Tokens on their own -/

/-- The text is what a token of this kind covers, as far as the kind tells. -/
def TokenKind.IsWritten (kind : TokenKind) (text : List Char) : Prop :=
  match kind with
  | punct p => text = p.symbol
  | ident name => text = name.toList
  | number written | comment written => text = written.toList
  | other c => text = [c]
  | str value quote =>
    text = [quote] ++ value.toList ++ [quote] ∧ quote ∈ ['"', '\''] ∧ Lexeme.QuotedText quote value.toList
  | template value => text = [Lexeme.backquote] ++ value.toList ++ [Lexeme.backquote]
  | docComment written => ∃ body, text = "/**".toList ++ body ++ "*/".toList ∧
      written = String.ofList (Lexeme.docText body)
  | eof => text = []
  | error _ => True

theorem Lexeme.Spells.isWritten {kind : TokenKind} {text : List Char} (h : Spells kind text) :
    kind.IsWritten text := by
  cases h with
  | punct p => rfl
  | ident | number | lineComment => exact String.toList_ofList.symm
  | str hq hb => exact ⟨by simp, by simpa using hq, by rwa [String.toList_ofList]⟩
  | template => simp [TokenKind.IsWritten]
  | @docComment body => exact ⟨body, by simp, rfl⟩
  | blockComment => exact String.toList_ofList.symm
  | other => rfl

namespace Lexer

/-- A token of a run is the only token of the text it covers. -/
theorem Reads.alone {rest w : List Char} {p : Position} {ts : List Token} (h : Reads rest p w ts) :
    ∀ t ∈ ts, Reads [] .origin t.text.toList [.spelled t.kind .origin t.text.toList] := by
  induction h with
  | done => simp
  | blank _ _ ih => exact ih
  | @lexeme kind c cs w p ts hc hread _ ih =>
    intro t ht
    rcases List.mem_cons.1 ht with rfl | ht
    · have halone : Reads [] .origin (c :: (cs ++ [])) [.spelled kind .origin (c :: cs)] := by
        refine .lexeme hc ?_ (.done _)
        have hread' := Lexeme.read_alone hc hread
        simpa using hread'
      simpa [Token.spelled] using halone
    · exact ih t ht

/-- An open template or comment of a run reaches the end of its text. -/
theorem Reads.stop_of_open {w : List Char} {p : Position} {ts : List Token} (h : Reads [] p w ts) :
    ∀ t ∈ ts, ∀ fault, t.kind = .error fault → fault ≠ .openString → t.span.stop = (p.advance w).offset := by
  induction h with
  | done => simp
  | blank _ _ ih => exact ih
  | @lexeme kind c cs w p ts hc hread hrun ih =>
    intro t ht fault hk hf
    rw [← List.cons_append, Position.advance_append]
    rcases List.mem_cons.1 ht with rfl | ht
    · obtain rfl : kind = .error fault := hk
      have hrest := Lexeme.rest_of_open (congrArg Lexeme.kind hread) hf
      rw [hread, List.append_nil] at hrest
      dsimp only at hrest
      rw [hrest]
      rfl
    · exact ih t ht fault hk hf

end Lexer

theorem Token.StandsIn.text_eq {t : Token} {source : String} {before after : List Char}
    (h : t.StandsIn source.toList before after) : t.span.text source = t.text := by
  rw [Span.text, h.start, h.stop, h.source, Text.slice?_append]
  exact String.ofList_toList

/-- **Tokens depend on nothing but their text**: the text that a token covers, read on its own, is the one token of this
kind, and it is what the kind says. -/
theorem tokenize_covered {source : String} {t : Token} (ht : t ∈ (tokenize source).body) :
    (tokenize (t.span.text source)).toList = [.spelled t.kind .origin (t.span.text source).toList,
      .eof (.point (Position.origin.advance (t.span.text source).toList))] ∧
    t.kind.IsWritten (t.span.text source).toList := by
  have hreads := Lexer.reads_tokenize source
  obtain ⟨-, before, after, hstands⟩ := hreads.standsIn (show _ = Position.behind [] from rfl) t ht
  rw [List.nil_append, List.append_nil] at hstands
  rw [hstands.text_eq]
  have hbody := Lexer.tokenize_of_reads (hreads.alone t ht)
  rw [String.ofList_toList] at hbody
  constructor
  · rw [Tokens.toList, hbody, tokenize, Lexer.ofText, Lexer.stop_tokens]
    rfl
  · cases he : t.kind.isError with
    | false => exact (hreads.spells t ht he).isWritten
    | true =>
      cases hk : t.kind with
      | error fault => trivial
      | _ => rw [hk] at he; cases he

/-- A string with a letter of two bytes and an escaped quote in it, right before a comment. -/
theorem tokenize_covered_string :
    ∃ t ∈ (tokenize "x='é\\'b'//c").body, t.kind = .str "é\\'b" '\'' ∧
      (tokenize (t.span.text "x='é\\'b'//c")).toList = [.spelled t.kind .origin (t.span.text "x='é\\'b'//c").toList,
        .eof (.point (Position.origin.advance (t.span.text "x='é\\'b'//c").toList))] ∧
      t.kind.IsWritten (t.span.text "x='é\\'b'//c").toList := by
  have hbody : (tokenize "x='é\\'b'//c").body = [⟨.ident "x", ⟨0, 1, 1, 1⟩, "x"⟩, ⟨.punct .equals, ⟨1, 2, 1, 2⟩, "="⟩,
      ⟨.str "é\\'b" '\'', ⟨2, 9, 1, 3⟩, "'é\\'b'"⟩, ⟨.comment "//c", ⟨9, 12, 1, 9⟩, "//c"⟩] := by cbv
  have ht : ⟨.str "é\\'b" '\'', ⟨2, 9, 1, 3⟩, "'é\\'b'"⟩ ∈ (tokenize "x='é\\'b'//c").body := by
    rw [hbody]
    simp
  exact ⟨_, ht, rfl, tokenize_covered ht⟩

/-! ## Ends of lines -/

theorem closedLines_of_append {s s' : String} {ts : List Token}
    (h : (tokenize (s ++ "\n" ++ s')).toList = (tokenize s).body ++ ts) : Lexer.ClosedLines (tokenize s).body := by
  -- an open lexeme would have to reach the end of both texts
  have hclosed : ∀ t ∈ (tokenize s).body, ∀ fault, fault ≠ .openString → t.kind ≠ .error fault := by
    intro t ht fault hf hk
    have hmem : t ∈ (tokenize (s ++ "\n" ++ s')).body := by
      have hmem : t ∈ (tokenize (s ++ "\n" ++ s')).toList := h ▸ List.mem_append_left ts ht
      rcases List.mem_append.1 hmem with hmem | hmem
      · exact hmem
      · rw [List.mem_singleton.1 hmem] at hk
        cases hk
    have hstop := (Lexer.reads_tokenize s).stop_of_open t ht fault hk hf
    have hstop' := (Lexer.reads_tokenize (s ++ "\n" ++ s')).stop_of_open t hmem fault hk hf
    rw [hstop, Position.offset_advance, Position.offset_advance] at hstop'
    have hnewline : ("\n" : String).toList = ['\n'] := rfl
    have hpos : 0 < ('\n' : Char).utf8Size := by decide
    simp only [String.toList_append, hnewline, Text.byteLength_append, Text.byteLength_cons] at hstop'
    omega
  exact fun t ht => ⟨hclosed t ht _ (by decide), hclosed t ht _ (by decide)⟩

/-- **Reading starts afresh behind a line feed** exactly if no template and no comment is open before it: the tokens are
then those of the text before it without its end, and those of the text behind it, further on by the bytes and lines
before them and in the same columns. -/
theorem tokenize_append_newline_iff (s s' : String) :
    (tokenize (s ++ "\n" ++ s')).toList = (tokenize s).body ++ (tokenize s').toList.map (fun t =>
      { t with span := ⟨t.span.start + (Text.byteLength s.toList + 1), t.span.stop + (Text.byteLength s.toList + 1),
        t.span.line + (s.toList.count '\n' + 1), t.span.column⟩ }) ↔
      ∀ t ∈ (tokenize s).body, t.kind ≠ .error .openTemplate ∧ t.kind ≠ .error .openComment := by
  refine ⟨closedLines_of_append, fun hs => ?_⟩
  rw [tokenize_append_newline hs, Tokens.toList, Tokens.toList, List.map_append, List.append_assoc]
  rfl

end TypeSchema
