import TypeSchema.Proofs.Lexing.Run

/-!
# Reading at another place

A `Relocation` changes byte offsets and lines and keeps their order.  Shifting the position at which a text starts
shifts its tokens (`Reads.shift`), and every lexeme that is not open across lines ends at a line feed as it ends at the
end of the text (`Reads.before_newline`).  So a text is read line by line: the tokens of a text, a line feed and a
second text are those of the first text and those of the second one, shifted (`tokenize_append_newline`).
-/

namespace TypeSchema

/-- A change of places that keeps their order. -/
structure Relocation where
  offset : Nat → Nat
  line : Nat → Nat
  offset_lt {m n : Nat} : m < n → offset m < offset n
  line_lt {m n : Nat} : m < n → line m < line n

namespace Relocation

/-- The span at its new place. -/
def span (r : Relocation) (s : Span) : Span := ⟨r.offset s.start, r.offset s.stop, r.line s.line, s.column⟩

/-- The position at its new place. -/
def position (r : Relocation) (p : Position) : Position := ⟨r.offset p.offset, r.line p.line, p.column⟩

/-- The token at its new place. -/
def token (r : Relocation) (t : Token) : Token := { t with span := r.span t.span }

/-- Further on in a text, by this number of bytes and lines. -/
def shift (bytes lines : Nat) : Relocation where
  offset n := n + bytes
  line n := n + lines
  offset_lt h := by omega
  line_lt h := by omega

section

variable (r : Relocation) (t : Token)

theorem offset_lt_iff {m n : Nat} : r.offset m < r.offset n ↔ m < n := by
  refine ⟨fun h => ?_, r.offset_lt⟩
  by_cases hlt : n < m
  · have := r.offset_lt hlt
    omega
  · have hne : m ≠ n := by
      rintro rfl
      omega
    omega

theorem line_lt_iff {m n : Nat} : r.line m < r.line n ↔ m < n := by
  refine ⟨fun h => ?_, r.line_lt⟩
  by_cases hlt : n < m
  · have := r.line_lt hlt
    omega
  · have hne : m ≠ n := by
      rintro rfl
      omega
    omega

@[simp] theorem kind_token : (r.token t).kind = t.kind := rfl

@[simp] theorem text_token : (r.token t).text = t.text := rfl

@[simp] theorem span_token : (r.token t).span = r.span t.span := rfl

@[simp] theorem isPunct_token (p : Punct) : (r.token t).isPunct p = t.isPunct p := rfl

@[simp] theorem isIdent_token (name : String) : (r.token t).isIdent name = t.isIdent name := rfl

end

theorem next_shift (bytes lines : Nat) (p : Position) (c : Char) :
    ((shift bytes lines).position p).next c = (shift bytes lines).position (p.next c) := by
  simp only [Position.next, position, shift]
  split
  · simp only [Position.mk.injEq, and_true]
    omega
  · simp only [Position.mk.injEq, and_true]
    omega

theorem advance_shift (bytes lines : Nat) (p : Position) (w : List Char) :
    ((shift bytes lines).position p).advance w = (shift bytes lines).position (p.advance w) := by
  induction w generalizing p with
  | nil => rfl
  | cons c w ih => rw [Position.advance_cons, next_shift, ih, Position.advance_cons]

end Relocation

namespace Lexer

/-- **A text that stands further on** is read as the same tokens, further on. -/
theorem Reads.shift {w rest : List Char} {p : Position} {ts : List Token} (h : Reads rest p w ts)
    (bytes lines : Nat) :
    Reads rest ((Relocation.shift bytes lines).position p) w (ts.map (Relocation.shift bytes lines).token) := by
  induction h with
  | done => exact .done _
  | blank hc _ ih =>
    rw [← Relocation.next_shift] at ih
    exact .blank hc ih
  | @lexeme kind c cs w p ts hc hread _ ih =>
    rw [← Relocation.advance_shift] at ih
    have hspelled : (Relocation.shift bytes lines).token (.spelled kind p (c :: cs)) =
        .spelled kind ((Relocation.shift bytes lines).position p) (c :: cs) := by
      simp only [Token.spelled, Relocation.token, Relocation.advance_shift]
      rfl
    rw [List.map_cons, hspelled]
    exact .lexeme hc hread ih

theorem tokens_shift (w : List Char) (p : Position) (bytes lines : Nat) :
    tokens ⟨w, (Relocation.shift bytes lines).position p⟩ =
      ⟨(tokens ⟨w, p⟩).body.map (Relocation.shift bytes lines).token,
        (Relocation.shift bytes lines).span (tokens ⟨w, p⟩).stop⟩ := by
  have h := tokens_of_reads (reads_tokens w p)
  have h' := tokens_of_reads ((reads_tokens w p).shift bytes lines)
  rw [List.append_nil, tokens_nil, List.append_nil] at h h'
  rw [h', h, Relocation.advance_shift]
  rfl

end Lexer

/-! ## Ends of lines -/

namespace Lexeme

/-- An open string ends before any line feed. -/
theorem quotedBody_open {quote : Char} (hq : quote ≠ '\n') {cs : List Char}
    (h : (quotedBody quote cs).closed = false) (tail : List Char) :
    quotedBody quote ((quotedBody quote cs).value ++ '\n' :: tail) =
      ⟨(quotedBody quote cs).value, false, '\n' :: tail⟩ := by
  have hend : quotedBody quote ('\n' :: tail) = ⟨[], false, '\n' :: tail⟩ := by
    simp [quotedBody, Ne.symm hq]
  fun_induction quotedBody quote cs with
  | case1 => exact hend
  | case2 | case3 => simp [quotedBody]
  | case4 c cs hc ih =>
    have hrest := ih h
    simp [Body.push, quotedBody, hc, hrest]
  | case5 => cases h
  | case6 => exact hend
  | case7 c cs h₁ h₂ hquote hn ih =>
    have hc : c ≠ '\\' := by
      rintro rfl
      cases cs with
      | nil => exact h₁ rfl rfl
      | cons d ds => exact h₂ d ds rfl rfl
    have hrest := ih h
    simp [Body.push, quotedBody, hc, hquote, hn, hrest]

/-- Only a quote opens a string. -/
theorem read_eq_quoted {c : Char} {cs : List Char} (h : (read c cs).kind = .error .openString) :
    (c = '"' ∨ c = '\'') ∧ read c cs = quoted c cs := by
  unfold read at h ⊢
  split at h
  · cases h
  · split at h
    · cases h
    · cases h
    · cases h
    · simp only [blockComment] at h
      split at h
      · split at h <;> cases h
      · cases h
    · split at h
      · rename_i hq
        exact ⟨hq, by rw [if_pos hq]⟩
      · split at h
        · simp only [templated] at h
          split at h <;> cases h
        · split at h
          · cases h
          · split at h <;> cases h

/-- **An open string ends with its line**, whatever the next lines hold. -/
theorem read_openString {c : Char} {cs rest : List Char}
    (h : read c (cs ++ rest) = ⟨.error .openString, c :: cs, rest⟩) (tail : List Char) :
    read c (cs ++ '\n' :: tail) = ⟨.error .openString, c :: cs, '\n' :: tail⟩ := by
  have hkind : (read c (cs ++ rest)).kind = .error .openString := congrArg Lexeme.kind h
  obtain ⟨hq, hread⟩ := read_eq_quoted hkind
  have hne : c ≠ '\n' := by
    rintro rfl
    exact absurd hq (by decide)
  have hquoted (ds : List Char) : read c ds = quoted c ds := by
    rcases hq with rfl | rfl <;> rfl
  rw [hread, quoted] at h
  simp only [mk.injEq, List.cons.injEq, true_and] at h
  obtain ⟨hkind, hcovered, -⟩ := h
  have hopen : (quotedBody c (cs ++ rest)).closed = false := by
    cases hclosed : (quotedBody c (cs ++ rest)).closed with
    | false => rfl
    | true =>
      rw [hclosed] at hkind
      cases hkind
  rw [Body.covered, if_neg (by simp [hopen])] at hcovered
  have hbody := quotedBody_open hne hopen tail
  rw [hcovered] at hbody
  simp [hquoted, quoted, hbody, Body.covered]

/-- Every lexeme but an open one stops at a line feed. -/
theorem stops_newline (kind : TokenKind) (tail : List Char) : Stops kind ('\n' :: tail) := by
  unfold Stops
  split <;> simp <;> decide

end Lexeme

namespace Lexer

open Lexeme (Spells Stops)

/-- No token is open across lines: there are no open templates and no open comments. -/
def ClosedLines (ts : List Token) : Prop :=
  ∀ t ∈ ts, t.kind ≠ .error .openTemplate ∧ t.kind ≠ .error .openComment

theorem closedLines_of_forall {ts : List Token} (h : ∀ t ∈ ts, t.kind.isError = false) : ClosedLines ts := by
  intro t ht
  have he := h t ht
  refine ⟨fun hk => ?_, fun hk => ?_⟩
  · rw [hk] at he
    cases he
  · rw [hk] at he
    cases he

/-- **The end of a line is as good as the end of the text** for tokens that are not open across lines. -/
theorem Reads.before_newline {p : Position} {w : List Char} {ts : List Token} (h : Reads [] p w ts)
    (hts : ClosedLines ts) (tail : List Char) : Reads ('\n' :: tail) p w ts := by
  induction h with
  | done => exact .done _
  | blank hc _ ih => exact .blank hc (ih hts)
  | @lexeme kind c cs w p ts hc hread _ ih =>
    refine .lexeme hc ?_ (ih fun t ht => hts t (List.mem_cons_of_mem _ ht))
    have hnext : kind.isError = false → Stops kind (w ++ '\n' :: tail) := by
      intro he
      have hstops := (spells_of_read hc hread he).2
      cases w with
      | nil => exact Lexeme.stops_newline kind tail
      | cons d ds => exact (Lexeme.stops_congr rfl).1 hstops
    cases kind with
    | error fault =>
      obtain ⟨h₁, h₂⟩ := hts _ List.mem_cons_self
      cases fault with
      | openString =>
        -- an open string has taken all of its line
        have hline := Lexeme.endsIfOpen_read c (cs ++ (w ++ []))
        rw [hread] at hline
        cases w with
        | nil => exact Lexeme.read_openString hread tail
        | cons d ds =>
          obtain rfl := hline _ rfl d rfl
          exact Lexeme.read_openString hread (ds ++ '\n' :: tail)
      | openTemplate => exact absurd rfl h₁
      | openComment => exact absurd rfl h₂
    | _ => exact Lexeme.read_of_spells (spells_of_read hc hread rfl).1 (hnext rfl)

end Lexer

theorem Position.advance_origin_newline (w : List Char) :
    (Position.origin.advance w).next '\n' =
      (Relocation.shift (Text.byteLength w + 1) (w.count '\n' + 1)).position .origin := by
  have hline (p : Position) : (p.advance w).line = p.line + w.count '\n' := by
    induction w generalizing p with
    | nil => rfl
    | cons c w ih =>
      rw [Position.advance_cons, ih, Position.next, List.count_cons]
      by_cases hc : c = '\n'
      · simp only [hc, if_true, beq_self_eq_true]
        omega
      · simp [hc]
  have hoffset := Position.offset_advance .origin w
  simp only [Position.origin] at hline hoffset
  simp only [Position.next, if_true, Relocation.position, Relocation.shift, Position.origin, hline, hoffset,
    Position.mk.injEq, and_true]
  exact ⟨by rw [Nat.add_assoc]; rfl, by omega⟩

/-- The places of a text that stands behind `source` and a line feed. -/
def Relocation.below (source : String) : Relocation :=
  shift (Text.byteLength source.toList + 1) (source.toList.count '\n' + 1)

/-- **Texts are read line by line.** -/
theorem tokenize_append_newline {s : String} (hs : Lexer.ClosedLines (tokenize s).body) (s' : String) :
    tokenize (s ++ "\n" ++ s') = ⟨(tokenize s).body ++ (tokenize s').body.map (Relocation.below s).token,
      (Relocation.below s).span (tokenize s').stop⟩ := by
  have hread := (Lexer.reads_tokenize s).before_newline hs s'.toList
  have htext : (s ++ "\n" ++ s').toList = s.toList ++ '\n' :: s'.toList := by simp
  rw [tokenize, Lexer.ofText, htext, Lexer.tokens_of_reads hread, Lexer.tokens_blank (by decide),
    Position.advance_origin_newline, Lexer.tokens_shift]
  rfl

/-- The same without plain comments. -/
theorem tokenizeSignificant_append_newline {s : String} (hs : Lexer.ClosedLines (tokenize s).body) (s' : String) :
    tokenizeSignificant (s ++ "\n" ++ s') =
      ⟨(tokenizeSignificant s).body ++ (tokenizeSignificant s').body.map (Relocation.below s).token,
        (Relocation.below s).span (tokenizeSignificant s').stop⟩ := by
  simp only [tokenizeSignificant, Tokens.without, tokenize_append_newline hs, List.filter_append, List.filter_map]
  rfl

end TypeSchema
