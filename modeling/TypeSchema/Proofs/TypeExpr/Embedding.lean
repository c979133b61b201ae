import TypeSchema.Proofs.Lexing.Pieces
import TypeSchema.Proofs.Lexing.Tiling
import TypeSchema.Proofs.TypeExpr.Enclosed
import TypeSchema.Proofs.TypeExpr.Nesting

/-!
# Texts inside of others

A text keeps its tokens and their texts where it stands behind another text and before a line feed, unless one of its
tokens is open across lines (`mirrors_around`).  In a type expression none is: an open token is the last one of its
text, and a part of a type expression ends with a token that is closed (`closedLines_of_parse`).
-/

namespace TypeSchema

/-! ## Slices and tokens, further on -/

/-- The slice of a part between two of its places is the slice of the whole between them. -/
theorem Text.slice?_inside {before w after x y : List Char} (hx : x <+: w) (hy : y <+: w) :
    slice? (byteLength (before ++ x)) (byteLength (before ++ y)) (before ++ w ++ after) =
      slice? (byteLength x) (byteLength y) w := by
  have hcut {x y : List Char} (hxy : x <+: y) (hy : y <+: w) :
      slice? (byteLength (before ++ x)) (byteLength (before ++ y)) (before ++ w ++ after) =
        slice? (byteLength x) (byteLength y) w := by
    obtain ⟨v, rfl⟩ := hxy
    obtain ⟨z, rfl⟩ := hy
    have hwhole := slice?_append (before ++ x) v (z ++ after)
    rw [slice?_append x v z, ← hwhole]
    simp
  rcases List.prefix_or_prefix_of_prefix hx hy with hxy | ⟨v, rfl⟩
  · exact hcut hxy hy
  · cases v with
    | nil =>
      rw [List.append_nil]
      exact hcut (List.prefix_refl y) hy
    | cons c v =>
      have hc := c.utf8Size_pos
      rw [slice?, slice?, if_pos (by simp; omega), if_pos (by simp; omega)]

/-- The second token is the first one, further on by a number of bytes, on some line. -/
structure Token.Moved (bytes : Nat) (t u : Token) : Prop where
  kind : u.kind = t.kind
  start : u.span.start = t.span.start + bytes
  stop : u.span.stop = t.span.stop + bytes

namespace Lexer

/-- **A text that stands further on, on any line**, is read as the same tokens, further on. -/
theorem Reads.moved {w rest : List Char} {p : Position} {ts : List Token} (h : Reads rest p w ts) {bytes : Nat}
    {q : Position} (hq : q.offset = p.offset + bytes) :
    ∃ us, Reads rest q w us ∧ List.Forall₂ (Token.Moved bytes) ts us := by
  induction h generalizing q with
  | done => exact ⟨[], .done q, .nil⟩
  | @blank c _ p _ hc _ ih =>
    obtain ⟨us, hus, hmoved⟩ := @ih (q.next c) (by rw [Position.offset_next, Position.offset_next]; omega)
    exact ⟨us, .blank hc hus, hmoved⟩
  | @lexeme kind c cs w p ts hc hread _ ih =>
    have hstop : (q.advance (c :: cs)).offset = (p.advance (c :: cs)).offset + bytes := by
      rw [Position.offset_advance, Position.offset_advance]
      omega
    obtain ⟨us, hus, hmoved⟩ := ih hstop
    exact ⟨.spelled kind q (c :: cs) :: us, .lexeme hc hread hus, .cons ⟨rfl, hq, hstop⟩ hmoved⟩

/-- A token that is open across lines is the last one. -/
theorem Reads.getLast?_of_open {p : Position} {w : List Char} {ts : List Token} (h : Reads [] p w ts) {t : Token}
    (ht : t ∈ ts) {fault : LexicalFault} (hk : t.kind = .error fault) (hf : fault ≠ .openString) :
    ts.getLast? = some t := by
  induction h with
  | done => cases ht
  | blank _ _ ih => exact ih ht
  | @lexeme kind c cs w p ts hc hread hreads ih =>
    rcases List.mem_cons.1 ht with rfl | ht
    · have hkind : (Lexeme.read c (cs ++ (w ++ []))).kind = .error fault := by rw [hread]; exact hk
      have hrest := Lexeme.rest_of_open hkind hf
      rw [hread] at hrest
      obtain rfl : w = [] := by simpa using hrest
      rw [hreads.eq_nil]
      rfl
    · rw [List.getLast?_cons, ih ht]
      rfl

end Lexer

namespace Parser

open Lexer (Yields Anywhere)

/-- The last of tokens that are moved. -/
theorem exists_getLast?_of_moved {bytes : Nat} {ts us : List Token} (h : List.Forall₂ (Token.Moved bytes) ts us)
    {t : Token} (ht : ts.getLast? = some t) : ∃ u, us.getLast? = some u ∧ t.Moved bytes u := by
  induction h with
  | nil => cases ht
  | @cons t' u ts us htu h ih =>
    cases h with
    | nil =>
      cases ht
      exact ⟨u, rfl, htu⟩
    | cons _ _ =>
      rw [List.getLast?_cons_cons] at ht ⊢
      exact ih ht

section Moved

variable {s s' : String} {before after : List Char} (hs : s'.toList = before ++ s.toList ++ after) {ts us : List Token}
  (hts : ∀ t ∈ ts, ∃ front back, t.StandsIn s.toList front back)
  (h : List.Forall₂ (Token.Moved (Text.byteLength before)) ts us)

include hs hts h

/-- Tokens that are moved with their text keep the text that they are part of. -/
theorem keyText?_of_moved : keyText? s ts = keyText? s' us := by
  cases h with
  | nil => rfl
  | @cons first first' ts us hfirst h =>
    obtain ⟨last, hl⟩ : ∃ last, (first :: ts).getLast? = some last := ⟨_, List.getLast?_eq_some_getLast (by simp)⟩
    obtain ⟨last', hl', hlast⟩ := exists_getLast?_of_moved (.cons hfirst h) hl
    obtain ⟨front, back, hstart⟩ := hts first List.mem_cons_self
    obtain ⟨front', back', hstop⟩ := hts last (List.mem_of_getLast? hl)
    have hslice := @Text.slice?_inside before s.toList after front (front' ++ last.text.toList)
      ⟨first.text.toList ++ back, by rw [hstart.source, List.append_assoc]⟩ ⟨back', hstop.source.symm⟩
    have hstart' : first'.span.start = Text.byteLength (before ++ front) := by
      rw [hfirst.start, hstart.start, Text.byteLength_append, Nat.add_comm]
    have hstop' : last'.span.stop = Text.byteLength (before ++ (front' ++ last.text.toList)) := by
      rw [hlast.stop, hstop.stop, Text.byteLength_append before, Nat.add_comm]
    rw [← hstart', ← hstop', ← hstart.start, ← hstop.stop, ← hs] at hslice
    have htext : (first.span.upTo last.span).text s = (first'.span.upTo last'.span).text s' := by
      simp only [Span.text, Span.upTo, hslice]
    rw [keyText?_eq rfl hl, keyText?_eq rfl hl', htext]

theorem mirrors_of_moved : Mirrors s ts s' us := by
  refine ⟨?_, fun i n => ?_⟩
  · clear hts
    induction h with
    | nil => rfl
    | cons htu _ ih => rw [List.map_cons, List.map_cons, htu.kind, ih]
  · refine keyText?_of_moved hs (fun t ht => ?_) (List.forall₂_take n (List.forall₂_drop i h))
    exact hts t (List.mem_of_mem_drop (List.mem_of_mem_take ht))

end Moved

theorem significant_of_kinds {ts : List Token} {kinds : List TokenKind} (h : ts.map Token.kind = kinds)
    (hcomment : ∀ kind ∈ kinds, kind.isComment = false) : significant ts = ts := by
  refine List.filter_eq_self.2 fun t ht => ?_
  rw [hcomment t.kind (h ▸ List.mem_map_of_mem ht)]
  rfl

theorem moved_significant {bytes : Nat} {ts us : List Token} (h : List.Forall₂ (Token.Moved bytes) ts us) :
    List.Forall₂ (Token.Moved bytes) (significant ts) (significant us) := by
  refine List.rel_filter (fun t u htu => ?_) h
  dsimp only
  rw [htu.kind]

/-- **The tokens of a text between two others**, of which the second one starts on a new line. -/
theorem mirrors_around {s : String} (hs : Lexer.ClosedLines (tokenize s).body) {opening closing : String}
    {os cs : List TokenKind} (ho : Yields Anywhere opening os) (hc : Yields Anywhere ("\n" ++ closing) cs)
    (hcomment : ∀ kind ∈ os ++ cs, kind.isComment = false) :
    ∃ before us after, (ofText (opening ++ s ++ ("\n" ++ closing))).rest = before ++ us ++ after ∧
      before.map Token.kind = os ∧ after.map Token.kind = cs ∧
      Mirrors s (ofText s).rest (opening ++ s ++ ("\n" ++ closing)) us := by
  have htail : ("\n" ++ closing).toList = '\n' :: closing.toList := by simp
  have htext : (opening ++ s ++ ("\n" ++ closing)).toList =
      opening.toList ++ s.toList ++ ("\n" ++ closing).toList := by simp
  have hself := Lexer.reads_tokenize s
  obtain ⟨before, hbefore, hos⟩ := ho (s.toList ++ ("\n" ++ closing).toList) .origin trivial
  obtain ⟨us, hus, hmoved⟩ := (hself.before_newline hs closing.toList).moved
    (Position.origin.offset_advance opening.toList)
  obtain ⟨after, hafter, hcs⟩ := hc [] ((Position.origin.advance opening.toList).advance s.toList) trivial
  -- the three runs, one behind the other
  have hbody : (tokenize (opening ++ s ++ ("\n" ++ closing))).body = before ++ (us ++ after) := by
    rw [← htail] at hus
    have hinner : Lexer.Reads [] _ (s.toList ++ ("\n" ++ closing).toList) (us ++ after) :=
      .trans (by rwa [List.append_nil]) hafter
    have hrun : Lexer.Reads [] .origin (opening.toList ++ (s.toList ++ ("\n" ++ closing).toList)) _ :=
      .trans (by rwa [List.append_nil]) hinner
    rw [← List.append_assoc, ← htext] at hrun
    have hwhole := Lexer.tokenize_of_reads hrun
    rwa [String.ofList_toList] at hwhole
  refine ⟨before, significant us, after, ?_, hos, hcs, ?_⟩
  · rw [rest_ofText, hbody, significant_append, significant_append,
      significant_of_kinds hos fun kind hk => hcomment kind (List.mem_append_left _ hk),
      significant_of_kinds hcs fun kind hk => hcomment kind (List.mem_append_right _ hk), List.append_assoc]
  · refine mirrors_of_moved htext (fun t ht => ?_) (moved_significant hmoved)
    have hstands := hself.standsIn (show _ = Position.behind [] from rfl)
    rw [List.nil_append, List.append_nil] at hstands
    exact (hstands t (List.mem_filter.1 ht).1).2

/-! ## Ends of type expressions -/

/-- The last token is a closed one. -/
def EndsClosed (ts : List Token) : Prop := ∃ t, ts.getLast? = some t ∧ t.kind.isError = false

theorem EndsClosed.append {ts : List Token} (h : EndsClosed ts) (us : List Token) : EndsClosed (us ++ ts) := by
  obtain ⟨t, ht, hk⟩ := h
  exact ⟨t, by rw [List.getLast?_append, ht]; rfl, hk⟩

theorem EndsClosed.cons {ts : List Token} (h : EndsClosed ts) (u : Token) : EndsClosed (u :: ts) := h.append [u]

theorem endsClosed_singleton {t : Token} (h : t.kind.isError = false) : EndsClosed [t] := ⟨t, rfl, h⟩

theorem endsClosed_nameTail {name full : String} {ts : List Token} (h : NameTail name ts full) :
    ts = [] ∨ EndsClosed ts := by
  induction h with
  | done => exact .inl rfl
  | @part _ _ _ dot t ts _ ht _ ih =>
    rcases ih with rfl | ih
    · exact .inr ((endsClosed_singleton (by rw [ht]; rfl)).cons dot)
    · exact .inr ((ih.cons t).cons dot)

theorem endsClosed_names {ts : List Token} {name : String} (h : Names ts name) : EndsClosed ts := by
  obtain ⟨t, us, first, rfl, ht, htail⟩ := h
  rcases endsClosed_nameTail htail with rfl | hus
  · exact endsClosed_singleton (by rw [ht]; rfl)
  · exact hus.cons t

theorem endsClosed_brackets {n : Nat} {ts : List Token} (h : Brackets n ts) : ts = [] ∨ EndsClosed ts := by
  induction h with
  | none => exact .inl rfl
  | @pair _ opening closing ts _ hc _ ih =>
    rcases ih with rfl | ih
    · exact .inr ((endsClosed_singleton (by rw [hc]; rfl)).cons opening)
    · exact .inr ((ih.cons closing).cons opening)

theorem Derives.endsClosed {source : String} {widens : List Token → Prop} {c : Category} {level top : Nat}
    {ts : List Token} {es : List TypeExpr} (h : Derives source widens c level ts es top) : EndsClosed ts := by
  induction h with
  | union _ ih | one _ ih => exact ih
  | @barred _ _ bar _ _ _ _ ih => exact ih.cons bar
  | @suffixed _ _ _ ts us _ _ hb ih =>
    rcases endsClosed_brackets hb with rfl | hus
    · rwa [List.append_nil]
    · exact hus.append ts
  | group _ _ hc => exact ((endsClosed_singleton (by rw [hc]; rfl)).append _).cons _
  | literal ht => exact endsClosed_singleton (by rw [ht]; rfl)
  | plain hn => exact endsClosed_names hn
  | applied _ _ _ _ hc => exact (((endsClosed_singleton (by rw [hc]; rfl)).append _).cons _).append _
  | record _ _ _ _ _ _ hc =>
    exact (((((endsClosed_singleton (by rw [hc]; rfl)).append _).cons _).append _).cons _).append _
  | anyRecord _ _ hu =>
    obtain ⟨t, ht, hends⟩ := afterAngles?_ends hu
    refine (EndsClosed.cons ⟨t, ht, ?_⟩ _).append _
    simp only [endsPart, Token.isPunct, Bool.or_eq_true, beq_iff_eq] at hends
    rcases hends with hk | hk <;> rw [hk] <;> rfl
  | more _ _ _ _ ih => exact (ih.cons _).append _

/-- **In a type expression no token is open across lines.** -/
theorem closedLines_of_parse {source : String} {e : TypeExpr} (h : TypeExpr.parse source = .ok e) :
    Lexer.ClosedLines (tokenize source).body := by
  obtain ⟨top, hder, -⟩ := TypeExpr.derives_of_parse h
  have hends : EndsClosed (significant (tokenize source).body) := by
    rw [← rest_ofText]
    generalize (ofText source).rest = ts at hder
    cases hder with
    | bare hder => exact hder.endsClosed
    | optional _ hq => exact (endsClosed_singleton (by rw [hq]; rfl)).append _
  obtain ⟨last, hlast, hclosed⟩ := hends
  have hnot {t : Token} (ht : t ∈ (tokenize source).body) {fault : LexicalFault} (hf : fault ≠ .openString) :
      t.kind ≠ .error fault := by
    intro hk
    have hopen := (Lexer.reads_tokenize source).getLast?_of_open ht hk hf
    rw [getLast?_significant hopen (by rw [hk]; rfl)] at hlast
    cases hlast
    rw [hk] at hclosed
    cases hclosed
  exact fun t ht => ⟨hnot ht (by simp), hnot ht (by simp)⟩

end Parser

end TypeSchema
