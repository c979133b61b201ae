import TypeSchema.Proofs.Lexing.Locality
import TypeSchema.Proofs.TypeExpr.Outcomes

/-!
# Places and the lines they are shown in

The lexer counts lines and columns by itself, and a message shows the line that is cut from the text.  Both agree:

* `exists_line`: a character that is not blank stands in the line whose number is the count of line feeds before it,
  behind as many characters as stand between it and the last of these;
* `shows_start`: so the line of a token shows its first character in the column of the token;
* `places_match_lines`: and so does the line of an error, unless the error is at the end of the text.
-/

namespace TypeSchema

/-! ## Lines of a text -/

namespace Text

/-- A character that ends no line stands before the rest of its line. -/
theorem lines_cons {c : Char} {cs : List Char} (hc : c ≠ '\n') (hr : c = '\r' → cs.head? ≠ some '\n') :
    lines (c :: cs) = (c :: (lines cs).headD []) :: (lines cs).tail := by
  have hpair : ∀ ds, c = '\r' → cs = '\n' :: ds → False := by
    rintro ds rfl rfl
    exact hr rfl rfl
  rw [lines.eq_3 c cs hpair, if_neg hc]
  cases lines cs <;> rfl

/-- What stands before a line feed makes up as many lines as it holds line feeds, and one more. -/
theorem exists_lines_newline (w rest : List Char) :
    ∃ front, front.length = w.count '\n' + 1 ∧ lines (w ++ '\n' :: rest) = front ++ lines rest := by
  fun_induction lines w with
  | case1 => exact ⟨[[]], rfl, by simp [lines]⟩
  | case2 cs ih =>
    obtain ⟨front, hlength, hlines⟩ := ih
    exact ⟨[] :: front, by simp [hlength], by simp [lines, hlines]⟩
  | case3 cs hpair ih =>
    obtain ⟨front, hlength, hlines⟩ := ih
    exact ⟨[] :: front, by simp [hlength], by simp [lines, hlines]⟩
  | case4 c cs hpair hc _ ih | case5 c cs hpair hc _ _ _ ih =>
    by_cases hend : c = '\r' ∧ cs = []
    · obtain ⟨rfl, rfl⟩ := hend
      exact ⟨[[]], by simp, by simp [lines]⟩
    · obtain ⟨front, hlength, hlines⟩ := ih
      have hr : c = '\r' → (cs ++ '\n' :: rest).head? ≠ some '\n' := by
        rintro rfl hhead
        cases cs with
        | nil => exact hend ⟨rfl, rfl⟩
        | cons d ds => exact hpair ds rfl (by rw [Option.some.inj hhead])
      obtain ⟨l, ls, rfl⟩ := List.exists_cons_of_length_eq_add_one hlength
      refine ⟨(c :: l) :: ls, ?_, ?_⟩
      · simpa [List.count_cons, hc] using hlength
      · rw [List.cons_append, lines_cons hc hr, hlines]
        rfl

/-- Up to a character that is not blank, the first line is the text. -/
theorem exists_first_line {cur : List Char} (hcur : '\n' ∉ cur) {c : Char} (hc : isBlank c = false)
    (after : List Char) : ∃ l ls, lines (cur ++ c :: after) = (cur ++ c :: l) :: ls := by
  have hfeed : c ≠ '\n' := by
    rintro rfl
    cases hc
  induction cur with
  | nil =>
    have hreturn : c ≠ '\r' := by
      rintro rfl
      cases hc
    exact ⟨_, _, lines_cons hfeed fun h => absurd h hreturn⟩
  | cons d cur ih =>
    rw [List.mem_cons, not_or] at hcur
    obtain ⟨hd, hcur⟩ := hcur
    obtain ⟨l, ls, hlines⟩ := ih hcur
    have hhead : (cur ++ c :: after).head? ≠ some '\n' := by
      cases cur with
      | nil => simpa using hfeed
      | cons e cur => simpa using fun h : e = '\n' => hcur (by simp [h])
    exact ⟨l, ls, by rw [List.cons_append, lines_cons (Ne.symm hd) fun _ => hhead, hlines]; rfl⟩

/-- **A character stands in its line**: the line is found by the line feeds before it, and the character by the
characters behind the last of these. -/
theorem exists_line (before : List Char) {c : Char} (hc : isBlank c = false) (after : List Char) :
    ∃ l, (lines (before ++ c :: after))[before.count '\n']? = some l ∧
      l[(before.reverse.takeWhile (· ≠ '\n')).length]? = some c := by
  have hsplit := List.takeWhile_append_dropWhile (p := fun d => decide (d ≠ '\n')) (l := before.reverse)
  have hcur : '\n' ∉ before.reverse.takeWhile (· ≠ '\n') := by
    intro hmem
    have hall := List.all_eq_true.1 (List.all_takeWhile (p := fun d => decide (d ≠ '\n')) (l := before.reverse))
    simpa using hall _ hmem
  have hhead (d : Char) (hd : (before.reverse.dropWhile (· ≠ '\n')).head? = some d) : d = '\n' := by
    have hnot := Lexeme.head?_dropWhile hd
    simpa using hnot
  generalize before.reverse.takeWhile (· ≠ '\n') = cur at hsplit hcur ⊢
  generalize before.reverse.dropWhile (· ≠ '\n') = earlier at hsplit hhead
  have hbefore : before = earlier.reverse ++ cur.reverse := by
    rw [← List.reverse_append, hsplit, List.reverse_reverse]
  have hcur' : '\n' ∉ cur.reverse := by rwa [List.mem_reverse]
  obtain ⟨l, ls, hfirst⟩ := exists_first_line hcur' hc after
  refine ⟨cur.reverse ++ c :: l, ?_, by simp⟩
  cases earlier with
  | nil =>
    rw [List.reverse_nil, List.nil_append] at hbefore
    rw [hbefore, hfirst, List.count_eq_zero.2 hcur']
    rfl
  | cons d earlier =>
    obtain rfl := hhead d rfl
    obtain ⟨front, hlength, hlines⟩ := exists_lines_newline earlier.reverse (cur.reverse ++ c :: after)
    have hcount : before.count '\n' = front.length := by
      rw [hbefore, hlength, List.count_append, List.count_eq_zero.2 hcur', List.reverse_cons, List.count_append]
      simp
    have htext : before ++ c :: after = earlier.reverse ++ '\n' :: (cur.reverse ++ c :: after) := by
      rw [hbefore]
      simp
    rw [htext, hcount, hlines, hfirst, List.getElem?_append_right (Nat.le_refl _), Nat.sub_self]
    rfl

end Text

/-! ## Lines of tokens -/

/-- The line of the token, cut from the source, shows the first character of the token in its column. -/
def Token.ShowsStart (t : Token) (source : String) : Prop :=
  ∃ c, (t.span.text source).toList.head? = some c ∧
    (t.span.sourceLine source).toList[t.span.column - 1]? = some c

/-- The first character of a token is not blank. -/
theorem Lexer.Reads.isBlank_head {rest w : List Char} {p : Position} {ts : List Token} (h : Reads rest p w ts) :
    ∀ t ∈ ts, ∃ c cs, t.text.toList = c :: cs ∧ Text.isBlank c = false := by
  induction h with
  | done => simp
  | blank _ _ ih => exact ih
  | @lexeme kind c cs w p ts hc _ _ ih =>
    intro t ht
    rcases List.mem_cons.1 ht with rfl | ht
    · exact ⟨c, cs, by simp [Token.spelled], hc⟩
    · exact ih t ht

/-- **The line of a token shows its start.** -/
theorem shows_start {source : String} {t : Token} (ht : t ∈ (tokenize source).body) : t.ShowsStart source := by
  have hreads := Lexer.reads_tokenize source
  obtain ⟨c, cs, htext, hc⟩ := hreads.isBlank_head t ht
  obtain ⟨-, before, after, hstands⟩ := hreads.standsIn (show _ = Position.behind [] from rfl) t ht
  rw [List.nil_append, List.append_nil] at hstands
  have hsource : source.toList = before ++ c :: (cs ++ after) := by
    rw [hstands.source, htext]
    simp
  obtain ⟨line, hline, hcolumn⟩ := Text.exists_line before hc (cs ++ after)
  refine ⟨c, by rw [hstands.text_eq, htext]; rfl, ?_⟩
  rw [Span.sourceLine, hstands.line, hstands.column, hsource, Nat.add_sub_cancel_left, Nat.add_sub_cancel_left, hline]
  simpa using hcolumn

/-! ## Lines of errors -/

open TypeSchema.Parser in
/-- **Places match the lines they are shown in.**  The line of a token shows its first character in its column.  The
error of a text that is no type expression is at the token before which the parser stops, and holds the line of that
token; unless the token is the end of the text, this line shows its first character in the column of the error. -/
theorem places_match_lines (source : String) : (∀ t ∈ (tokenize source).body, t.ShowsStart source) ∧
    ∀ err, TypeExpr.parse source = .error err →
      ∃ t ∈ ((tokenize source).without TokenKind.isComment).toList, (ofText source).run.2.current = t ∧
        (∃ message, err.cause = .parse message t.span.line t.span.column (t.span.sourceLine source)) ∧
        (t.kind ≠ .eof → t.ShowsStart source) := by
  refine ⟨fun t => shows_start, fun err herr => ?_⟩
  unfold TypeExpr.parse at herr
  unfold run at herr ⊢
  cases hread : typeExpr (ofText source) with
  | ok e q =>
    rw [hread] at herr
    cases herr
  | error failure q =>
    rw [hread] at herr
    cases herr
    obtain ⟨hrest, hspan, -⟩ := tidy_typeExpr.of_error hread
    have hstop : q.stop = (tokenize source).stop := (steady_typeExpr.of_error hread).stop
    have hcause : (errorOf (ofText source).source failure).cause = .parse failure.fault.message q.current.span.line
        q.current.span.column (q.current.span.sourceLine source) := by
      rw [← hspan]
      rfl
    refine ⟨q.current, ?_, rfl, ⟨_, hcause⟩, fun hk => ?_⟩
    · cases hq : q.rest with
      | nil =>
        rw [current, hq, hstop]
        exact List.mem_append_right _ List.mem_cons_self
      | cons t rest =>
        rw [current_of_rest hq]
        exact List.mem_append_left _ (hrest.subset (hq ▸ List.mem_cons_self))
    · obtain ⟨t, rest, hq, -⟩ := rest_of_current rfl hk
      have ht : t ∈ (ofText source).rest := hrest.subset (hq ▸ List.mem_cons_self)
      rw [current_of_rest hq]
      exact shows_start (List.mem_filter.1 ht).1

/-- A bracket on the second line, behind a line end of two characters and a letter of two bytes. -/
theorem places_match_lines_bracket :
    (⟨.punct .closeBracket, ⟨13, 14, 2, 6⟩, "]"⟩ : Token).ShowsStart "Page<\r\n 'é' ]" ∧
    ∃ err, TypeExpr.parse "Page<\r\n 'é' ]" = .error err ∧
      err.cause = .parse "expected '>', found ']'" 2 6 " 'é' ]" ∧
      ∃ t ∈ ((tokenize "Page<\r\n 'é' ]").without TokenKind.isComment).toList,
        (Parser.ofText "Page<\r\n 'é' ]").run.2.current = t ∧
        (∃ message, err.cause = .parse message t.span.line t.span.column (t.span.sourceLine "Page<\r\n 'é' ]")) ∧
        (t.kind ≠ .eof → t.ShowsStart "Page<\r\n 'é' ]") := by
  have hbody : (tokenize "Page<\r\n 'é' ]").body = [⟨.ident "Page", ⟨0, 4, 1, 1⟩, "Page"⟩,
      ⟨.punct .openAngle, ⟨4, 5, 1, 5⟩, "<"⟩, ⟨.str "é" '\'', ⟨8, 12, 2, 2⟩, "'é'"⟩,
      ⟨.punct .closeBracket, ⟨13, 14, 2, 6⟩, "]"⟩] := by cbv
  have hparse : TypeExpr.parse "Page<\r\n 'é' ]" =
      .error { cause := .parse "expected '>', found ']'" 2 6 " 'é' ]" } := by cbv
  obtain ⟨htokens, herrors⟩ := places_match_lines "Page<\r\n 'é' ]"
  exact ⟨htokens _ (by rw [hbody]; simp), _, hparse, rfl, herrors _ hparse⟩

end TypeSchema
