import TypeSchema.Proofs.Lexing.Comments

/-!
# Tokens tile their source

The place of a token is read off the text before it (`Position.behind`).  Along a run of the lexer

* every token covers a piece of the text that its span describes (`Reads.standsIn`);
* tokens come one behind the other (`Reads.ordered`);
* every character that is not blank belongs to a token (`Reads.covers`).

`tokenize_tiles` puts these together for a whole text, and says that its tokens are those of a reader that is asked for
the next token again and again.
-/

namespace TypeSchema

/-! ## The place behind a text -/

namespace Position

/-- The position behind the first characters of a source: their bytes, the line feeds among them, and the characters
behind the last of these. -/
def behind (before : List Char) : Position :=
  ⟨Text.byteLength before, 1 + before.count '\n', 1 + (before.reverse.takeWhile (· ≠ '\n')).length⟩

theorem next_behind (before : List Char) (c : Char) : (behind before).next c = behind (before ++ [c]) := by
  by_cases hc : c = '\n'
  · subst hc
    simp [behind, next, Nat.add_assoc]
  · simp [behind, next, hc, Nat.add_assoc, Nat.add_comm 1]

/-- Reading on from behind a text leads behind the longer one. -/
theorem advance_behind (before w : List Char) : (behind before).advance w = behind (before ++ w) := by
  induction w generalizing before with
  | nil => rw [advance_nil, List.append_nil]
  | cons c w ih => rw [advance_cons, next_behind, ih, List.append_assoc, List.singleton_append]

theorem line_behind_le (before : List Char) : (behind before).line ≤ before.length + 1 := by
  have h := before.count_le_length (a := '\n')
  simp only [behind]
  omega

theorem column_behind_le (before : List Char) : (behind before).column ≤ before.length + 1 := by
  have h := (List.takeWhile_sublist (l := before.reverse) (· ≠ '\n')).length_le
  rw [List.length_reverse] at h
  simp only [behind]
  omega

end Position

theorem Text.byteLength_pos {w : List Char} (h : w ≠ []) : 0 < byteLength w := by
  obtain ⟨c, cs, rfl⟩ := List.exists_cons_of_ne_nil h
  have hc := c.utf8Size_pos
  rw [byteLength_cons]
  omega

/-- The token covers the text of a source between two others, and its span is the place of that text. -/
structure Token.StandsIn (t : Token) (source before after : List Char) : Prop where
  source : source = before ++ t.text.toList ++ after
  start : t.span.start = Text.byteLength before
  stop : t.span.stop = Text.byteLength (before ++ t.text.toList)
  line : t.span.line = 1 + before.count '\n'
  column : t.span.column = 1 + (before.reverse.takeWhile (· ≠ '\n')).length

theorem Token.standsIn_spelled (kind : TokenKind) (before w after : List Char) :
    (Token.spelled kind (.behind before) w).StandsIn (before ++ w ++ after) before after := by
  have hstop : ((Position.behind before).advance w).offset = Text.byteLength (before ++ w) := by
    rw [Position.advance_behind]
    rfl
  constructor
  · simp [Token.spelled]
  · rfl
  · simpa [Token.spelled, Span.between] using hstop
  · rfl
  · rfl

/-! ## Runs of the lexer -/

namespace Lexer

variable {rest w : List Char} {p : Position} {ts : List Token}

/-- **Every token of a run stands in the text.** -/
theorem Reads.standsIn (h : Reads rest p w ts) {before : List Char} (hp : p = .behind before) :
    ∀ t ∈ ts, t.text.toList ≠ [] ∧ ∃ front back, t.StandsIn (before ++ w ++ rest) front back := by
  induction h generalizing before with
  | done => simp
  | @blank c w p ts _ _ ih =>
    subst hp
    have hih := ih (Position.next_behind before c)
    simpa using hih
  | @lexeme kind c cs w p ts _ _ _ ih =>
    subst hp
    have hih := ih (Position.advance_behind before (c :: cs))
    intro t ht
    rcases List.mem_cons.1 ht with rfl | ht
    · refine ⟨by simp [Token.spelled], before, w ++ rest, ?_⟩
      have hstands := Token.standsIn_spelled kind before (c :: cs) (w ++ rest)
      simpa using hstands
    · simpa using hih t ht

/-- **The tokens of a run come one behind the other.** -/
theorem Reads.ordered (h : Reads rest p w ts) : ts.Pairwise fun t u => t.span.stop ≤ u.span.start := by
  induction h with
  | done => exact .nil
  | blank _ _ ih => exact ih
  | lexeme _ _ hrun ih => exact .cons hrun.offset_le_start ih

/-- **Every character that is not blank belongs to a token.** -/
theorem Reads.covers (h : Reads rest p w ts) {u v : List Char} {c : Char} (hw : w = u ++ c :: v)
    (hc : Text.isBlank c = false) :
    ∃ t ∈ ts, t.span.start ≤ (p.advance u).offset ∧ (p.advance u).offset + c.utf8Size ≤ t.span.stop := by
  induction h generalizing u with
  | done => simp at hw
  | @blank d w p ts hd _ ih =>
    cases u with
    | nil =>
      obtain ⟨rfl, -⟩ := List.cons.inj hw
      rw [hc] at hd
      cases hd
    | cons e u =>
      obtain ⟨rfl, htail⟩ := List.cons.inj hw
      exact ih htail
  | @lexeme kind d ds w p ts _ _ _ ih =>
    rw [← List.cons_append] at hw
    -- the character stands behind the lexeme or in it
    have hsplit : (∃ u', u = d :: ds ++ u' ∧ w = u' ++ c :: v) ∨ ∃ v', d :: ds = u ++ c :: v' := by
      rcases List.append_eq_append_iff.1 hw with ⟨u', hu, hv⟩ | ⟨v', hu, hv⟩
      · exact .inl ⟨u', hu, hv⟩
      · cases v' with
        | nil => exact .inl ⟨[], by simpa using hu.symm, by simpa using hv.symm⟩
        | cons e v' =>
          obtain ⟨rfl, -⟩ := List.cons.inj hv
          exact .inr ⟨v', hu⟩
    rcases hsplit with ⟨u', rfl, hv⟩ | ⟨v', hlexeme⟩
    · obtain ⟨t, ht, hspan⟩ := ih hv
      rw [Position.advance_append]
      exact ⟨t, List.mem_cons_of_mem _ ht, hspan⟩
    · refine ⟨_, List.mem_cons_self, ?_⟩
      rw [hlexeme]
      simp only [Token.spelled, Span.between, Position.offset_advance, Text.byteLength_append, Text.byteLength_cons]
      omega

/-! ## One token after the other -/

/-- The tokens that a reader gives when it is asked for the next one a number of times. -/
def calls : Nat → Lexer → List Token
  | 0, _ => []
  | n + 1, l => l.next.1 :: calls n l.next.2

theorem next_of_nil {l : Lexer} (h : l.skipBlanks.rest = []) :
    l.next = (.eof (.point l.skipBlanks.position), l.skipBlanks) := by
  unfold next
  dsimp only
  rw [h]

theorem next_of_cons {l : Lexer} {c : Char} {cs : List Char} (h : l.skipBlanks.rest = c :: cs) :
    l.next = (l.skipBlanks.token (.read c cs), l.skipBlanks.past (.read c cs)) := by
  unfold next
  dsimp only
  rw [h]

/-- At the end every further token is the end again. -/
theorem calls_of_nil {l : Lexer} (h : l.skipBlanks.rest = []) (n : Nat) :
    calls n l = List.replicate n (.eof (.point l.skipBlanks.position)) := by
  induction n generalizing l with
  | zero => rfl
  | succ n ih =>
    have hstay : l.skipBlanks.skipBlanks = l.skipBlanks := by
      generalize l.skipBlanks = l' at h ⊢
      obtain ⟨rest, position⟩ := l'
      cases h
      rfl
    rw [calls, next_of_nil h, ih (by rw [hstay]; exact h), hstay, List.replicate_succ]

/-- **Asking a reader for one token after the other** gives its tokens, and then the end again and again. -/
theorem calls_eq (l : Lexer) (n : Nat) :
    calls (l.tokens.toList.length + n) l = l.tokens.toList ++ List.replicate n (.eof l.tokens.stop) := by
  induction l using tokens.induct with
  | case1 l h =>
    have hlength : ([] ++ [Token.eof (.point l.skipBlanks.position)]).length + n = n + 1 := by simp [Nat.add_comm]
    rw [tokens_of_skipBlanks_nil h, Tokens.toList, hlength, calls_of_nil h, List.replicate_succ]
    rfl
  | case2 l c cs h x ih =>
    have hnext := next_of_cons h
    rw [tokens_of_skipBlanks_cons h]
    simp only [Tokens.toList, List.cons_append, List.length_cons] at ih ⊢
    rw [Nat.add_right_comm, calls, hnext]
    exact congrArg _ ih

end Lexer

/-! ## Whole texts -/

/-- The tokens tile the source. -/
structure Tokens.Tiles (ts : Tokens) (source : String) : Prop where
  /-- The end is no token before the last, which covers nothing and stands behind all of the source. -/
  kind_ne_eof : ∀ t ∈ ts.body, t.kind ≠ .eof
  stop : ts.stop.start = Text.byteLength source.toList ∧ ts.stop.stop = Text.byteLength source.toList
  /-- Every other token covers something. -/
  start_lt_stop : ∀ t ∈ ts.body, t.span.start < t.span.stop
  /-- Every token lies between characters of the source, and has its line and column. -/
  standsIn : ∀ t ∈ ts.toList, ∃ before after, t.StandsIn source.toList before after
  ordered : ts.toList.Pairwise fun t u => t.span.stop ≤ u.span.start
  /-- Every character outside of the tokens is blank. -/
  covers : ∀ before c after, source.toList = before ++ c :: after → Text.isBlank c = false →
    ∃ t ∈ ts.body, t.span.start ≤ Text.byteLength before ∧ Text.byteLength before + c.utf8Size ≤ t.span.stop
  /-- Lines and columns are no more than the characters, so 32 bits hold them for fewer than `2 ^ 32 - 1` of these. -/
  counters_le : ∀ t ∈ ts.toList, t.span.line ≤ source.length + 1 ∧ t.span.column ≤ source.length + 1

theorem Token.StandsIn.counters_le {t : Token} {source : String} {before after : List Char}
    (h : t.StandsIn source.toList before after) :
    t.span.line ≤ source.length + 1 ∧ t.span.column ≤ source.length + 1 := by
  have hlength : before.length ≤ source.length := by
    rw [← String.length_toList, h.source, List.append_assoc, List.length_append]
    exact Nat.le_add_right _ _
  have hline := Position.line_behind_le before
  have hcolumn := Position.column_behind_le before
  simp only [Position.behind] at hline hcolumn
  rw [h.line, h.column]
  exact ⟨by omega, by omega⟩

/-- The end of a text stands behind all of it. -/
theorem standsIn_stop (source : String) :
    (Token.eof (tokenize source).stop).StandsIn source.toList source.toList [] := by
  have hstop : (tokenize source).stop = .point (.behind source.toList) := by
    rw [tokenize, Lexer.ofText, Lexer.stop_tokens]
    exact congrArg Span.point (Position.advance_behind [] source.toList)
  rw [hstop]
  constructor
  · simp [Token.eof]
  · rfl
  · simp [Token.eof, Span.point, Span.between, Position.behind]
  · rfl
  · rfl

theorem Token.StandsIn.start_lt_stop {t : Token} {source before after : List Char} (h : t.StandsIn source before after)
    (ht : t.text.toList ≠ []) : t.span.start < t.span.stop := by
  have hpos := Text.byteLength_pos ht
  rw [h.start, h.stop, Text.byteLength_append]
  omega

theorem Token.StandsIn.stop_le {t : Token} {source before after : List Char} (h : t.StandsIn source before after) :
    t.span.stop ≤ Text.byteLength source := by
  rw [h.stop, h.source, Text.byteLength_append (before ++ _)]
  exact Nat.le_add_right _ _

/-- **The tokens of a text tile it**, and are what a reader gives that is asked for one token after the other; behind
the end it gives the end again. -/
theorem tokenize_tiles (source : String) : (tokenize source).Tiles source ∧
    ∀ n, (Lexer.ofText source).calls ((tokenize source).toList.length + n) =
      (tokenize source).toList ++ List.replicate n (.eof (tokenize source).stop) := by
  have hreads := Lexer.reads_tokenize source
  have hend := standsIn_stop source
  have hbody := hreads.standsIn (show _ = Position.behind [] from rfl)
  rw [List.nil_append, List.append_nil] at hbody
  have hstands : ∀ t ∈ (tokenize source).toList, ∃ before after, t.StandsIn source.toList before after := by
    intro t ht
    rcases List.mem_append.1 ht with ht | ht
    · exact (hbody t ht).2
    · rw [List.mem_singleton.1 ht]
      exact ⟨_, _, hend⟩
  refine ⟨⟨hreads.kind_ne_eof, ⟨hend.start, ?_⟩, ?_, hstands, ?_, ?_, ?_⟩, Lexer.calls_eq _⟩
  · simpa [Token.eof] using hend.stop
  · intro t ht
    obtain ⟨hne, _, _, ht'⟩ := hbody t ht
    exact ht'.start_lt_stop hne
  · refine List.pairwise_append.2 ⟨hreads.ordered, List.pairwise_singleton _ _, fun t ht u hu => ?_⟩
    obtain ⟨-, _, _, ht'⟩ := hbody t ht
    rw [List.mem_singleton.1 hu, hend.start]
    exact ht'.stop_le
  · intro before c after hsource hc
    obtain ⟨t, ht, hspan⟩ := hreads.covers hsource hc
    rw [Position.offset_advance, Position.origin, Nat.zero_add] at hspan
    exact ⟨t, ht, hspan⟩
  · intro t ht
    obtain ⟨_, _, ht'⟩ := hstands t ht
    exact ht'.counters_le

end TypeSchema
