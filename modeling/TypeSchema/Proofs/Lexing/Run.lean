import TypeSchema.Proofs.Lexing.Lexeme

/-!
# Runs of the lexer

`Reads rest p w ts` says that the text `w`, which stands at `p` before `rest`, is read as the tokens `ts`.

* `tokens_of_reads`: the tokens of a text start with those of a run;
* `reads_tokens`: there is a run over a whole text;
* `reads_spelled`: one lexeme before a text into which it does not reach is a run;
* `Reads.spells`: every token of a run is open or is spelled as its kind asks;
* `Reads.replace`: without open lexemes, a run does not depend on where its text stands and on what follows it.
-/

namespace TypeSchema

/-- Whether the token is a lexeme that is not closed. -/
def TokenKind.isError : TokenKind → Bool
  | error _ => true
  | _ => false

/-- The token of a lexeme of this kind, spelled `w`, at a position. -/
def Token.spelled (kind : TokenKind) (p : Position) (w : List Char) : Token :=
  ⟨kind, .between p (p.advance w), String.ofList w⟩

@[simp] theorem Token.kind_spelled (kind : TokenKind) (p : Position) (w : List Char) :
    (Token.spelled kind p w).kind = kind := rfl

namespace Lexer

open Lexeme (Spells Stops)

/-- The text `w`, which stands at `p` before `rest`, is read as these tokens. -/
inductive Reads (rest : List Char) : Position → List Char → List Token → Prop
  | done (p : Position) : Reads rest p [] []
  | blank {c : Char} {w : List Char} {p : Position} {ts : List Token} : Text.isBlank c = true →
      Reads rest (p.next c) w ts → Reads rest p (c :: w) ts
  | lexeme {kind : TokenKind} {c : Char} {cs w : List Char} {p : Position} {ts : List Token} :
      Text.isBlank c = false → Lexeme.read c (cs ++ (w ++ rest)) = ⟨kind, c :: cs, w ++ rest⟩ →
      Reads rest (p.advance (c :: cs)) w ts → Reads rest p (c :: (cs ++ w)) (.spelled kind p (c :: cs) :: ts)

theorem Reads.trans {w w' rest : List Char} {p : Position} {ts us : List Token} (h : Reads (w' ++ rest) p w ts)
    (h' : Reads rest (p.advance w) w' us) : Reads rest p (w ++ w') (ts ++ us) := by
  induction h with
  | done p => exact h'
  | blank hc _ ih => exact .blank hc (ih h')
  | @lexeme kind c cs w p ts hc hread _ ih =>
    have hrun : Reads rest (p.advance (c :: cs)) (w ++ w') (ts ++ us) := by
      refine ih ?_
      rwa [← Position.advance_append]
    have hs : c :: (cs ++ w) ++ w' = c :: (cs ++ (w ++ w')) := by simp
    rw [hs]
    refine .lexeme hc ?_ hrun
    rwa [List.append_assoc]

theorem Reads.split {w rest : List Char} {p : Position} {ts us : List Token} (h : Reads rest p w (ts ++ us)) :
    ∃ w₁ w₂, w = w₁ ++ w₂ ∧ Reads (w₂ ++ rest) p w₁ ts ∧ Reads rest (p.advance w₁) w₂ us := by
  generalize hs : ts ++ us = vs at h
  induction h generalizing ts with
  | done p =>
    obtain ⟨rfl, rfl⟩ := List.append_eq_nil_iff.1 hs
    exact ⟨[], [], rfl, .done _, .done _⟩
  | blank hc _ ih =>
    obtain ⟨w₁, w₂, rfl, h₁, h₂⟩ := ih hs
    exact ⟨_, _, rfl, .blank hc h₁, h₂⟩
  | @lexeme kind c cs w p vs hc hread hr ih =>
    cases ts with
    | nil =>
      obtain rfl : us = _ := hs
      exact ⟨[], _, rfl, .done _, .lexeme hc hread hr⟩
    | cons t ts =>
      obtain ⟨rfl, hs'⟩ := List.cons.inj hs
      obtain ⟨w₁, w₂, rfl, h₁, h₂⟩ := ih hs'
      refine ⟨c :: (cs ++ w₁), w₂, by simp, .lexeme hc ?_ h₁, ?_⟩
      · rwa [List.append_assoc] at hread
      · rwa [← List.cons_append, Position.advance_append]

/-! ## The tokens of a text -/

theorem skipBlanks_blank {c : Char} (h : Text.isBlank c = true) (cs : List Char) (p : Position) :
    skipBlanks ⟨c :: cs, p⟩ = skipBlanks ⟨cs, p.next c⟩ := by
  simp [skipBlanks, h]

theorem skipBlanks_of_not_blank {c : Char} (h : Text.isBlank c = false) (cs : List Char) (p : Position) :
    skipBlanks ⟨c :: cs, p⟩ = ⟨c :: cs, p⟩ := by
  simp [skipBlanks, h]

theorem tokens_of_skipBlanks_nil {l : Lexer} (h : l.skipBlanks.rest = []) :
    l.tokens = ⟨[], .point l.skipBlanks.position⟩ := by
  rw [tokens.eq_def]
  split
  · rfl
  · rename_i h'
    rw [h] at h'
    cases h'

theorem tokens_of_skipBlanks_cons {l : Lexer} {c : Char} {cs : List Char} (h : l.skipBlanks.rest = c :: cs) :
    l.tokens = { (l.skipBlanks.past (.read c cs)).tokens with
      body := l.skipBlanks.token (.read c cs) :: (l.skipBlanks.past (.read c cs)).tokens.body } := by
  rw [tokens.eq_def]
  split
  · rename_i h'
    rw [h] at h'
    cases h'
  · rename_i h'
    rw [h] at h'
    cases h'
    rfl

theorem tokens_blank {c : Char} (h : Text.isBlank c = true) (cs : List Char) (p : Position) :
    tokens ⟨c :: cs, p⟩ = tokens ⟨cs, p.next c⟩ := by
  have hs := skipBlanks_blank h cs p
  cases hr : (skipBlanks ⟨cs, p.next c⟩).rest with
  | nil => rw [tokens_of_skipBlanks_nil (by rw [hs, hr]), tokens_of_skipBlanks_nil hr, hs]
  | cons d ds => rw [tokens_of_skipBlanks_cons (by rw [hs, hr]), tokens_of_skipBlanks_cons hr, hs]

theorem tokens_lexeme {c : Char} {cs covered rest : List Char} {kind : TokenKind} (h : Text.isBlank c = false)
    (hread : Lexeme.read c cs = ⟨kind, covered, rest⟩) (p : Position) :
    tokens ⟨c :: cs, p⟩ = { tokens ⟨rest, p.advance covered⟩ with
      body := .spelled kind p covered :: (tokens ⟨rest, p.advance covered⟩).body } := by
  have hs := skipBlanks_of_not_blank h cs p
  rw [tokens_of_skipBlanks_cons (by rw [hs]), hs, hread]
  rfl

theorem tokens_nil (p : Position) : tokens ⟨[], p⟩ = ⟨[], .point p⟩ := tokens_of_skipBlanks_nil rfl

/-- The tokens of a text start with those of a run. -/
theorem tokens_of_reads {w rest : List Char} {p : Position} {ts : List Token} (h : Reads rest p w ts) :
    tokens ⟨w ++ rest, p⟩ =
      ⟨ts ++ (tokens ⟨rest, p.advance w⟩).body, (tokens ⟨rest, p.advance w⟩).stop⟩ := by
  induction h with
  | done p => rfl
  | blank hc _ ih => rw [List.cons_append, tokens_blank hc, ih, Position.advance_cons]
  | @lexeme kind c cs w p ts hc hread _ ih =>
    rw [List.cons_append, List.append_assoc, tokens_lexeme hc hread, ih, ← Position.advance_append,
      List.cons_append]
    rfl

/-- There is a run over a whole text. -/
theorem reads_tokens (w : List Char) (p : Position) : Reads [] p w (tokens ⟨w, p⟩).body := by
  -- by the length of the text, since a lexeme may take any number of characters
  generalize hn : w.length = n
  induction n using Nat.strongRecOn generalizing w p with
  | ind n ih =>
    cases w with
    | nil =>
      rw [tokens_nil]
      exact .done p
    | cons c cs =>
      cases hc : Text.isBlank c with
      | true =>
        rw [tokens_blank hc]
        exact .blank hc (ih cs.length (by rw [← hn]; simp) cs _ rfl)
      | false =>
        have hlt := Lexeme.length_rest_lt c cs
        have happ := Lexeme.covered_append_rest c cs
        obtain ⟨d, ds, hd⟩ := List.exists_cons_of_ne_nil (Lexeme.covered_ne_nil c cs)
        cases hread : Lexeme.read c cs with
        | mk kind covered rest =>
          rw [hread] at hlt happ hd
          dsimp only at hlt happ hd
          subst hd
          obtain ⟨rfl, rfl⟩ := List.cons.inj happ
          rw [tokens_lexeme hc hread]
          refine .lexeme hc ?_ (ih rest.length (by omega) rest _ rfl)
          rwa [List.append_nil]

theorem reads_tokenize (source : String) : Reads [] .origin source.toList (tokenize source).body :=
  reads_tokens _ _

theorem tokenize_of_reads {w : List Char} {ts : List Token} (h : Reads [] .origin w ts) :
    (tokenize (String.ofList w)).body = ts := by
  have ht := tokens_of_reads h
  rw [List.append_nil, tokens_nil, List.append_nil] at ht
  simp only [tokenize, ofText, String.toList_ofList, ht]

/-! ## Runs from lexemes -/

theorem reads_blank {c : Char} (h : Text.isBlank c = true) (rest : List Char) (p : Position) :
    Reads rest p [c] [] := .blank h (.done _)

/-- No identifier goes on into this text. -/
def Follow (rest : List Char) : Prop := ∀ c, rest.head? = some c → Identifier.isPart c = false

theorem follow_cons {c : Char} (h : Identifier.isPart c = false) (rest : List Char) : Follow (c :: rest) := by
  intro d hd
  obtain rfl := Option.some.inj hd
  exact h

theorem follow_punct (x : Punct) (rest : List Char) : Follow (x.symbol ++ rest) := by
  cases x <;> exact follow_cons (by decide) _

end Lexer

namespace Lexeme

/-- No lexeme starts with a blank. -/
theorem exists_head_of_spells {kind : TokenKind} {w : List Char} (h : Spells kind w) :
    ∃ c cs, w = c :: cs ∧ Text.isBlank c = false := by
  cases h with
  | punct p => cases p <;> exact ⟨_, _, rfl, by decide⟩
  | ident hi =>
    cases w with
    | nil => cases hi
    | cons c cs =>
      rw [Identifier.isIdentifier, Bool.and_eq_true] at hi
      exact ⟨c, cs, rfl, Identifier.isBlank_eq_false_of_isStart hi.1⟩
  | @number c cs hd => exact ⟨c, cs, rfl, Text.isBlank_eq_false_of_isDigit hd⟩
  | str hq => rcases hq with rfl | rfl <;> exact ⟨_, _, rfl, by decide⟩
  | template => exact ⟨_, _, rfl, by decide⟩
  | docComment => exact ⟨_, _, rfl, by decide⟩
  | blockComment => exact ⟨_, _, rfl, by decide⟩
  | lineComment => exact ⟨_, _, rfl, by decide⟩
  | @other c ho =>
    simp only [isOther, Bool.and_eq_true, Bool.not_eq_true'] at ho
    exact ⟨c, [], rfl, ho.2⟩

end Lexeme

namespace Lexer

open Lexeme (Spells Stops)

/-- One lexeme before a text into which it does not reach is a run. -/
theorem reads_spelled {kind : TokenKind} {w rest : List Char} (h : Spells kind w) (hs : Stops kind rest)
    (p : Position) : Reads rest p w [.spelled kind p w] := by
  obtain ⟨c, cs, rfl, hc⟩ := Lexeme.exists_head_of_spells h
  have hread := Lexeme.read_of_spells h hs
  have hrun : Reads rest p (c :: (cs ++ [])) [.spelled kind p (c :: cs)] := .lexeme hc hread (.done _)
  rwa [List.append_nil] at hrun

theorem reads_cons {kind : TokenKind} {w w' rest : List Char} {p : Position} {ts : List Token} (h : Spells kind w)
    (hs : Stops kind (w' ++ rest)) (h' : Reads rest (p.advance w) w' ts) :
    Reads rest p (w ++ w') (.spelled kind p w :: ts) := (reads_spelled h hs p).trans h'

theorem spells_of_read {c : Char} {cs covered rest : List Char} {kind : TokenKind} (hc : Text.isBlank c = false)
    (hread : Lexeme.read c cs = ⟨kind, covered, rest⟩) (he : kind.isError = false) :
    Spells kind covered ∧ Stops kind rest := by
  have hf := @Lexeme.fits_read c cs hc fun fault h => by
    rw [hread] at h
    dsimp only at h
    rw [h] at he
    cases he
  rw [hread] at hf
  exact ⟨hf.spells, hf.stops⟩

end Lexer

/-- The token is an open lexeme, or it is spelled as its kind asks. -/
def Token.IsSpelled (t : Token) : Prop := t.kind.isError = false → Lexeme.Spells t.kind t.text.toList

theorem Token.IsSpelled.isIdentifier {t : Token} (h : t.IsSpelled) {name : String} (hk : t.kind = .ident name) :
    Identifier.isIdentifier name.toList = true := by
  have hs := h (by rw [hk]; rfl)
  rw [hk] at hs
  generalize t.text.toList = w at hs
  cases hs with
  | ident hi => rwa [String.toList_ofList]

theorem Token.IsSpelled.quotedText {t : Token} (h : t.IsSpelled) {value : String} {quote : Char}
    (hk : t.kind = .str value quote) : (quote = '"' ∨ quote = '\'') ∧ Lexeme.QuotedText quote value.toList := by
  have hs := h (by rw [hk]; rfl)
  rw [hk] at hs
  generalize t.text.toList = w at hs
  cases hs with
  | str hq hb => exact ⟨hq, by rwa [String.toList_ofList]⟩

namespace Lexer

open Lexeme (Spells Stops)

/-- Every token of a run is open or is spelled as its kind asks. -/
theorem Reads.spells {w rest : List Char} {p : Position} {ts : List Token} (h : Reads rest p w ts) :
    ∀ t ∈ ts, t.IsSpelled := by
  induction h with
  | done => simp
  | blank _ _ ih => exact ih
  | @lexeme kind c cs w p ts hc hread _ ih =>
    intro t ht he
    rcases List.mem_cons.1 ht with rfl | ht
    · simpa [Token.spelled] using (spells_of_read hc hread he).1
    · exact ih t ht he

/-- The end of input is no token of a text. -/
theorem Reads.kind_ne_eof {w rest : List Char} {p : Position} {ts : List Token} (h : Reads rest p w ts) :
    ∀ t ∈ ts, t.kind ≠ .eof := by
  intro t ht he
  have hs := h.spells t ht (by rw [he]; rfl)
  rw [he] at hs
  cases hs

theorem Reads.eq_nil {rest : List Char} {p : Position} {ts : List Token} (h : Reads rest p [] ts) : ts = [] := by
  cases h
  rfl

/-- **Moving a run.**  Without open lexemes, a run does not depend on where its text stands, and on what follows it
only as far as the last lexeme goes. -/
theorem Reads.replace {w rest : List Char} {p : Position} {ts : List Token} (h : Reads rest p w ts)
    (he : ∀ t ∈ ts, t.kind.isError = false) {rest' : List Char} (hl : ∀ t ∈ ts.getLast?, Stops t.kind rest')
    (p' : Position) : ∃ ts', Reads rest' p' w ts' ∧ ts'.map Token.kind = ts.map Token.kind := by
  induction h generalizing p' with
  | done => exact ⟨[], .done _, rfl⟩
  | blank hc _ ih =>
    obtain ⟨ts', hr, hk⟩ := ih he hl (p'.next _)
    exact ⟨ts', .blank hc hr, hk⟩
  | @lexeme kind c cs w p ts hc hread hrun ih =>
    obtain ⟨hspells, hstops⟩ := spells_of_read hc hread (he _ List.mem_cons_self)
    have htail : ∀ t ∈ ts.getLast?, Stops t.kind rest' := by
      intro t ht
      cases ts with
      | nil => cases ht
      | cons u us => exact hl t (by rwa [List.getLast?_cons_cons])
    obtain ⟨ts', hr, hk⟩ := ih (fun t ht => he t (List.mem_cons_of_mem _ ht)) htail (p'.advance (c :: cs))
    refine ⟨.spelled kind p' (c :: cs) :: ts', .lexeme hc ?_ hr, by simp [hk]⟩
    refine Lexeme.read_of_spells hspells ?_
    -- what comes next is the same character, unless this was the last lexeme
    cases w with
    | nil =>
      obtain rfl := hrun.eq_nil
      exact hl (.spelled kind p (c :: cs)) rfl
    | cons d ds => exact (Lexeme.stops_congr rfl).1 hstops

/-! ## The place of a run -/

theorem Reads.exists_head {w rest : List Char} {p : Position} {t : Token} {ts : List Token}
    (h : Reads rest p w (t :: ts)) :
    ∃ b v, w = b ++ v ∧ b.all Text.isBlank = true ∧ Reads rest (p.advance b) v (t :: ts) ∧
      t.span.start = (p.advance b).offset ∧ Text.startsWord v = true := by
  generalize hs : t :: ts = us at h
  induction h with
  | done => cases hs
  | @blank c w p us hc _ ih =>
    obtain ⟨b, v, rfl, hb, hr, ht, hv⟩ := ih hs
    exact ⟨c :: b, v, rfl, by simp [hc, hb], hr, ht, hv⟩
  | @lexeme kind c cs w p us hc hread hr ih =>
    obtain ⟨rfl, rfl⟩ := List.cons.inj hs
    exact ⟨[], _, rfl, rfl, .lexeme hc hread hr, rfl, by simp [Text.startsWord, hc]⟩

theorem Reads.blanks {w rest : List Char} {p : Position} (h : Reads rest p w []) : w.all Text.isBlank = true := by
  generalize hs : ([] : List Token) = ts at h
  induction h with
  | done => rfl
  | blank hc _ ih => simp [hc, ih hs]
  | lexeme => cases hs

theorem Reads.exists_last {w rest : List Char} {p : Position} {t : Token} {ts : List Token}
    (h : Reads rest p w (ts ++ [t])) :
    ∃ u b, w = u ++ t.text.toList ++ b ∧ b.all Text.isBlank = true ∧
      Reads (b ++ rest) p (u ++ t.text.toList) (ts ++ [t]) ∧ t.span.stop = (p.advance (u ++ t.text.toList)).offset := by
  generalize hs : ts ++ [t] = us at h
  induction h generalizing ts with
  | done => simp at hs
  | @blank c w p us hc _ ih =>
    obtain ⟨u, b, rfl, hb, hr, ht⟩ := ih hs
    exact ⟨c :: u, b, rfl, hb, .blank hc hr, ht⟩
  | @lexeme kind c cs w p us hc hread hr ih =>
    cases ts with
    | nil =>
      obtain ⟨rfl, rfl⟩ := List.cons.inj hs
      have hrun : Reads (w ++ rest) p (c :: (cs ++ [])) [.spelled kind p (c :: cs)] := .lexeme hc hread (.done _)
      rw [List.append_nil] at hrun
      simp only [Token.spelled, String.toList_ofList]
      exact ⟨[], w, rfl, hr.blanks, hrun, rfl⟩
    | cons u ts =>
      obtain ⟨rfl, hs'⟩ := List.cons.inj hs
      obtain ⟨v, b, rfl, hb, hrun, ht⟩ := ih hs'
      refine ⟨c :: (cs ++ v), b, by simp, hb, ?_, ?_⟩
      · have hread' := hread
        rw [List.append_assoc (v ++ _)] at hread'
        have hlast := Reads.lexeme hc hread' hrun
        rwa [List.cons_append, List.append_assoc]
      · rwa [← List.cons_append, List.append_assoc, Position.advance_append]

end Lexer

/-! ## Slices -/

namespace Text

theorem splitBytes?_append (cs ds : List Char) : splitBytes? (byteLength cs) (cs ++ ds) = some (cs, ds) := by
  induction cs with
  | nil => cases ds <;> rfl
  | cons c cs ih =>
    have hc := c.utf8Size_pos
    obtain ⟨n, hn⟩ : ∃ n, byteLength (c :: cs) = n + 1 := ⟨byteLength (c :: cs) - 1, by simp; omega⟩
    have hrest : n + 1 - c.utf8Size = byteLength cs := by simp at hn; omega
    rw [hn, List.cons_append, splitBytes?, if_pos (by simp at hn; omega), hrest, ih]
    rfl

/-- The slice of a text between the ends of two of its pieces. -/
theorem slice?_append (before inside after : List Char) :
    slice? (byteLength before) (byteLength (before ++ inside)) (before ++ inside ++ after) = some inside := by
  have h : byteLength (before ++ inside) - byteLength before = byteLength inside := by simp
  rw [slice?, if_neg (by simp), List.append_assoc, splitBytes?_append, h]
  simp only [Option.bind_eq_bind, Option.bind_some, splitBytes?_append, Option.pure_def]

end Text

/-- **The text from the first to the last token of a run** is the text of the run without the blanks at its ends. -/
theorem Lexer.Reads.exists_slice {w rest : List Char} {p : Position} {first last : Token} {ts : List Token}
    (h : Reads rest p w ts) (hf : ts.head? = some first) (hl : ts.getLast? = some last) :
    ∃ b v b', w = b ++ v ++ b' ∧ b.all Text.isBlank = true ∧ b'.all Text.isBlank = true ∧
      Reads (b' ++ rest) (p.advance b) v ts ∧ Text.startsWord v = true ∧ last.text.toList <:+ v ∧
      ∀ before source, source.toList = before ++ w ++ rest → p = Position.origin.advance before →
        (first.span.upTo last.span).text source = String.ofList v := by
  obtain ⟨us, rfl⟩ := List.head?_eq_some_iff.1 hf
  obtain ⟨b, u, rfl, hb, hr, hfirst, hu⟩ := h.exists_head
  obtain ⟨init, hi⟩ := List.getLast?_eq_some_iff.1 hl
  rw [hi] at hr
  obtain ⟨v, b', rfl, hb', hr', hlast⟩ := hr.exists_last
  rw [← hi] at hr'
  have hv : Text.startsWord (v ++ last.text.toList) = true := by
    cases hw : v ++ last.text.toList with
    | nil =>
      rw [hw] at hr'
      cases hr'.eq_nil
    | cons c cs => rwa [hw] at hu
  refine ⟨b, _, b', by simp, hb, hb', hr', hv, List.suffix_append _ _, ?_⟩
  intro before source hs hp
  have hstart : first.span.start = Text.byteLength (before ++ b) := by
    rw [hfirst, hp, ← Position.advance_append, Position.offset_advance]
    simp [Position.origin]
  have hstop : last.span.stop = Text.byteLength (before ++ b ++ (v ++ last.text.toList)) := by
    rw [hlast, hp, ← Position.advance_append, ← Position.advance_append, Position.offset_advance]
    simp [Position.origin]
  have hcut : source.toList = before ++ b ++ (v ++ last.text.toList) ++ (b' ++ rest) := by simp [hs]
  simp only [Span.text, Span.upTo, hstart, hstop, hcut, Text.slice?_append]

end TypeSchema
