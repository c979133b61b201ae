import TypeSchema.Proofs.Lexing.Places

/-!
# Hiding comments

`hideComments` puts a space in the place of every character of a plain comment, line feeds apart.  The comments are then
gone from the tokens, and the other tokens are the same, with the same lines and columns, and with byte offsets in the
same order (`tokens_hideComments`).
-/

namespace TypeSchema

namespace Text

/-- The text, which starts at `offset`, with spaces in the places that `p` picks; line feeds stay. -/
def blankWhere (p : Nat → Bool) (offset : Nat) : List Char → List Char
  | [] => []
  | c :: cs => (if p offset = true ∧ c ≠ '\n' then ' ' else c) :: blankWhere p (offset + c.utf8Size) cs

section

variable {p : Nat → Bool} {offset : Nat}

theorem blankWhere_append (cs ds : List Char) :
    blankWhere p offset (cs ++ ds) = blankWhere p offset cs ++ blankWhere p (offset + byteLength cs) ds := by
  induction cs generalizing offset with
  | nil => rfl
  | cons c cs ih => simp only [List.cons_append, blankWhere, ih, byteLength_cons, Nat.add_assoc]

theorem blankWhere_eq_self {cs : List Char}
    (h : ∀ n, offset ≤ n → n < offset + byteLength cs → p n = false) : blankWhere p offset cs = cs := by
  induction cs generalizing offset with
  | nil => rfl
  | cons c cs ih =>
    have hc := c.utf8Size_pos
    rw [byteLength_cons] at h
    rw [blankWhere, if_neg (by simp [h offset (by omega) (by omega)]), ih fun n h₁ h₂ => h n (by omega) (by omega)]

theorem all_isBlank_blankWhere {cs : List Char}
    (h : ∀ n, offset ≤ n → n < offset + byteLength cs → p n = true) :
    (blankWhere p offset cs).all isBlank = true := by
  induction cs generalizing offset with
  | nil => rfl
  | cons c cs ih =>
    have hc := c.utf8Size_pos
    rw [byteLength_cons] at h
    have hrest : (blankWhere p (offset + c.utf8Size) cs).all isBlank = true :=
      ih fun n h₁ h₂ => h n (by omega) (by omega)
    have hp := h offset (by omega) (by omega)
    rw [blankWhere, List.all_cons, hrest, Bool.and_true]
    by_cases hn : c = '\n'
    · subst hn
      rw [if_neg (by simp)]
      decide
    · rw [if_pos ⟨hp, hn⟩]
      decide

/-- What follows is not blanked if it is a line feed, and is a space if it is blanked. -/
theorem head?_blankWhere (cs : List Char) : (blankWhere p offset cs).head? = cs.head? ∨
    (blankWhere p offset cs).head? = some ' ' ∧ cs.head? ≠ some '\n' := by
  cases cs with
  | nil => exact .inl rfl
  | cons c cs =>
    rw [blankWhere]
    split
    · rename_i h
      exact .inr ⟨rfl, by simpa using h.2⟩
    · exact .inl rfl

end

/-- The number of bytes by which the part of `ds` before an offset is shorter than the same part of `cs`. -/
def lost : List Char → List Char → Nat → Nat
  | c :: cs, d :: ds, n => if d.utf8Size ≤ n then c.utf8Size - d.utf8Size + lost cs ds (n - d.utf8Size) else 0
  | _, _, _ => 0

theorem lost_le {m n : Nat} (h : m ≤ n) (cs ds : List Char) : lost cs ds m ≤ lost cs ds n := by
  induction cs generalizing ds m n with
  | nil => simp [lost]
  | cons c cs ih =>
    cases ds with
    | nil => simp [lost]
    | cons d ds =>
      simp only [lost]
      by_cases hd : d.utf8Size ≤ m
      · have hrest := ih (m := m - d.utf8Size) (n := n - d.utf8Size) (by omega) ds
        rw [if_pos hd, if_pos (by omega)]
        omega
      · rw [if_neg hd]
        omega

/-- A blanked text is not longer, character by character. -/
theorem lost_blankWhere (p : Nat → Bool) (offset : Nat) (cs ds : List Char) :
    byteLength (blankWhere p offset cs) +
      lost (cs ++ ds) (blankWhere p offset (cs ++ ds)) (byteLength (blankWhere p offset cs)) = byteLength cs := by
  induction cs generalizing offset with
  | nil =>
    cases ds with
    | nil => simp [blankWhere, lost]
    | cons d ds =>
      have hd := Char.utf8Size_pos (if p offset = true ∧ d ≠ '\n' then ' ' else d)
      simp only [List.nil_append, blankWhere, byteLength_nil, lost]
      rw [if_neg (by omega)]
  | cons c cs ih =>
    have hc : (if p offset = true ∧ c ≠ '\n' then ' ' else c).utf8Size ≤ c.utf8Size := by
      split
      · exact c.utf8Size_pos
      · exact Nat.le_refl _
    have hrest := ih (offset + c.utf8Size)
    rw [List.cons_append, blankWhere, blankWhere, byteLength_cons, byteLength_cons]
    generalize (if p offset = true ∧ c ≠ '\n' then ' ' else c) = d at hc
    rw [lost, if_pos (by omega), Nat.add_sub_cancel_left]
    omega

end Text

/-! ## Comments of a text -/

/-- Whether the byte at an offset belongs to a plain comment. -/
def isCommentAt (ts : List Token) (offset : Nat) : Bool :=
  ts.any fun t => t.kind.isTrivia && decide (t.span.start ≤ offset ∧ offset < t.span.stop)

/-- The text with a space in the place of every character of a plain comment; line feeds stay. -/
def hideComments (source : String) : String :=
  String.ofList (Text.blankWhere (isCommentAt (tokenize source).body) 0 source.toList)

/-- From places in a text with hidden comments to those in the text itself. -/
def Relocation.unhide (p : Nat → Bool) (cs : List Char) : Relocation where
  offset n := n + Text.lost cs (Text.blankWhere p 0 cs) n
  line n := n
  offset_lt {m n} h := by
    have := Text.lost_le (Nat.le_of_lt h) cs (Text.blankWhere p 0 cs)
    omega
  line_lt h := h

namespace Lexeme

/-- Every lexeme but a comment stops at a space. -/
theorem stops_space {kind : TokenKind} (hk : kind.isTrivia = false) (tail : List Char) : Stops kind (' ' :: tail) := by
  unfold Stops
  split
  · simp
  · simp
    decide
  · simp
    decide
  · cases hk
  · simp
  · trivial

/-- Templates and comments that are open reach the end of the text. -/
theorem rest_of_open {c : Char} {cs : List Char} {fault : LexicalFault} (h : (read c cs).kind = .error fault)
    (hf : fault ≠ .openString) : (read c cs).rest = [] := by
  have hquoted (quote : Char) (cs : List Char) : (quoted quote cs).kind ≠ .error fault := by
    intro h
    simp only [quoted] at h
    split at h
    · cases h
    · cases h
      exact hf rfl
  unfold read at h ⊢
  split at h
  · cases h
  · split at h
    · cases h
    · cases h
    · cases h
    · simp only [blockComment] at h ⊢
      split at h
      · split at h <;> cases h
      · rename_i hopen
        exact rest_of_open_commentBody (Bool.eq_false_iff.2 hopen)
    · split at h
      · exact absurd h (hquoted _ _)
      · rename_i hq
        rw [if_neg hq]
        split at h
        · rename_i hb
          rw [if_pos hb]
          simp only [templated] at h ⊢
          split at h
          · cases h
          · rename_i hopen
            exact rest_of_open_templateBody (Bool.eq_false_iff.2 hopen)
        · split at h
          · cases h
          · split at h <;> cases h

/-- **A lexeme that is no comment is read the same** if what follows is blanked. -/
theorem read_blanked {c : Char} {cs w w' : List Char} {kind : TokenKind} (hc : Text.isBlank c = false)
    (hread : read c (cs ++ w) = ⟨kind, c :: cs, w⟩) (hk : kind.isTrivia = false)
    (hw : w'.head? = w.head? ∨ w'.head? = some ' ' ∧ w.head? ≠ some '\n') (hnil : w = [] → w' = []) :
    read c (cs ++ w') = ⟨kind, c :: cs, w'⟩ := by
  cases he : kind.isError with
  | false =>
    obtain ⟨hspells, hstops⟩ := Lexer.spells_of_read hc hread he
    refine read_of_spells hspells ?_
    rcases hw with hw | ⟨hw, -⟩
    · exact (stops_congr hw).2 hstops
    · have hspace : w'.head? = [' '].head? := hw
      exact (stops_congr hspace).2 (stops_space hk [])
  | true =>
    cases w with
    | nil => rw [hnil rfl]; exact hread
    | cons d ds =>
      cases kind with
      | error fault =>
        -- the lexeme is open and does not end the text, so it is a string that ends with its line
        have hopen := endsIfOpen_read c (cs ++ d :: ds)
        rw [hread] at hopen
        obtain rfl := hopen fault rfl d rfl
        have hhead : w'.head? = some '\n' := by
          rcases hw with hw | ⟨-, hw⟩
          · exact hw
          · exact absurd rfl hw
        obtain ⟨tail, rfl⟩ : ∃ tail, w' = '\n' :: tail := by
          cases w' with
          | nil => cases hhead
          | cons e es => exact ⟨es, by rw [Option.some.inj hhead]⟩
        cases fault with
        | openString => exact read_openString hread tail
        | openTemplate | openComment =>
          have hkind : (read c (cs ++ '\n' :: ds)).kind = .error _ := congrArg Lexeme.kind hread
          have hrest := rest_of_open hkind (by decide)
          rw [hread] at hrest
          cases hrest
      | _ => cases he

end Lexeme

namespace Lexer

theorem reads_of_blanks {b : List Char} (h : b.all Text.isBlank = true) (rest : List Char) (p : Position) :
    Reads rest p b [] := by
  induction b generalizing p with
  | nil => exact .done p
  | cons c b ih =>
    rw [List.all_cons, Bool.and_eq_true] at h
    exact .blank h.1 (ih h.2 _)

/-- No token of a run starts before it. -/
theorem Reads.offset_le_start {w rest : List Char} {p : Position} {ts : List Token} (h : Reads rest p w ts) :
    ∀ t ∈ ts, p.offset ≤ t.span.start := by
  induction h with
  | done => simp
  | blank _ _ ih =>
    intro t ht
    have := ih t ht
    rw [Position.offset_next] at this
    omega
  | @lexeme kind c cs w p ts _ _ _ ih =>
    intro t ht
    rcases List.mem_cons.1 ht with rfl | ht
    · exact Nat.le_refl _
    · have := ih t ht
      rw [Position.offset_advance] at this
      omega

theorem isCommentAt_eq_false {ts : List Token} {n : Nat} (h : ∀ t ∈ ts, n < t.span.start) :
    isCommentAt ts n = false := by
  rw [isCommentAt, List.any_eq_false]
  intro t ht hn
  have := h t ht
  simp only [Bool.and_eq_true, decide_eq_true_eq] at hn
  omega

theorem isCommentAt_spelled (kind : TokenKind) (p : Position) (w : List Char) (ts : List Token) (n : Nat) :
    isCommentAt (.spelled kind p w :: ts) n =
      ((kind.isTrivia && decide (p.offset ≤ n ∧ n < p.offset + Text.byteLength w)) || isCommentAt ts n) := by
  rw [← Position.offset_advance]
  rfl

/-- **Hiding the comments of a run** takes them away from its tokens.  The run stands at `p`, and the blanked one at
`p'`; `r` leads from the places of the one back to those of the other. -/
theorem Reads.hide {p : Position} {w : List Char} {ts : List Token} (h : Reads [] p w ts) (blank : Nat → Bool)
    (p' : Position) (hb : ∀ n, p.offset ≤ n → blank n = isCommentAt ts n) {r : Relocation}
    (hr : ∀ u v, w = u ++ v → r.position (p'.advance (Text.blankWhere blank p.offset u)) = p.advance u) :
    ∃ ts', Reads [] p' (Text.blankWhere blank p.offset w) ts' ∧
      ts'.map r.token = ts.filter fun t => !t.kind.isTrivia := by
  induction h generalizing p' with
  | done p => exact ⟨[], .done _, rfl⟩
  | @blank c w p ts hc hrun ih =>
    have hstart := hrun.offset_le_start
    rw [Position.offset_next] at hstart
    have hpos := c.utf8Size_pos
    have hplain : blank p.offset = false := by
      rw [hb _ (Nat.le_refl _)]
      refine isCommentAt_eq_false fun t ht => ?_
      have := hstart t ht
      omega
    have hhead (cs : List Char) : Text.blankWhere blank p.offset (c :: cs) =
        c :: Text.blankWhere blank (p.next c).offset cs := by
      rw [Text.blankWhere, if_neg (by simp [hplain]), Position.offset_next]
    obtain ⟨ts', hts', hmap⟩ := ih (p'.next c) (fun n hn => hb n (by rw [Position.offset_next] at hn; omega))
      fun u v huv => by
        have := hr (c :: u) v (by rw [huv]; rfl)
        rwa [hhead, Position.advance_cons, Position.advance_cons] at this
    refine ⟨ts', ?_, hmap⟩
    rw [hhead]
    exact .blank hc hts'
  | @lexeme kind c cs w p ts hc hread hrun ih =>
    have hstart := hrun.offset_le_start
    rw [Position.offset_advance] at hstart
    have hcons (cs' : List Char) : Text.blankWhere blank p.offset (c :: (cs ++ cs')) =
        Text.blankWhere blank p.offset (c :: cs) ++ Text.blankWhere blank (p.advance (c :: cs)).offset cs' := by
      rw [← List.cons_append, Text.blankWhere_append, Position.offset_advance]
    -- behind the lexeme only the later tokens count, inside of it only the lexeme
    have hlater (n : Nat) (hn : (p.advance (c :: cs)).offset ≤ n) : blank n = isCommentAt ts n := by
      rw [Position.offset_advance] at hn
      rw [hb n (by omega), isCommentAt_spelled, decide_eq_false (by omega), Bool.and_false, Bool.false_or]
    have hinside (n : Nat) (h₁ : p.offset ≤ n) (h₂ : n < p.offset + Text.byteLength (c :: cs)) :
        blank n = kind.isTrivia := by
      have hts : isCommentAt ts n = false := isCommentAt_eq_false fun t ht => by
        have := hstart t ht
        omega
      rw [hb n h₁, isCommentAt_spelled, hts, Bool.or_false, decide_eq_true ⟨h₁, h₂⟩, Bool.and_true]
    obtain ⟨ts', hts', hmap⟩ := ih (p'.advance (Text.blankWhere blank p.offset (c :: cs))) hlater
      fun u v huv => by
        have := hr (c :: (cs ++ u)) v (by rw [huv]; simp)
        rwa [hcons, Position.advance_append, ← List.cons_append, Position.advance_append] at this
    rw [hcons]
    cases hk : kind.isTrivia with
    | true =>
      refine ⟨ts', ?_, by simpa [hk] using hmap⟩
      have hblanks := Text.all_isBlank_blankWhere (p := blank) fun n h₁ h₂ => (hinside n h₁ h₂).trans hk
      exact (reads_of_blanks hblanks _ _).trans hts'
    | false =>
      have hsame := Text.blankWhere_eq_self (p := blank) fun n h₁ h₂ => (hinside n h₁ h₂).trans hk
      have hfirst : r.position p' = p := hr [] _ rfl
      have hlast := hr (c :: cs) w rfl
      rw [hsame] at hts' hlast ⊢
      refine ⟨.spelled kind p' (c :: cs) :: ts', .lexeme hc ?_ hts', ?_⟩
      · rw [List.append_nil] at hread ⊢
        refine Lexeme.read_blanked hc hread hk (Text.head?_blankWhere w) ?_
        rintro rfl
        rfl
      · rw [List.map_cons, hmap, List.filter_cons_of_pos (by simp [hk])]
        have htoken : r.token (.spelled kind p' (c :: cs)) = .spelled kind p (c :: cs) := by
          show Token.mk kind (.between (r.position p') (r.position (p'.advance (c :: cs)))) _ = _
          rw [hlast, hfirst]
          rfl
        rw [htoken]

end Lexer

/-- Lines and columns of a blanked text are those of the text. -/
theorem Position.advance_blankWhere (p : Nat → Bool) (offset : Nat) (w : List Char) (q : Position) (m : Nat) :
    (⟨m, q.line, q.column⟩ : Position).advance (Text.blankWhere p offset w) =
      ⟨m + Text.byteLength (Text.blankWhere p offset w), (q.advance w).line, (q.advance w).column⟩ := by
  induction w generalizing offset q m with
  | nil => rfl
  | cons c w ih =>
    have hnext (d : Char) (hd : d = '\n' ↔ c = '\n') :
        (⟨m, q.line, q.column⟩ : Position).next d = ⟨m + d.utf8Size, (q.next c).line, (q.next c).column⟩ := by
      simp only [Position.next, hd]
      split <;> rfl
    rw [Text.blankWhere, advance_cons, advance_cons, Text.byteLength_cons, hnext, ih, Nat.add_assoc]
    by_cases hc : c = '\n'
    · simp [hc]
    · simp only [hc, iff_false]
      split
      · decide
      · exact hc

theorem Relocation.unhide_advance (p : Nat → Bool) (u v : List Char) :
    (unhide p (u ++ v)).position (Position.origin.advance (Text.blankWhere p 0 u)) = .advance .origin u := by
  have hlost := Text.lost_blankWhere p 0 u v
  have hplace := Position.advance_blankWhere p 0 u .origin 0
  have hoffset := Position.offset_advance .origin u
  simp only [Position.origin, Nat.zero_add] at hplace hoffset ⊢
  rw [hplace, position]
  simp only [unhide, hlost, ← hoffset]

theorem Lexer.stop_tokens (w : List Char) (p : Position) : (tokens ⟨w, p⟩).stop = .point (p.advance w) := by
  have h := tokens_of_reads (reads_tokens w p)
  rw [List.append_nil, tokens_nil] at h
  rw [h]

/-- **A text with hidden comments has the same significant tokens**, at places in the same order. -/
theorem tokens_hideComments (source : String) :
    ∃ r : Relocation, tokenizeSignificant source = ⟨(tokenizeSignificant (hideComments source)).body.map r.token,
      r.span (tokenizeSignificant (hideComments source)).stop⟩ := by
  let blank := isCommentAt (tokenize source).body
  let r := Relocation.unhide blank source.toList
  have hr (u v : List Char) (h : source.toList = u ++ v) :
      r.position (Position.origin.advance (Text.blankWhere blank 0 u)) = .advance .origin u := by
    simp only [r, h]
    exact Relocation.unhide_advance blank u v
  obtain ⟨ts, hts, hmap⟩ := (Lexer.reads_tokenize source).hide blank .origin (fun _ _ => rfl) hr
  have hbody : (tokenize (hideComments source)).body = ts := Lexer.tokenize_of_reads hts
  -- no comment is left, so that nothing is dropped from the hidden text
  have hplain : ts.filter (fun t => !t.kind.isTrivia) = ts := by
    refine List.filter_eq_self.2 fun t ht => ?_
    have hmem : r.token t ∈ (tokenize source).body.filter fun t => !t.kind.isTrivia :=
      hmap ▸ List.mem_map_of_mem ht
    exact (List.mem_filter.1 hmem).2
  have hend := hr source.toList [] (List.append_nil _).symm
  refine ⟨r, ?_⟩
  simp only [tokenizeSignificant, Tokens.without, Tokens.mk.injEq, hbody, hplain, hmap, true_and]
  simp only [tokenize, Lexer.ofText, hideComments, Lexer.stop_tokens, String.toList_ofList]
  show _ = Span.point (r.position (Position.origin.advance (Text.blankWhere blank 0 source.toList)))
  rw [hend]

end TypeSchema
