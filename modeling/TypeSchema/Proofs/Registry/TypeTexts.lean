import Mathlib
import TypeSchema.Proofs.Lexing.Comments
import TypeSchema.Proofs.Registry.Origins
import TypeSchema.Proofs.TypeExpr.Agreement

/-!
# Texts of types

The text of a type is put together from the texts of its tokens, with a space only where there was something between
two of them.  Tokens that stand next to each other in a source do not run into each other, and neither do tokens with a
space between them, so the text is read as the same tokens (`reads_spell`).  `types_keep_tokens` says so of every type
that is found in a source.
-/

namespace TypeSchema

/-! ## Neighbouring tokens -/

/-- `u` comes behind `t`: there is something between them, or the lexeme of `t` stops where `u` starts. -/
def Token.Before (t u : Token) : Prop :=
  t.span.stop < u.span.start ∨
    t.span.stop = u.span.start ∧ (t.kind.isError = false → Lexeme.Stops t.kind u.text.toList)

namespace Lexer

/-- A token that starts where a run starts is the first thing in its text. -/
theorem Reads.text_prefix {w rest : List Char} {p : Position} {ts : List Token} (h : Reads rest p w ts) {t : Token}
    (ht : t ∈ ts) (hs : t.span.start = p.offset) : t.text.toList <+: w := by
  cases h with
  | done => cases ht
  | @blank c w p ts _ hrun =>
    have hstart := hrun.offset_le_start t ht
    have hc := c.utf8Size_pos
    rw [Position.offset_next] at hstart
    omega
  | @lexeme kind c cs w p ts _ _ hrun =>
    rcases List.mem_cons.1 ht with rfl | ht
    · exact ⟨w, by simp [Token.spelled]⟩
    · have hstart := hrun.offset_le_start t ht
      have hc := c.utf8Size_pos
      rw [Position.offset_advance, Text.byteLength_cons] at hstart
      omega

theorem Reads.text_ne_nil {w rest : List Char} {p : Position} {ts : List Token} (h : Reads rest p w ts) :
    ∀ t ∈ ts, t.text.toList ≠ [] := by
  induction h with
  | done => simp
  | blank _ _ ih => exact ih
  | @lexeme kind c cs w p ts _ _ _ ih =>
    intro t ht
    rcases List.mem_cons.1 ht with rfl | ht
    · simp [Token.spelled]
    · exact ih t ht

/-- **The tokens of a run come one behind the other.** -/
theorem Reads.pairwise {w rest : List Char} {p : Position} {ts : List Token} (h : Reads rest p w ts) :
    ts.Pairwise Token.Before := by
  induction h with
  | done => exact .nil
  | blank _ _ ih => exact ih
  | @lexeme kind c cs w p ts hc hread hrun ih =>
    refine .cons (fun u hu => ?_) ih
    have hstart := hrun.offset_le_start u hu
    by_cases hlt : (p.advance (c :: cs)).offset < u.span.start
    · exact .inl hlt
    · have heq : u.span.start = (p.advance (c :: cs)).offset := by omega
      refine .inr ⟨heq.symm, fun he => ?_⟩
      -- nothing stands between the two, so what follows the lexeme is the text of `u`
      obtain ⟨v, rfl⟩ := hrun.text_prefix hu heq
      obtain ⟨d, ds, hd⟩ := List.exists_cons_of_ne_nil (hrun.text_ne_nil u hu)
      refine (Lexeme.stops_congr ?_).1 (spells_of_read hc hread he).2
      rw [hd]
      rfl

end Lexer

namespace Extract

open Lexer (Reads)

theorem head?_spell {t : Token} (ht : t.text.toList ≠ []) (ts : List Token) :
    (spell (t :: ts)).toList.head? = t.text.toList.head? := by
  obtain ⟨c, cs, hc⟩ := List.exists_cons_of_ne_nil ht
  cases ts with
  | nil => rfl
  | cons u us => simp [spell, hc]

/-- **Spelled tokens are read back**: no two of them run together, and none opens a comment. -/
theorem reads_spell {ts : List Token} (hs : ∀ t ∈ ts, t.IsSpelled) (he : ∀ t ∈ ts, t.kind.isError = false)
    (hc : ∀ t ∈ ts, t.kind.isTrivia = false) (hp : ts.Pairwise Token.Before) (p : Position) :
    ∃ ts', Reads [] p (spell ts).toList ts' ∧ ts'.map Token.kind = ts.map Token.kind := by
  induction ts generalizing p with
  | nil => exact ⟨[], .done p, rfl⟩
  | cons t ts ih =>
    have hspells : Lexeme.Spells t.kind t.text.toList := hs t List.mem_cons_self (he t List.mem_cons_self)
    cases ts with
    | nil => exact ⟨_, Lexer.reads_spelled hspells (Lexeme.stops_nil _) p, rfl⟩
    | cons u us =>
      have hu : u ∈ u :: us := List.mem_cons_self
      obtain ⟨hnext, hp⟩ := List.pairwise_cons.1 hp
      have hrest := ih (fun v hv => hs v (List.mem_cons_of_mem t hv)) (fun v hv => he v (List.mem_cons_of_mem t hv))
        (fun v hv => hc v (List.mem_cons_of_mem t hv)) hp
      rcases hnext u hu with hgap | ⟨hgap, hstops⟩
      · -- a space is put between the two
        obtain ⟨us', hreads, hkinds⟩ := hrest ((p.advance t.text.toList).next ' ')
        have htext : (spell (t :: u :: us)).toList = t.text.toList ++ ' ' :: (spell (u :: us)).toList := by
          simp [spell, hgap]
        have hblank : Reads [] (p.advance t.text.toList) (' ' :: (spell (u :: us)).toList) us' :=
          .blank (by decide) hreads
        refine ⟨.spelled t.kind p t.text.toList :: us', ?_, ?_⟩
        · rw [htext]
          exact Lexer.reads_cons hspells (Lexeme.stops_space (hc t List.mem_cons_self) _) hblank
        · rw [List.map_cons, hkinds, Token.kind_spelled, ← List.map_cons]
      · obtain ⟨us', hreads, hkinds⟩ := hrest (p.advance t.text.toList)
        have htext : (spell (t :: u :: us)).toList = t.text.toList ++ (spell (u :: us)).toList := by
          simp [spell, hgap]
        have hne : u.text.toList ≠ [] := by
          have hu' := hs u (List.mem_cons_of_mem t hu) (he u (List.mem_cons_of_mem t hu))
          obtain ⟨c, cs, hcs, -⟩ := Lexeme.exists_head_of_spells hu'
          rw [hcs]
          exact List.cons_ne_nil c cs
        refine ⟨.spelled t.kind p t.text.toList :: us', ?_, ?_⟩
        · rw [htext]
          refine Lexer.reads_cons hspells ?_ hreads
          refine (Lexeme.stops_congr ?_).1 (hstops (he t List.mem_cons_self))
          rw [List.append_nil, head?_spell hne]
        · rw [List.map_cons, hkinds, Token.kind_spelled, ← List.map_cons]

/-! ## Types of a source -/

/-- The tokens of a range that a type is made of. -/
def typeTokens (inside : List Token) : List Token := inside.filter fun t => !isDoc t

/-- The text of a type stands for its range of tokens: it is read as tokens of the same kinds, none of which is a
comment, and as a type expression it reads as the tokens of the range do. -/
structure KeepsTokens (source : String) (inside : List Token) (type : String) : Prop where
  kinds : (tokenize type).body.map Token.kind = (typeTokens inside).map Token.kind
  noComment : ∀ t ∈ (tokenize type).body, t.kind.isComment = false
  reading : TypeExpr.SameReading (TypeExpr.parse type)
    ({ source, stop := (tokenize source).stop, rest := typeTokens inside } : Parser).run.1

theorem keepsTokens_of_typeText? {source type : String} {inside : List Token}
    (hin : inside.Sublist (tokenizeSignificant source).body) (he : ∀ t ∈ inside, t.kind.isError = false)
    (htype : typeText? inside = some type) : KeepsTokens source inside type := by
  have hreads := Lexer.reads_tokenize source
  have hsub : (typeTokens inside).Sublist (tokenizeSignificant source).body := List.filter_sublist.trans hin
  have hbody : (typeTokens inside).Sublist (tokenize source).body := hsub.trans List.filter_sublist
  have htrivia : ∀ t ∈ typeTokens inside, t.kind.isTrivia = false := by
    intro t ht
    simpa using (List.mem_filter.1 (hsub.subset ht)).2
  have hcomment : ∀ t ∈ typeTokens inside, t.kind.isComment = false := by
    intro t ht
    have h₁ := htrivia t ht
    have h₂ := (List.mem_filter.1 ht).2
    cases hk : t.kind with
    | docComment => rw [isDoc, hk] at h₂; cases h₂
    | comment => rw [hk] at h₁; cases h₁
    | _ => rfl
  obtain ⟨ts, hts, hkinds⟩ := reads_spell (fun t ht => hreads.spells t (hbody.subset ht))
    (fun t ht => he t (List.mem_filter.1 ht).1) htrivia (hreads.pairwise.sublist hbody) .origin
  obtain rfl : spell (typeTokens inside) = type := by
    unfold typeText? at htype
    dsimp only at htype
    split at htype
    · cases htype
    · exact Option.some.inj htype
  have htoks : (tokenize (spell (typeTokens inside))).body = ts := by
    have h := Lexer.tokenize_of_reads hts
    rwa [String.ofList_toList] at h
  have hplain : ∀ t ∈ ts, t.kind.isComment = false := by
    intro t ht
    have hmem : t.kind ∈ (typeTokens inside).map Token.kind := hkinds ▸ List.mem_map_of_mem ht
    obtain ⟨u, hu, hk⟩ := List.mem_map.1 hmem
    rw [← hk]
    exact hcomment u hu
  rw [← htoks] at hkinds hplain
  have hrest : (Parser.ofText (spell (typeTokens inside))).rest = (tokenize (spell (typeTokens inside))).body :=
    List.filter_eq_self.2 fun t ht => by simp [hplain t ht]
  have htexts : Parser.HasTexts (spell (typeTokens inside)) (Parser.ofText (spell (typeTokens inside))).rest :=
    Parser.hasTexts_of_sublist (hrest ▸ List.Sublist.refl _)
  have halike : Parser.Alike (spell (typeTokens inside), source) (.ofText (spell (typeTokens inside)))
      { source, stop := (tokenize source).stop, rest := typeTokens inside } :=
    ⟨by rw [hrest]; exact hkinds, rfl, rfl, rfl, htexts, Parser.hasTexts_of_sublist hbody⟩
  exact ⟨hkinds, hplain, Parser.sameReading_run halike⟩

/-- **Types keep their tokens.**  Every alias and every field that is found in a source has its type from a range of
tokens of the source.  If no token of the range is open, the text of the type is read as the tokens of the range
without documentation comments. -/
theorem types_keep_tokens (source : String) :
    (∀ a, .typeAlias a ∈ findings source → ∃ inside, AliasRange (tokenizeSignificant source).body a inside ∧
      ((∀ t ∈ inside, t.kind.isError = false) → KeepsTokens source inside a.type)) ∧
    ∀ i, .interface i ∈ findings source → ∀ f ∈ i.fields, ∃ inside,
      FieldRange (tokenizeSignificant source).body f inside ∧
      ((∀ t ∈ inside, t.kind.isError = false) → KeepsTokens source inside f.type) := by
  refine ⟨fun a ha => ?_, fun i hi f hf => ?_⟩
  · obtain ⟨inside, hrange, htype⟩ := exists_aliasRange (foundIn_of_mem_scan ha)
    exact ⟨inside, hrange, fun he => keepsTokens_of_typeText? hrange.isInfix.sublist he htype⟩
  · obtain ⟨inside, hrange, htype⟩ := exists_fieldRange (foundIn_of_mem_scan hi) hf
    exact ⟨inside, hrange, fun he => keepsTokens_of_typeText? hrange.isInfix.sublist he htype⟩

/-- A source with comments of both sorts in the type of an alias. -/
def commented : String := "type A = (B /** d */|/* c */'x  y');"

theorem types_keep_tokens_commented :
    ∃ inside, AliasRange (tokenizeSignificant commented).body ⟨"A", "(B | 'x  y')", ⟨0, 4, 1, 1⟩⟩ inside ∧
      KeepsTokens commented inside "(B | 'x  y')" := by
  have hfound : findings commented = [.typeAlias ⟨"A", "(B | 'x  y')", ⟨0, 4, 1, 1⟩⟩] := by cbv
  have hclosed : ((tokenizeSignificant commented).body.all fun t => !t.kind.isError) = true := by cbv
  obtain ⟨inside, hrange, hkeeps⟩ := (types_keep_tokens commented).1 _ (hfound ▸ List.mem_singleton.2 rfl)
  refine ⟨inside, hrange, hkeeps fun t ht => ?_⟩
  have ht' := List.all_eq_true.1 hclosed t (hrange.isInfix.subset ht)
  simpa using ht'

end Extract

end TypeSchema
