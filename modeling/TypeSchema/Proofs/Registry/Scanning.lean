import TypeSchema.Proofs.Lexing.Run
import TypeSchema.Registry.Extract

/-!
# Walking over code

`Finds ts found` says that a walk over the tokens `ts` comes upon exactly the aliases `found`, whatever follows.

* `finds_of_passes`: tokens are passed over if every word that starts a declaration stands behind a dot or before a
  colon;
* `finds_binding`: the type that is inferred from a schema is found under its name.
-/

namespace TypeSchema

namespace Extract

/-- A walk over these tokens, whatever follows them, finds aliases with these names and types, and nothing else. -/
def Finds (ts : List Token) (found : List (String × String)) : Prop :=
  ∀ stop rest, ∃ as : List Alias, as.map (fun a => (a.name, a.type)) = found ∧
    scan stop false (ts ++ rest) = as.map .typeAlias ++ scan stop false rest

theorem Finds.append {ts us : List Token} {found found' : List (String × String)} (h : Finds ts found)
    (h' : Finds us found') : Finds (ts ++ us) (found ++ found') := by
  intro stop rest
  obtain ⟨as, has, hs⟩ := h stop (us ++ rest)
  obtain ⟨bs, hbs, hs'⟩ := h' stop rest
  refine ⟨as ++ bs, by rw [List.map_append, has, hbs], ?_⟩
  rw [List.append_assoc, hs, hs', List.map_append, List.append_assoc]

/-! ## Code without declarations -/

/-- Whether the kind is a word that starts a declaration. -/
def startsDeclaration (kind : TokenKind) : Bool := ["interface", "type", "enum"].any fun word => kind == .ident word

/-- Whether there is no declaration among tokens of these kinds, and no dot at their end: words that start a
declaration stand behind a dot or before a colon. -/
def passes : Bool → List TokenKind → Bool
  | afterDot, [] => !afterDot
  | afterDot, kind :: kinds =>
    (afterDot || !startsDeclaration kind || kinds.head? == some (.punct .colon)) && passes (kind == .punct .dot) kinds

theorem keywordKind?_of_not_starts {t : Token} (h : startsDeclaration t.kind = false) (afterDot : Bool) :
    keywordKind? afterDot t = none := by
  simp only [startsDeclaration, List.any_cons, List.any_nil, Bool.or_false, Bool.or_eq_false_iff] at h
  simp [keywordKind?, Token.isIdent, h]

/-- A word before a colon starts no declaration. -/
theorem declaration_colon (stop : Span) (kind : DeclarationKind) (keyword : Token) {colon : Token}
    (hc : colon.kind = .punct .colon) (ts : List Token) :
    declaration stop kind keyword (colon :: ts) = { rest := colon :: ts } := by
  cases kind <;> simp [declaration, TokenKind.ident?, unnamedBlock, Token.isPunct, hc]

theorem scan_of_passes {ts : List Token} {afterDot : Bool} (h : passes afterDot (ts.map Token.kind) = true)
    (stop : Span) (rest : List Token) : scan stop afterDot (ts ++ rest) = scan stop false rest := by
  induction ts generalizing afterDot with
  | nil =>
    rw [List.map_nil, passes, Bool.not_eq_true'] at h
    rw [h]
    rfl
  | cons t ts ih =>
    rw [List.map_cons, passes, Bool.and_eq_true] at h
    obtain ⟨hword, htail⟩ := h
    have hnext : scan stop (t.isPunct .dot) (ts ++ rest) = scan stop false rest := ih htail
    rw [List.cons_append, scan]
    split
    · exact hnext
    · rename_i kind hk
      -- a word that starts a declaration and does not stand behind a dot
      cases afterDot with
      | true => cases hk
      | false =>
        cases hs : startsDeclaration t.kind with
        | false => rw [keywordKind?_of_not_starts hs] at hk; cases hk
        | true =>
          simp only [hs, Bool.not_true, Bool.or_self, Bool.false_or, beq_iff_eq] at hword
          obtain ⟨colon, us, rfl, hc⟩ : ∃ colon us, ts = colon :: us ∧ colon.kind = .punct .colon := by
            cases ts with
            | nil => cases hword
            | cons u us => exact ⟨u, us, rfl, Option.some.inj hword⟩
          have hdot : t.isPunct .dot = false := by
            cases hd : t.isPunct .dot with
            | false => rfl
            | true =>
              rw [Token.isPunct, beq_iff_eq] at hd
              rw [hd] at hs
              cases hs
          rw [List.cons_append, declaration_colon stop kind t hc]
          rw [hdot] at hnext
          exact hnext

/-- **Code without declarations is passed over.** -/
theorem finds_of_passes {ts : List Token} (h : passes false (ts.map Token.kind) = true) : Finds ts [] :=
  fun stop rest => ⟨[], rfl, scan_of_passes h stop rest⟩

/-! ## Expressions on one line -/

/-- Whether an expression on one line ends before a token of this kind. -/
def separates : TokenKind → Bool
  | .punct .semicolon | .punct .comma | .docComment _ => true
  | kind => kind.isClose

/-- Whether an expression on one line goes on over tokens of these kinds, with `depth` brackets open, and then all
brackets are closed. -/
def belongs : Nat → List TokenKind → Bool
  | depth, [] => depth = 0
  | depth, kind :: kinds => !(depth = 0 && separates kind) && belongs (kind.nesting depth) kinds

theorem endsExpression_line {previous t : Token} (h : t.span.line ≤ previous.span.line) :
    endsExpression previous t = separates t.kind := by
  have hline : ¬ previous.span.line < t.span.line := by omega
  cases hk : t.kind with
  | punct x => cases x <;> simp [endsExpression, separates, hk, hline, TokenKind.isClose, Punct.isClose]
  | _ => simp [endsExpression, separates, hk, hline, TokenKind.isClose]

/-- **An expression on one line goes on up to a separator.** -/
theorem splitExpression_line {line depth : Nat} {previous stop : Token} {ts : List Token}
    (hb : belongs depth (ts.map Token.kind) = true) (hprevious : previous.span.line = line)
    (hline : ∀ t ∈ ts, t.span.line = line) (hstop : stop.kind = .punct .semicolon) (rest : List Token) :
    splitExpression previous depth (ts ++ stop :: rest) = (ts, stop :: rest) := by
  induction ts generalizing previous depth with
  | nil =>
    rw [List.map_nil, belongs, decide_eq_true_eq] at hb
    have hend : endsExpression previous stop = true := by simp [endsExpression, hstop]
    simp [splitExpression, hb, hend]
  | cons t ts ih =>
    rw [List.map_cons, belongs, Bool.and_eq_true, Bool.not_eq_true'] at hb
    obtain ⟨hgoes, hb⟩ := hb
    have ht := hline t List.mem_cons_self
    have hrest := ih hb ht fun u hu => hline u (List.mem_cons_of_mem t hu)
    rw [List.cons_append, splitExpression, endsExpression_line (by omega), hgoes, hrest]
    rfl

end Extract

theorem Position.line_advance {w : List Char} (h : '\n' ∉ w) (p : Position) : (p.advance w).line = p.line := by
  induction w generalizing p with
  | nil => rfl
  | cons c w ih =>
    rw [List.mem_cons, not_or] at h
    rw [Position.advance_cons, ih h.2, Position.next, if_neg (Ne.symm h.1)]

namespace Extract

open Lexer (Reads reads_spelled reads_cons follow_cons follow_punct)

/-! ## Inferred types -/

/-- The tokens of `z.infer<typeof name>` at a position. -/
def inferred (p : Position) (name : List Char) : List Token :=
  [.spelled (.ident "z") p ['z'], .spelled (.punct .dot) (p.advance "z".toList) ['.'],
    .spelled (.ident "infer") (p.advance "z.".toList) "infer".toList,
    .spelled (.punct .openAngle) (p.advance "z.infer".toList) ['<'],
    .spelled (.ident "typeof") (p.advance "z.infer<".toList) "typeof".toList,
    .spelled (.ident (String.ofList name)) (p.advance "z.infer<typeof ".toList) name,
    .spelled (.punct .closeAngle) (p.advance ("z.infer<typeof ".toList ++ name)) ['>']]

theorem line_inferred {name : List Char} (hn : Identifier.isIdentifier name = true) (p : Position) :
    ∀ t ∈ inferred p name, t.span.line = p.line := by
  have hline : '\n' ∉ "z.infer<typeof ".toList ++ name := by
    have := Identifier.newline_not_mem_of_isIdentifier hn
    simp [this]
  simp only [inferred, List.forall_mem_cons, Token.spelled, Span.between]
  refine ⟨trivial, ?_, ?_, ?_, ?_, ?_, ?_, by simp⟩
  all_goals
    refine Position.line_advance ?_ p
    first | exact hline | decide

theorem spell_inferred (p : Position) (name : List Char) :
    spell (inferred p name) = "z.infer<typeof " ++ String.ofList name ++ ">" := by
  have hspace : 0 < ' '.utf8Size := by decide
  simp [inferred, spell, Token.spelled, Span.between, Position.offset_advance, hspace, ← String.toList_inj]

theorem reads_inferred {name : List Char} (hn : Identifier.isIdentifier name = true) (rest : List Char) (p : Position) :
    Reads rest p ("z.infer<typeof ".toList ++ name ++ ['>']) (inferred p name) := by
  -- from the last token to the first
  have hclose (q : Position) : Reads rest q ['>'] [.spelled (.punct .closeAngle) q ['>']] :=
    reads_spelled (.punct .closeAngle) trivial q
  have hname (q : Position) : Reads rest q (name ++ ['>']) _ :=
    reads_cons (.ident hn) (follow_punct .closeAngle rest) (hclose _)
  have hspace (q : Position) : Reads rest q (' ' :: (name ++ ['>'])) _ := .blank (by decide) (hname _)
  have htypeof (q : Position) : Reads rest q ("typeof".toList ++ ' ' :: (name ++ ['>'])) _ :=
    reads_cons (.ident (by decide)) (follow_cons (by decide) _) (hspace _)
  have hopen (q : Position) : Reads rest q ('<' :: ("typeof".toList ++ ' ' :: (name ++ ['>']))) _ :=
    reads_cons (.punct .openAngle) trivial (htypeof _)
  have hinfer (q : Position) : Reads rest q ("infer".toList ++ '<' :: ("typeof".toList ++ ' ' :: (name ++ ['>']))) _ :=
    reads_cons (.ident (by decide)) (follow_punct .openAngle _) (hopen _)
  have hz : Identifier.isIdentifier ['z'] = true := by decide
  rw [inferred, Position.advance_append, List.append_assoc]
  exact reads_cons (.ident hz) (follow_punct .dot _) (reads_cons (.punct .dot) trivial (hinfer _))

theorem expression_inferred {equals semicolon : Token} {p : Position} {name : List Char}
    (hn : Identifier.isIdentifier name = true) (he : equals.kind = .punct .equals) (hl : equals.span.line = p.line)
    (hs : semicolon.kind = .punct .semicolon) (rest : List Token) :
    expression equals (inferred p name ++ semicolon :: rest) = (inferred p name, semicolon :: rest) := by
  refine splitExpression_line ?_ hl (line_inferred hn p) hs rest
  rw [he]
  rfl

theorem typeText?_inferred (p : Position) (name : List Char) :
    typeText? (inferred p name) = some ("z.infer<typeof " ++ String.ofList name ++ ">") := by
  have hdocs : ((inferred p name).filter fun t => !isDoc t) = inferred p name := rfl
  rw [typeText?, hdocs, spell_inferred, if_neg]
  simp

/-- **The type that is inferred from a schema is found under its name.** -/
theorem finds_binding {keyword nameToken equals semicolon : Token} {p : Position} {name : String} {schema : List Char}
    (hk : keyword.kind = .ident "type") (hname : nameToken.kind = .ident name) (he : equals.kind = .punct .equals)
    (hl : equals.span.line = p.line) (hn : Identifier.isIdentifier schema = true)
    (hs : semicolon.kind = .punct .semicolon) :
    Finds (keyword :: nameToken :: equals :: (inferred p schema ++ [semicolon]))
      [(name, "z.infer<typeof " ++ String.ofList schema ++ ">")] := by
  intro stop rest
  refine ⟨[{ name, type := "z.infer<typeof " ++ String.ofList schema ++ ">", span := keyword.span }], rfl, ?_⟩
  have hkind : keywordKind? false keyword = some .typeAlias := by simp [keywordKind?, Token.isIdent, hk]
  have hdecl : declaration stop .typeAlias keyword
      (nameToken :: equals :: (inferred p schema ++ semicolon :: rest)) =
      { found := [.typeAlias ⟨name, "z.infer<typeof " ++ String.ofList schema ++ ">", keyword.span⟩],
        rest := semicolon :: rest, afterDot := false } := by
    simp only [declaration, hname, TokenKind.ident?, aliasNamed, expression_inferred hn he hl hs]
    simp [Token.isPunct, he, typeText?_inferred]
    rfl
  have hsemicolon : scan stop false (semicolon :: rest) = scan stop false rest := by
    have hpasses : passes false ([semicolon].map Token.kind) = true := by
      simp only [List.map_singleton, hs]
      rfl
    exact scan_of_passes hpasses stop rest
  rw [List.cons_append, List.cons_append, List.cons_append, List.append_assoc, List.singleton_append, scan, hkind]
  simp only [hdecl, hsemicolon]
  rfl

end Extract

end TypeSchema
