import TypeSchema.Proofs.Registry.Spelling

/-!
# Where declarations stand

Everything that is found among tokens stands there from its keyword on: `FoundIn ts x` says so, with one case for each
sort of finding, and holds of all that a walk finds (`foundIn_of_mem_scan`).  From it the range of tokens is read off
that the type of an alias (`AliasRange`) or of a field (`FieldRange`) was written in.
-/

namespace TypeSchema

namespace Extract

/-- The finding stands among these tokens. -/
inductive FoundIn (ts : List Token) : Finding → Prop
  | warning (d : Diagnostic) : FoundIn ts (.warning d)
  | typeAlias {before behind : List Token} {keyword nameToken equals : Token} {name type : String} :
      ts = before ++ keyword :: nameToken :: equals :: behind → keyword.isIdent "type" = true →
      nameToken.kind = .ident name → equals.isPunct .equals = true →
      typeText? (expression equals behind).1 = some type →
      FoundIn ts (.typeAlias { name, type, span := keyword.span })
  | interface {before head rest inside after : List Token} {keyword nameToken : Token} {name : String}
      {bases : List String} :
      ts = before ++ keyword :: nameToken :: (head ++ rest) → keyword.isIdent "interface" = true →
      nameToken.kind = .ident name → body .interface keyword name rest = .ok (inside, after) →
      FoundIn ts (.interface
        { name, bases, fields := (members name none inside).filterMap Except.toOption, span := keyword.span })
  | enum {before rest inside after : List Token} {keyword nameToken : Token} {name : String} :
      ts = before ++ keyword :: nameToken :: rest → keyword.isIdent "enum" = true →
      nameToken.kind = .ident name → body .enum keyword name rest = .ok (inside, after) →
      FoundIn ts (.enum { name, values := (enumMembers name inside).filterMap Prod.fst, span := keyword.span })

theorem FoundIn.mono {ts us : List Token} {x : Finding} (h : FoundIn us x) (hs : us <:+ ts) : FoundIn ts x := by
  obtain ⟨front, rfl⟩ := hs
  cases h with
  | warning d => exact .warning d
  | @typeAlias before behind keyword nameToken equals name type hts hk hn he ht =>
    have happ : front ++ us = (front ++ before) ++ keyword :: nameToken :: equals :: behind := by
      rw [hts, List.append_assoc]
    exact .typeAlias happ hk hn he ht
  | @interface before head rest inside after keyword nameToken name bases hts hk hn hb =>
    have happ : front ++ us = (front ++ before) ++ keyword :: nameToken :: (head ++ rest) := by
      rw [hts, List.append_assoc]
    exact .interface happ hk hn hb
  | @enum before rest inside after keyword nameToken name hts hk hn hb =>
    have happ : front ++ us = (front ++ before) ++ keyword :: nameToken :: rest := by
      rw [hts, List.append_assoc]
    exact .enum happ hk hn hb

/-! ## What each reader finds -/

section

variable {ts : List Token} {x : Finding}

theorem foundIn_warn {span : Span} {w : Warning} (h : x ∈ [warn span w]) : FoundIn ts x := by
  rw [List.mem_singleton.1 h]
  exact .warning _

theorem foundIn_of_body_error {kind : DeclarationKind} {keyword : Token} {name : String} {us : List Token}
    {reading : Reading} (hb : body kind keyword name us = .error reading) (h : x ∈ reading.found) : FoundIn ts x := by
  unfold body at hb
  split at hb
  · cases hb
    exact foundIn_warn h
  · split at hb
    · split at hb
      · cases hb
      · cases hb
        exact foundIn_warn h
    · cases hb
      exact foundIn_warn h

theorem foundIn_extendsClause {stop : Span} {owner : String} {us : List Token}
    (h : x ∈ (extendsClause stop owner us).found) : FoundIn ts x := by
  fun_induction extendsClause stop owner us with
  | case1 => exact foundIn_warn h
  | case2 => cases h
  | case3 | case4 | case6 => exact foundIn_warn h
  | case5 us base t rest _ _ ignored inside u after _ _ others ih =>
    rcases List.mem_cons.1 h with h | h
    · exact foundIn_warn (List.mem_singleton.2 h)
    · exact ih h
  | case7 us base t rest _ _ _ others ih => exact ih h
  | case8 => cases h

variable {keyword nameToken : Token} {name : String}

theorem foundIn_interfaceBody {bases : List String} (head : List Token) {rest : List Token}
    (hk : keyword.isIdent "interface" = true) (hn : nameToken.kind = .ident name)
    (h : x ∈ (interfaceBody keyword name bases rest).found) :
    FoundIn (keyword :: nameToken :: (head ++ rest)) x := by
  unfold interfaceBody at h
  split at h
  · rename_i reading hb
    exact foundIn_of_body_error hb h
  · rename_i inside after hb
    rcases List.mem_append.1 h with h | h
    · obtain ⟨member, -, hm⟩ := List.mem_filterMap.1 h
      cases member with
      | error d =>
        cases hm
        exact .warning d
      | ok => cases hm
    · rw [List.mem_singleton.1 h]
      exact .interface (List.nil_append (keyword :: nameToken :: (head ++ rest))).symm hk hn hb

theorem foundIn_interfaceNamed {stop : Span} {behind : List Token} (hk : keyword.isIdent "interface" = true)
    (hn : nameToken.kind = .ident name) (h : x ∈ (interfaceNamed stop keyword nameToken name behind).found) :
    FoundIn (keyword :: nameToken :: behind) x := by
  unfold interfaceNamed at h
  split at h
  · exact foundIn_interfaceBody [] hk hn h
  · rename_i t us
    split at h
    · exact foundIn_warn h
    · split at h
      · have hrest := rest_extendsClause stop name us
        dsimp only at h
        split at h
        · rename_i rest hr
          rw [hr] at hrest
          obtain ⟨clause, hclause⟩ := hrest
          rcases List.mem_append.1 h with h | h
          · exact foundIn_extendsClause h
          · have hfound := foundIn_interfaceBody (t :: clause) hk hn h
            rwa [List.cons_append, show clause ++ rest = us from hclause] at hfound
        · exact foundIn_extendsClause h
        · exact foundIn_extendsClause h
      · exact foundIn_interfaceBody [] hk hn h

theorem foundIn_aliasNamed {behind : List Token} (hk : keyword.isIdent "type" = true)
    (hn : nameToken.kind = .ident name) (h : x ∈ (aliasNamed keyword name behind).found) :
    FoundIn (keyword :: nameToken :: behind) x := by
  unfold aliasNamed at h
  dsimp only at h
  split at h
  · exact foundIn_warn h
  · split at h
    · rename_i he
      split at h
      · rename_i type ht
        rw [List.mem_singleton.1 h]
        exact .typeAlias (List.nil_append _).symm hk hn he ht
      · exact foundIn_warn h
    · split at h
      · exact foundIn_warn h
      · exact foundIn_warn h

theorem foundIn_enumNamed {behind : List Token} (hk : keyword.isIdent "enum" = true)
    (hn : nameToken.kind = .ident name) (h : x ∈ (enumNamed keyword name behind).found) :
    FoundIn (keyword :: nameToken :: behind) x := by
  unfold enumNamed at h
  split at h
  · rename_i reading hb
    exact foundIn_of_body_error hb h
  · rename_i inside after hb
    rcases List.mem_append.1 h with h | h
    · obtain ⟨step, -, hs⟩ := List.mem_filterMap.1 h
      obtain ⟨d, -, rfl⟩ := Option.map_eq_some_iff.1 hs
      exact .warning d
    · rw [List.mem_singleton.1 h]
      exact .enum (List.nil_append _).symm hk hn hb

theorem foundIn_unnamedBlock {kind : DeclarationKind} {us : List Token}
    (h : x ∈ (unnamedBlock kind keyword us).found) : FoundIn ts x := by
  unfold unnamedBlock at h
  split at h
  · split at h
    · exact foundIn_warn h
    · cases h
  · cases h

/-- The word that starts a declaration of a kind. -/
theorem isIdent_of_keywordKind? {afterDot : Bool} {t : Token} {kind : DeclarationKind}
    (h : keywordKind? afterDot t = some kind) :
    t.isIdent (match kind with | .interface => "interface" | .typeAlias => "type" | .enum => "enum") = true := by
  unfold keywordKind? at h
  split at h
  · cases h
  · split at h
    · cases h
      assumption
    · split at h
      · cases h
        assumption
      · split at h
        · cases h
          assumption
        · cases h

theorem foundIn_declaration {stop : Span} {afterDot : Bool} {kind : DeclarationKind}
    (hk : keywordKind? afterDot keyword = some kind) (h : x ∈ (declaration stop kind keyword ts).found) :
    FoundIn (keyword :: ts) x := by
  have hword := isIdent_of_keywordKind? hk
  unfold declaration at h
  split at h
  · cases h
  · rename_i t behind
    split at h
    · rename_i hn
      exact foundIn_interfaceNamed hword (eq_ident_of_ident? hn) h
    · rename_i hn
      exact foundIn_aliasNamed hword (eq_ident_of_ident? hn) h
    · rename_i hn
      exact foundIn_enumNamed hword (eq_ident_of_ident? hn) h
    · cases h
    · exact foundIn_unnamedBlock h

/-- **Everything that is found stands among the tokens.** -/
theorem foundIn_of_mem_scan {stop : Span} {afterDot : Bool} (h : x ∈ scan stop afterDot ts) : FoundIn ts x := by
  fun_induction scan stop afterDot ts with
  | case1 => cases h
  | case2 afterDot t ts _ ih => exact (ih h).mono (List.suffix_cons t ts)
  | case3 afterDot t ts kind hk reading ih =>
    rcases List.mem_append.1 h with h | h
    · exact foundIn_declaration hk h
    · exact (ih h).mono ((rest_declaration stop kind t ts).trans (List.suffix_cons t ts))

end

/-! ## Ranges of types -/

/-- The type of the alias stands in the range `inside`: behind the keyword, the name and the equals sign, as far as the
expression goes. -/
def AliasRange (ts : List Token) (a : Alias) (inside : List Token) : Prop :=
  ∃ before keyword nameToken equals after, ts = before ++ keyword :: nameToken :: equals :: (inside ++ after) ∧
    keyword.isIdent "type" = true ∧ keyword.span = a.span ∧ nameToken.kind = .ident a.name ∧
    equals.isPunct .equals = true ∧ expression equals (inside ++ after) = (inside, after)

theorem AliasRange.isInfix {ts inside : List Token} {a : Alias} (h : AliasRange ts a inside) : inside <:+: ts := by
  obtain ⟨before, keyword, nameToken, equals, after, rfl, -⟩ := h
  exact ⟨before ++ [keyword, nameToken, equals], after, by simp⟩

theorem exists_aliasRange {ts : List Token} {a : Alias} (h : FoundIn ts (.typeAlias a)) :
    ∃ inside, AliasRange ts a inside ∧ typeText? inside = some a.type := by
  generalize hx : Finding.typeAlias a = x at h
  cases h with
  | @typeAlias before behind keyword nameToken equals name type hts hk hn he ht =>
    cases hx
    have hcut : (expression equals behind).1 ++ (expression equals behind).2 = behind := splitExpression_append ..
    refine ⟨_, ⟨before, keyword, nameToken, equals, (expression equals behind).2, ?_, hk, rfl, hn, he, ?_⟩, ht⟩
    · rw [hcut, hts]
    · rw [hcut]
  | _ => cases hx

/-- A body stands between braces that match. -/
theorem exists_of_body_ok {kind : DeclarationKind} {keyword : Token} {name : String} {ts inside after : List Token}
    (h : body kind keyword name ts = .ok (inside, after)) :
    ∃ opening closing, ts = opening :: (inside ++ closing :: after) ∧ opening.isPunct .openBrace = true ∧
      splitClosed? .openBrace .closeBrace 0 (inside ++ closing :: after) = some (inside, after) := by
  unfold body at h
  split at h
  · cases h
  · rename_i opening inner
    split at h
    · rename_i ho
      split at h
      · rename_i split hs
        cases h
        obtain ⟨closing, rfl⟩ := exists_of_splitClosed? hs
        exact ⟨opening, closing, rfl, ho, hs⟩
      · cases h
    · cases h

/-- The type of the field stands in the range `inside` of an interface body: behind the name, a question mark if it is
optional, and the colon, as far as the expression goes. -/
def FieldRange (ts : List Token) (f : Field) (inside : List Token) : Prop :=
  ∃ before opening inner closing after, ts = before ++ opening :: (inner ++ closing :: after) ∧
    opening.isPunct .openBrace = true ∧
    splitClosed? .openBrace .closeBrace 0 (inner ++ closing :: after) = some (inner, after) ∧
    ∃ front start question colon rest, inner = front ++ start :: (question ++ colon :: (inside ++ rest)) ∧
      start.span = f.span ∧ memberName? start = some f.name ∧
      question.map Token.kind = (if f.optional then [.punct .question] else []) ∧
      colon.isPunct .colon = true ∧ expression colon (inside ++ rest) = (inside, rest)

theorem FieldRange.isInfix {ts inside : List Token} {f : Field} (h : FieldRange ts f inside) : inside <:+: ts := by
  obtain ⟨before, opening, inner, closing, after, rfl, -, -, front, start, question, colon, rest, rfl, -⟩ := h
  exact ⟨before ++ opening :: (front ++ start :: (question ++ [colon])), rest ++ closing :: after, by simp⟩

theorem exists_of_memberAt {owner : String} {description : Option String} {t : Token} {behind : List Token} {f : Field}
    (ht : (memberName? t).isSome = true) (h : (memberAt owner description t behind).1 = .ok f) :
    ∃ front start question colon inside rest,
      t :: behind = front ++ start :: (question ++ colon :: (inside ++ rest)) ∧
      start.span = f.span ∧ memberName? start = some f.name ∧
      question.map Token.kind = (if f.optional then [.punct .question] else []) ∧
      colon.isPunct .colon = true ∧ expression colon (inside ++ rest) = (inside, rest) ∧
      typeText? inside = some f.type := by
  obtain ⟨front, hfront, hname⟩ : ∃ front, t :: behind = front ++ (memberStart t behind).1 :: (memberStart t behind).2 ∧
      (memberName? (memberStart t behind).1).isSome = true := by
    unfold memberStart
    split
    · exact ⟨[], rfl, ht⟩
    · split
      · rename_i u us hu
        exact ⟨[t], rfl, (Bool.and_eq_true_iff.1 hu).2⟩
      · exact ⟨[], rfl, ht⟩
  obtain ⟨question, hquestion, hmark⟩ : ∃ question, (memberStart t behind).2 =
      question ++ (takeQuestion (memberStart t behind).2).2 ∧ question.map Token.kind =
        (if (takeQuestion (memberStart t behind).2).1 then [.punct .question] else []) := by
    generalize (memberStart t behind).2 = us
    unfold takeQuestion
    split
    · exact ⟨[], rfl, rfl⟩
    · split
      · rename_i u us hu
        refine ⟨[u], rfl, ?_⟩
        rw [Token.isPunct, beq_iff_eq] at hu
        simp [hu]
      · exact ⟨[], rfl, rfl⟩
  rw [hquestion] at hfront
  unfold memberAt at h
  dsimp only at h
  split at h
  · cases h
  · rename_i colon rest htyped
    split at h
    · rename_i hcolon
      split at h
      · rename_i type htype
        cases h
        rw [htyped] at hfront
        have hcut : (expression colon rest).1 ++ (expression colon rest).2 = rest := splitExpression_append ..
        refine ⟨front, _, question, colon, _, (expression colon rest).2, ?_, rfl, ?_, hmark, hcolon, ?_, htype⟩
        · rw [hcut, hfront]
        · obtain ⟨name, hn⟩ := Option.isSome_iff_exists.1 hname
          rw [hn]
          rfl
        · rw [hcut]
      · cases h
    · cases h

theorem exists_fieldRange {ts : List Token} {i : Interface} (h : FoundIn ts (.interface i)) {f : Field}
    (hf : f ∈ i.fields) : ∃ inside, FieldRange ts f inside ∧ typeText? inside = some f.type := by
  generalize hx : Finding.interface i = x at h
  cases h with
  | @interface before head rest inside after keyword nameToken name bases hts hk hn hb =>
    cases hx
    obtain ⟨member, hmember, hm⟩ := List.mem_filterMap.1 hf
    cases member with
    | error d => cases hm
    | ok field =>
      obtain rfl := Option.some.inj hm
      obtain ⟨description, t, behind, ⟨front, rfl⟩, ht, hread⟩ := exists_of_ok_mem_members hmember
      obtain ⟨front', start, question, colon, range, rest', hcut, hspan, hname, hmark, hcolon, hexpr, htype⟩ :=
        exists_of_memberAt ht hread
      obtain ⟨opening, closing, rfl, hopen, hclosed⟩ := exists_of_body_ok hb
      refine ⟨range, ⟨before ++ keyword :: nameToken :: head, opening, _, closing, after, ?_, hopen, hclosed,
        front ++ front', start, question, colon, rest', ?_, hspan, hname, hmark, hcolon, hexpr⟩, htype⟩
      · rw [hts]
        simp
      · rw [hcut, List.append_assoc]
  | _ => cases hx

end Extract

end TypeSchema
