import Mathlib
import TypeSchema.Proofs.Registry.Composition
import TypeSchema.Proofs.Registry.Written

/-!
# Sources line by line

A line holds a declaration, or code in which no declaration starts (`Holds`).  What is found in the lines of a source
is what they declare, in order (`findings_source`).  If no name is declared twice, nothing is replaced and nothing is
warned about, so that the tables of the registry are exactly the declarations of the lines (`extract_lines`).
-/

namespace TypeSchema

open Named (nameOf)

/-! ## Names that are declared once -/

/-- The name that is declared. -/
def Finding.name? : Finding → Option String
  | interface i => some i.name
  | typeAlias a => some a.name
  | enum e => some e.name
  | warning _ => none

theorem Table.insertAll_of_nodup {α : Type} [Named α] {t : Table α} {as : List α}
    (h : (t.names ++ as.map nameOf).Nodup) : t.insertAll as = ⟨t.entries ++ as⟩ := by
  induction as generalizing t with
  | nil => rw [List.append_nil]; rfl
  | cons a as ih =>
    have hnot : t.contains (nameOf a) = false := by
      refine Bool.eq_false_iff.2 fun hc => ?_
      exact (List.nodup_append.1 h).2.2 _ (contains_iff.1 hc) _ List.mem_cons_self rfl
    have hnames : (t.insert a).names = t.names ++ [nameOf a] := by rw [names_insert, hnot]; rfl
    have hnodup : ((t.insert a).names ++ as.map nameOf).Nodup := by
      rw [hnames, List.append_assoc]
      exact h
    rw [insertAll_cons, ih hnodup, insert_of_not_contains hnot, List.append_assoc, List.singleton_append]

namespace Registry

/-- The declarations in their tables, in order. -/
def ofDeclarations (found : List Finding) : Registry where
  interfaces := ⟨found.filterMap Finding.interface?⟩
  aliases := ⟨found.filterMap Finding.typeAlias?⟩
  enums := ⟨found.filterMap Finding.enum?⟩

theorem sublist_names {α : Type} [Named α] {pick : Finding → Option α}
    (hpick : ∀ x a, pick x = some a → x.name? = some (nameOf a)) (found : List Finding) :
    ((found.filterMap pick).map nameOf).Sublist (found.filterMap Finding.name?) := by
  induction found with
  | nil => exact .slnil
  | cons x found ih =>
    cases hx : pick x with
    | some a =>
      rw [List.filterMap_cons_some hx, List.filterMap_cons_some (hpick x a hx), List.map_cons]
      exact ih.cons_cons _
    | none =>
      rw [List.filterMap_cons_none hx]
      exact ih.trans ((List.sublist_cons_self x found).filterMap _)

theorem insertAll_picked {α : Type} [Named α] {pick : Finding → Option α}
    (hpick : ∀ x a, pick x = some a → x.name? = some (nameOf a)) {found : List Finding}
    (h : (found.filterMap Finding.name?).Nodup) :
    ({} : Table α).insertAll (found.filterMap pick) = ⟨found.filterMap pick⟩ :=
  Table.insertAll_of_nodup ((sublist_names hpick found).nodup h)

variable {r : Registry} {x : Finding} {name : String}

/-- A declaration of a new name is added without a warning. -/
theorem diagnostics_add (hx : x.name? = some name) (hr : r.contains name = false) :
    (r.add x).diagnostics = r.diagnostics := by
  have hkind : r.kindOf? name = none := Option.isNone_iff_eq_none.1 (Option.isSome_eq_false_iff.1 hr)
  have htables : ¬(name ∈ r.interfaces.names ∨ name ∈ r.aliases.names ∨ name ∈ r.enums.names) := by
    rw [← contains_iff, hr]
    exact Bool.false_ne_true
  rw [not_or, not_or, ← Table.contains_iff, ← Table.contains_iff, ← Table.contains_iff] at htables
  obtain ⟨hi, ha, he⟩ := htables
  cases x with
  | interface i =>
    obtain rfl := Option.some.inj hx
    simp [add, addInterface, checkCollision, warnIf, hkind, hi]
  | typeAlias a =>
    obtain rfl := Option.some.inj hx
    simp [add, addAlias, checkCollision, warnIf, hkind, ha]
  | enum e =>
    obtain rfl := Option.some.inj hx
    simp [add, addEnum, checkCollision, warnIf, hkind, he]
  | warning d => cases hx

theorem contains_add (hx : x.name? = some name) (other : String) :
    (r.add x).contains other = true ↔ r.contains other = true ∨ other = name := by
  have hinsert {α : Type} [Named α] (t : Table α) {a : α} (ha : nameOf a = name) :
      other ∈ (t.insert a).names ↔ other ∈ t.names ∨ other = name := by
    rw [← Table.contains_iff, ← Table.contains_iff, Table.contains_insert, Bool.or_eq_true, beq_iff_eq, ha,
      eq_comm (a := other)]
  rw [contains_iff, contains_iff]
  cases x with
  | interface i =>
    have hi := hinsert r.interfaces (show nameOf i = name from Option.some.inj hx)
    simp only [add, addInterface, interfaces_warnIf, aliases_warnIf, enums_warnIf, interfaces_checkCollision,
      aliases_checkCollision, enums_checkCollision, hi]
    grind
  | typeAlias a =>
    have ha := hinsert r.aliases (show nameOf a = name from Option.some.inj hx)
    simp only [add, addAlias, interfaces_warnIf, aliases_warnIf, enums_warnIf, interfaces_checkCollision,
      aliases_checkCollision, enums_checkCollision, ha]
    grind
  | enum e =>
    have he := hinsert r.enums (show nameOf e = name from Option.some.inj hx)
    simp only [add, addEnum, interfaces_warnIf, aliases_warnIf, enums_warnIf, interfaces_checkCollision,
      aliases_checkCollision, enums_checkCollision, he]
    grind
  | warning d => cases hx

theorem diagnostics_addAll {found : List Finding} (hd : ∀ x ∈ found, x.name?.isSome = true)
    (hn : (found.filterMap Finding.name?).Nodup)
    (hr : ∀ name ∈ found.filterMap Finding.name?, r.contains name = false) :
    (r.addAll found).diagnostics = r.diagnostics := by
  induction found generalizing r with
  | nil => rfl
  | cons x found ih =>
    obtain ⟨name, hx⟩ := Option.isSome_iff_exists.1 (hd x List.mem_cons_self)
    rw [List.filterMap_cons_some hx] at hn hr
    obtain ⟨hfresh, hn⟩ := List.nodup_cons.1 hn
    show ((r.add x).addAll found).diagnostics = _
    rw [ih (fun y hy => hd y (List.mem_cons_of_mem x hy)) hn, diagnostics_add hx (hr name List.mem_cons_self)]
    intro other ho
    refine Bool.eq_false_iff.2 fun hc => ?_
    rcases (contains_add hx other).1 hc with hc | rfl
    · rw [hr other (List.mem_cons_of_mem name ho)] at hc
      cases hc
    · exact hfresh ho

/-- **Declarations with different names are kept as they are**, each kind in its table. -/
theorem addAll_of_nodup {found : List Finding} (hd : ∀ x ∈ found, x.name?.isSome = true)
    (hn : (found.filterMap Finding.name?).Nodup) : ({} : Registry).addAll found = ofDeclarations found := by
  have hi : (({} : Registry).addAll found).interfaces = ⟨found.filterMap Finding.interface?⟩ := by
    refine (interfaces_addAll {} found).trans (insertAll_picked (fun x i hx => ?_) hn)
    cases x <;> cases hx
    rfl
  have ha : (({} : Registry).addAll found).aliases = ⟨found.filterMap Finding.typeAlias?⟩ := by
    refine (aliases_addAll {} found).trans (insertAll_picked (fun x a hx => ?_) hn)
    cases x <;> cases hx
    rfl
  have he : (({} : Registry).addAll found).enums = ⟨found.filterMap Finding.enum?⟩ := by
    refine (enums_addAll {} found).trans (insertAll_picked (fun x e hx => ?_) hn)
    cases x <;> cases hx
    rfl
  have hdiagnostics : (({} : Registry).addAll found).diagnostics = [] := diagnostics_addAll hd hn fun _ _ => rfl
  generalize ({} : Registry).addAll found = r at hi ha he hdiagnostics ⊢
  obtain ⟨interfaces, aliases, enums, diagnostics⟩ := r
  cases hi
  cases ha
  cases he
  cases hdiagnostics
  rfl

end Registry

/-! ## Lines -/

theorem Lexer.Reads.line {w rest : List Char} {p : Position} {ts : List Token} (h : Reads rest p w ts) (hw : '\n' ∉ w) :
    ∀ t ∈ ts, t.span.line = p.line := by
  induction h with
  | done => simp
  | @blank c w p ts _ _ ih =>
    rw [List.mem_cons, not_or] at hw
    intro t ht
    have hline : (p.advance [c]).line = p.line := Position.line_advance (by simpa using hw.1) p
    exact (ih hw.2 t ht).trans hline
  | @lexeme kind c cs w p ts _ _ _ ih =>
    rw [← List.cons_append, List.mem_append, not_or] at hw
    intro t ht
    rcases List.mem_cons.1 ht with rfl | ht
    · rfl
    · exact (ih hw.2 t ht).trans (Position.line_advance hw.1 p)

namespace Extract

/-- What a text holds: a declaration on one line, or code in which no declaration starts and that does not end with a
dot. -/
inductive Holds (text : String) : Option Finding → Prop
  | declaration {x : Finding} (hline : '\n' ∉ text.toList) (hwrites : Writes (tokenizeSignificant text).body x) :
      Holds text (some x)
  | code (hclosed : ∀ t ∈ (tokenize text).body, t.kind.isError = false)
      (hwords : ∀ t ∈ (tokenize text).body, startsDeclaration t.kind = false)
      (hlast : ∀ t ∈ (tokenizeSignificant text).body.getLast?, t.kind ≠ .punct .dot) : Holds text none

theorem Writes.isSome_name? {ts : List Token} {x : Finding} (h : Writes ts x) : x.name?.isSome = true := by
  cases h <;> rfl

variable {text : String} {x : Option Finding}

theorem passes_of_forall {ts : List Token} (hw : ∀ t ∈ ts, startsDeclaration t.kind = false)
    (hl : ∀ t ∈ ts.getLast?, t.kind ≠ .punct .dot) : passes false (ts.map Token.kind) = true := by
  have hgeneral (afterDot : Bool) (h : ts = [] → afterDot = false) : passes afterDot (ts.map Token.kind) = true := by
    induction ts generalizing afterDot with
    | nil => rw [h rfl]; rfl
    | cons t ts ih =>
      rw [List.map_cons, passes, hw t List.mem_cons_self, Bool.not_false, Bool.or_true, Bool.true_or, Bool.true_and]
      refine ih (fun u hu => hw u (List.mem_cons_of_mem t hu)) (fun u hu => hl u ?_) _ ?_
      · rw [List.getLast?_cons, hu]
        rfl
      · rintro rfl
        exact beq_false_of_ne (hl t rfl)
  exact hgeneral false fun _ => rfl

theorem Holds.closedLines (h : Holds text x) : Lexer.ClosedLines (tokenize text).body := by
  refine Lexer.closedLines_of_forall fun t ht => ?_
  cases h with
  | declaration _ hwrites =>
    -- a token of the line is one of the declaration or a plain comment
    cases hk : t.kind.isTrivia with
    | true =>
      cases hkind : t.kind with
      | comment => rfl
      | _ => rw [hkind] at hk; cases hk
    | false => exact hwrites.balanced.closed t (List.mem_filter.2 ⟨ht, by rw [hk]; rfl⟩)
  | code hclosed => exact hclosed t ht

theorem Holds.yields (h : Holds text x) : Yields (tokenizeSignificant text).body x.toList := by
  cases h with
  | declaration hline hwrites =>
    have hreads := Lexer.reads_tokenize text
    have honline : OnLine 1 (tokenizeSignificant text).body := by
      intro t ht
      have ht' := (List.mem_filter.1 ht).1
      exact ⟨hreads.line hline t ht', hreads.text_ne_nil t ht'⟩
    exact hwrites.yields honline
  | code _ hwords hlast =>
    intro stop us
    have hpasses : passes false ((tokenizeSignificant text).body.map Token.kind) = true :=
      passes_of_forall (fun t ht => hwords t (List.mem_filter.1 ht).1) hlast
    rw [scan_of_passes hpasses]
    rfl

end Extract

/-- A line of a source, and the declaration that it holds. -/
structure Line where
  text : String
  declared : Option Finding := none
  holds : Extract.Holds text declared

/-- The source with these lines. -/
def Line.source (lines : List Line) : String := "\n".intercalate (lines.map text)

/-- What the lines of a source declare, in order. -/
def Line.declarations (lines : List Line) : List Finding := lines.filterMap declared

namespace Extract

/-- **What is found in the lines of a source** is what they declare, in order. -/
theorem findings_source (lines : List Line) :
    (findings (Line.source lines)).map Finding.bare = Line.declarations lines := by
  induction lines with
  | nil => cbv
  | cons l lines ih =>
    obtain ⟨text, x, hl⟩ := l
    have hcons : Line.declarations (⟨text, x, hl⟩ :: lines) = x.toList ++ Line.declarations lines := by
      cases x <;> rfl
    rw [hcons]
    cases lines with
    | nil =>
      have hfound := hl.yields (tokenizeSignificant text).stop []
      rw [List.append_nil, scan, List.map_nil] at hfound
      rw [Line.source, List.map_singleton, String.intercalate_singleton]
      exact hfound
    | cons m lines =>
      have hsource : Line.source (⟨text, x, hl⟩ :: m :: lines) = text ++ "\n" ++ Line.source (m :: lines) :=
        String.intercalate_cons_cons
      rw [hsource, findings_append_newline hl.closedLines, hl.yields, scan_map, List.map_map]
      refine congrArg _ (Eq.trans (List.map_congr_left fun y _ => ?_) ih)
      exact Finding.bare_mapSpans _ y

end Extract

namespace Line

open Extract

theorem holds_code {text : String}
    (h : ((tokenize text).body.all fun t => !t.kind.isError && !startsDeclaration t.kind) = true)
    (hlast : (tokenizeSignificant text).body.getLast?.map Token.kind ≠ some (.punct .dot)) : Holds text none := by
  simp only [List.all_eq_true, Bool.and_eq_true, Bool.not_eq_true'] at h
  refine .code (fun t ht => (h t ht).1) (fun t ht => (h t ht).2) fun t ht hk => hlast ?_
  rw [ht, Option.map_some, hk]

/-- Code without a declaration. -/
def call : Line where
  text := "f.x(y)"
  holds := holds_code (by cbv) (by cbv; decide)

/-- An enum one of whose values is not its name. -/
def enumWithText : Line where
  text := "enum E \x7b A, B = 'b' \x7d"
  declared := some (.enum { name := "E", values := ["A", "b"] })
  holds := by
    refine .declaration (by decide) ?_
    have hbody : (tokenizeSignificant "enum E \x7b A, B = 'b' \x7d").body =
        [⟨.ident "enum", ⟨0, 4, 1, 1⟩, "enum"⟩, ⟨.ident "E", ⟨5, 6, 1, 6⟩, "E"⟩,
          ⟨.punct .openBrace, ⟨7, 8, 1, 8⟩, "\x7b"⟩, ⟨.ident "A", ⟨9, 10, 1, 10⟩, "A"⟩,
          ⟨.punct .comma, ⟨10, 11, 1, 11⟩, ","⟩, ⟨.ident "B", ⟨12, 13, 1, 13⟩, "B"⟩,
          ⟨.punct .equals, ⟨14, 15, 1, 15⟩, "="⟩, ⟨.str "b" '\'', ⟨16, 19, 1, 17⟩, "'b'"⟩,
          ⟨.punct .closeBrace, ⟨20, 21, 1, 21⟩, "\x7d"⟩] := by cbv
    rw [hbody]
    exact .enum rfl rfl rfl (.more (.name rfl) rfl (.last (.text rfl rfl rfl))) rfl

/-- An interface with a base and with a member that has all its parts. -/
def interfaceWithBase : Line where
  text := "interface I extends N.B \x7b /** d */ readonly 'p q'?: F<E>; \x7d"
  declared := some (.interface
    { name := "I", bases := ["N.B"],
      fields := [{ name := "p q", type := "F<E>", optional := true, description := some "d" }] })
  holds := by
    refine .declaration (by decide) ?_
    have hbody : (tokenizeSignificant "interface I extends N.B \x7b /** d */ readonly 'p q'?: F<E>; \x7d").body =
        [⟨.ident "interface", ⟨0, 9, 1, 1⟩, "interface"⟩, ⟨.ident "I", ⟨10, 11, 1, 11⟩, "I"⟩,
          ⟨.ident "extends", ⟨12, 19, 1, 13⟩, "extends"⟩, ⟨.ident "N", ⟨20, 21, 1, 21⟩, "N"⟩,
          ⟨.punct .dot, ⟨21, 22, 1, 22⟩, "."⟩, ⟨.ident "B", ⟨22, 23, 1, 23⟩, "B"⟩,
          ⟨.punct .openBrace, ⟨24, 25, 1, 25⟩, "\x7b"⟩, ⟨.docComment "d", ⟨26, 34, 1, 27⟩, "/** d */"⟩,
          ⟨.ident "readonly", ⟨35, 43, 1, 36⟩, "readonly"⟩, ⟨.str "p q" '\'', ⟨44, 49, 1, 45⟩, "'p q'"⟩,
          ⟨.punct .question, ⟨49, 50, 1, 50⟩, "?"⟩, ⟨.punct .colon, ⟨50, 51, 1, 51⟩, ":"⟩,
          ⟨.ident "F", ⟨52, 53, 1, 53⟩, "F"⟩, ⟨.punct .openAngle, ⟨53, 54, 1, 54⟩, "<"⟩,
          ⟨.ident "E", ⟨54, 55, 1, 55⟩, "E"⟩, ⟨.punct .closeAngle, ⟨55, 56, 1, 56⟩, ">"⟩,
          ⟨.punct .semicolon, ⟨56, 57, 1, 57⟩, ";"⟩, ⟨.punct .closeBrace, ⟨58, 59, 1, 59⟩, "\x7d"⟩] := by cbv
    rw [hbody]
    have htype : WritesType [⟨.ident "F", ⟨52, 53, 1, 53⟩, "F"⟩, ⟨.punct .openAngle, ⟨53, 54, 1, 54⟩, "<"⟩,
        ⟨.ident "E", ⟨54, 55, 1, 55⟩, "E"⟩, ⟨.punct .closeAngle, ⟨55, 56, 1, 56⟩, ">"⟩] "F<E>" :=
      ⟨⟨by decide, by decide⟩, by decide, by decide, by decide, by decide⟩
    have hbases : WritesBases [⟨.ident "extends", ⟨12, 19, 1, 13⟩, "extends"⟩, ⟨.ident "N", ⟨20, 21, 1, 21⟩, "N"⟩,
        ⟨.punct .dot, ⟨21, 22, 1, 22⟩, "."⟩, ⟨.ident "B", ⟨22, 23, 1, 23⟩, "B"⟩] ["N.B"] :=
      .clause rfl (.one ⟨_, _, _, rfl, rfl, .part rfl rfl (.done _)⟩)
    refine @Writes.interface _ _ _ _ _ [_, _, _, _, _, _, _, _, _, _] _ _ [_] rfl rfl hbases rfl ?_ rfl
    refine @WritesMembers.more [_, _, _, _, _, _, _, _, _, _] [] _ [] ?_ .none
    exact @WritesMember.member (some _) (some _) (some _) _ _ _ _ _ _ _ _ rfl (by simp) (.inr ⟨_, rfl⟩) rfl rfl htype
      rfl

end Line

namespace Registry

/-- **Well-formed declarations are all found, exactly.**  If every line of a source holds a declaration or code without
declarations, and no name is declared twice, then the tables of the registry are the declarations of the lines in their
order, and there is no warning. -/
theorem extract_lines {lines : List Line} (hnames : ((Line.declarations lines).filterMap Finding.name?).Nodup) :
    (extract (Line.source lines)).bare = ofDeclarations (Line.declarations lines) := by
  have hdeclared : ∀ x ∈ Line.declarations lines, x.name?.isSome = true := by
    intro x hx
    obtain ⟨⟨text, declared, hl⟩, -, rfl⟩ := List.mem_filterMap.1 hx
    cases hl with
    | declaration _ hwrites => exact hwrites.isSome_name?
  rw [extract, bare, mapSpans_addAll]
  exact (congrArg _ (Extract.findings_source lines)).trans (addAll_of_nodup hdeclared hnames)

theorem extract_lines_call :
    ((Line.declarations [.interfaceWithBase, .call, .enumWithText]).filterMap Finding.name?).Nodup ∧
    (extract (Line.source [.interfaceWithBase, .call, .enumWithText])).bare =
      { interfaces := ⟨[
          { name := "I", bases := ["N.B"],
            fields := [{ name := "p q", type := "F<E>", optional := true, description := some "d" }] }]⟩,
        enums := ⟨[{ name := "E", values := ["A", "b"] }]⟩ } := by
  have hnames : ((Line.declarations [.interfaceWithBase, .call, .enumWithText]).filterMap Finding.name?).Nodup := by
    decide
  exact ⟨hnames, extract_lines hnames⟩

/-- The alias is missed behind a dot, also if a comment stands between them, and so is an alias without tokens for its
type. -/
theorem not_extract_commented_dot :
    (((tokenize "x. // c").body.all fun t => !t.kind.isError && !Extract.startsDeclaration t.kind) = true ∧
      (tokenize "x. // c").body.getLast?.map Token.kind = some (.comment "// c") ∧
      Extract.Holds "type A = string;" (some (.typeAlias { name := "A", type := "string" })) ∧
      (extract ("x. // c" ++ "\n" ++ "type A = string;")).aliases.names ≠ ["A"]) ∧
    ((tokenize " ").body = [] ∧ (extract "type A =  ;").aliases.names ≠ ["A"]) := by
  refine ⟨⟨by cbv, by cbv, .declaration (by decide) ?_, ?_⟩, by cbv, ?_⟩
  · have hbody : (tokenizeSignificant "type A = string;").body =
        [⟨.ident "type", ⟨0, 4, 1, 1⟩, "type"⟩, ⟨.ident "A", ⟨5, 6, 1, 6⟩, "A"⟩, ⟨.punct .equals, ⟨7, 8, 1, 8⟩, "="⟩,
          ⟨.ident "string", ⟨9, 15, 1, 10⟩, "string"⟩, ⟨.punct .semicolon, ⟨15, 16, 1, 16⟩, ";"⟩] := by cbv
    rw [hbody]
    exact @Extract.Writes.typeAlias _ _ _ _ [_] _ _ rfl rfl rfl
      ⟨⟨by decide, by decide⟩, by decide, by decide, by decide, by decide⟩ rfl
  · have hnames : (extract ("x. // c" ++ "\n" ++ "type A = string;")).aliases.names = [] := by cbv
    rw [hnames]
    decide
  · have hnames : (extract "type A =  ;").aliases.names = [] := by cbv
    rw [hnames]
    decide

end Registry

end TypeSchema
