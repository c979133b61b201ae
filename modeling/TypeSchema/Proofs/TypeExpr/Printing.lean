import TypeSchema.Proofs.TypeExpr.Completeness
import TypeSchema.Proofs.TypeExpr.WellFormed
import TypeSchema.TypeExpr.Printer

/-!
# Printed expressions are derived

`levels` counts the levels of a printed expression.  The tokens of a printed well-formed expression with stable keys
derive it, with exactly that many levels (`prints_of_inner`): by induction on the tree, where a tree is printed either
where anything may stand (`Printed .union`) or with any number of suffixes behind it (`Tight`).
-/

namespace TypeSchema

namespace TypeExpr

mutual

/-- The deepest level of an expression that is printed on `level` with `suffixes` suffixes behind it.  If `tight`, it
stands where a union or a question mark needs parentheses. -/
def levels (tight : Bool) (level suffixes : Nat) : TypeExpr → Nat
  | primitive _ | literal _ | reference _ | anyRecord => level + suffixes
  | array e => e.levels true level (suffixes + 1)
  | record _ e => max (e.levels false (level + 1) 0) (level + suffixes)
  | generic _ es => max (levelsAll false (level + 1) es) (level + suffixes)
  | union es => if tight then max (levelsAll true (level + 1) es) (level + suffixes) else levelsAll true level es
  | optional e => if tight then max (e.levels false (level + 1) 0) (level + suffixes) else e.levels false level suffixes

/-- The deepest level of several expressions. -/
def levelsAll (tight : Bool) (level : Nat) : List TypeExpr → Nat
  | [] => 0
  | e :: es => max (e.levels tight level 0) (levelsAll tight level es)

end

/-- The number of levels of a printed expression. -/
def printedLevels (e : TypeExpr) : Nat := e.levels false 1 0

end TypeExpr

namespace Parser

open Lexer (Reads Follow follow_cons follow_punct)
open TypeExpr (IsDotted Inner WellFormed levels levelsAll renderTight)

/-! ## Pieces of a text -/

/-- The piece `w` of a text, between `before` and `rest`, is read as these tokens. -/
structure ReadAt (source : String) (before w rest : List Char) (ts : List Token) : Prop where
  text : source.toList = before ++ w ++ rest
  reads : Reads rest (Position.origin.advance before) w ts

theorem ReadAt.append {source : String} {before w w' rest : List Char} {ts us : List Token}
    (h : ReadAt source before w (w' ++ rest) ts) (h' : ReadAt source (before ++ w) w' rest us) :
    ReadAt source before (w ++ w') rest (ts ++ us) := by
  refine ⟨by simp [h.text], h.reads.trans ?_⟩
  rw [← Position.advance_append]
  exact h'.reads

theorem readAt_spelled {source : String} {before w rest : List Char} {kind : TokenKind}
    (hs : source.toList = before ++ w ++ rest) (h : Lexeme.Spells kind w) (hstops : Lexeme.Stops kind rest) :
    ∃ t, ReadAt source before w rest [t] ∧ t.kind = kind :=
  ⟨_, ⟨hs, Lexer.reads_spelled h hstops _⟩, rfl⟩

theorem readAt_punct {source : String} {before rest : List Char} {x : Punct}
    (hs : source.toList = before ++ x.symbol ++ rest) (hx : x ≠ .equals) :
    ∃ t, ReadAt source before x.symbol rest [t] ∧ t.kind = .punct x := by
  refine readAt_spelled hs (.punct x) ?_
  cases x with
  | equals => exact absurd rfl hx
  | _ => trivial

theorem readAt_space {source : String} {before rest : List Char} (hs : source.toList = before ++ [' '] ++ rest) :
    ReadAt source before [' '] rest [] := ⟨hs, Lexer.reads_blank (by decide) _ _⟩

theorem significant_cons {t : Token} (h : t.kind.isComment = false) (ts : List Token) :
    significant (t :: ts) = t :: significant ts := by
  simp [significant, h]

theorem significant_punct {t : Token} {x : Punct} (h : t.kind = .punct x) (ts : List Token) :
    significant (t :: ts) = t :: significant ts := significant_cons (by rw [h]; rfl) ts

theorem significant_of_puncts {ts : List Token} {xs : List Punct} (h : ts.map Token.kind = xs.map .punct) :
    significant ts = ts := by
  refine List.filter_eq_self.2 fun t ht => ?_
  have hk : t.kind ∈ xs.map TokenKind.punct := h ▸ List.mem_map_of_mem ht
  obtain ⟨x, -, hx⟩ := List.mem_map.1 hk
  rw [← hx]
  rfl

/-- Several punctuations without blanks between them. -/
theorem readAt_puncts {source : String} {xs : List Punct} (hx : .equals ∉ xs) {before rest : List Char}
    (hs : source.toList = before ++ xs.flatMap Punct.symbol ++ rest) :
    ∃ ts, ReadAt source before (xs.flatMap Punct.symbol) rest ts ∧ ts.map Token.kind = xs.map .punct := by
  induction xs generalizing before with
  | nil => exact ⟨[], ⟨hs, .done _⟩, rfl⟩
  | cons x xs ih =>
    rw [List.mem_cons, not_or] at hx
    have hs₁ : source.toList = before ++ x.symbol ++ (xs.flatMap Punct.symbol ++ rest) := by simp [hs]
    have hs₂ : source.toList = before ++ x.symbol ++ xs.flatMap Punct.symbol ++ rest := by simp [hs]
    obtain ⟨t, ht, hk⟩ := readAt_punct hs₁ (Ne.symm hx.1)
    obtain ⟨ts, hts, hks⟩ := ih hx.2 hs₂
    exact ⟨t :: ts, ht.append hts, by rw [List.map_cons, List.map_cons, hk, hks]⟩

/-- A piece between two brackets. -/
theorem readAt_between {source : String} {x y : Punct} (hx : x ≠ .equals) (hy : y ≠ .equals)
    {before w rest : List Char} (hs : source.toList = before ++ (x.symbol ++ (w ++ y.symbol)) ++ rest)
    {p : List Token → Prop} (h : ∀ before rest, source.toList = before ++ w ++ rest → Follow rest →
      ∃ ts, ReadAt source before w rest ts ∧ p ts) :
    ∃ opening ts closing, ReadAt source before (x.symbol ++ (w ++ y.symbol)) rest (opening :: (ts ++ [closing])) ∧
      opening.kind = .punct x ∧ closing.kind = .punct y ∧ p ts := by
  have hs₁ : source.toList = before ++ x.symbol ++ (w ++ y.symbol ++ rest) := by simp [hs]
  have hs₂ : source.toList = before ++ x.symbol ++ w ++ (y.symbol ++ rest) := by simp [hs]
  have hs₃ : source.toList = before ++ x.symbol ++ w ++ y.symbol ++ rest := by simp [hs]
  obtain ⟨opening, ho, hok⟩ := readAt_punct hs₁ hx
  obtain ⟨ts, hts, hp⟩ := h _ _ hs₂ (follow_punct y rest)
  obtain ⟨closing, hc, hck⟩ := readAt_punct hs₃ hy
  exact ⟨opening, ts, closing, ho.append (hts.append hc), hok, hck, hp⟩

theorem significant_between {opening closing : Token} {x y : Punct} (ho : opening.kind = .punct x)
    (hc : closing.kind = .punct y) (ts : List Token) :
    significant (opening :: (ts ++ [closing])) = opening :: (significant ts ++ [closing]) := by
  rw [significant_punct ho, significant_append, significant_punct hc]
  rfl

/-! ## Names -/

theorem follow_parts {rest : List Char} (h : Follow rest) (parts : List (List Char)) :
    Follow (parts.flatMap ('.' :: ·) ++ rest) := by
  cases parts with
  | nil => exact h
  | cons part parts => exact follow_cons (by decide) _

theorem exists_nameTail {source : String} {parts : List (List Char)}
    (hp : ∀ part ∈ parts, Identifier.isIdentifier part = true) (name : String) {before rest : List Char}
    (hs : source.toList = before ++ parts.flatMap ('.' :: ·) ++ rest) (hrest : Follow rest) :
    ∃ ts, ReadAt source before (parts.flatMap ('.' :: ·)) rest ts ∧
      NameTail name (significant ts) (String.ofList (name.toList ++ parts.flatMap ('.' :: ·))) := by
  induction parts generalizing name before with
  | nil =>
    refine ⟨[], ⟨hs, .done _⟩, ?_⟩
    rw [List.flatMap_nil, List.append_nil, String.ofList_toList]
    exact .done name
  | cons part parts ih =>
    have hpart := hp part List.mem_cons_self
    have hs₁ : source.toList = before ++ ['.'] ++ (part ++ parts.flatMap ('.' :: ·) ++ rest) := by simp [hs]
    have hs₂ : source.toList = before ++ ['.'] ++ part ++ (parts.flatMap ('.' :: ·) ++ rest) := by simp [hs]
    have hs₃ : source.toList = before ++ ['.'] ++ part ++ parts.flatMap ('.' :: ·) ++ rest := by simp [hs]
    obtain ⟨dot, hdot, hk⟩ := readAt_punct (x := .dot) hs₁ (by decide)
    obtain ⟨t, ht, hk'⟩ := readAt_spelled hs₂ (.ident hpart) (follow_parts hrest parts)
    obtain ⟨ts, hts, htail⟩ :=
      ih (fun q hq => hp q (List.mem_cons_of_mem _ hq)) (name ++ "." ++ String.ofList part) hs₃
    refine ⟨dot :: t :: ts, ?_, ?_⟩
    · exact hdot.append (ht.append hts)
    · rw [significant_punct hk, significant_cons (by rw [hk']; rfl)]
      refine .part hk hk' ?_
      simpa using htail

theorem exists_names {source : String} {name : String} (h : IsDotted name) {before rest : List Char}
    (hs : source.toList = before ++ name.toList ++ rest) (hrest : Follow rest) :
    ∃ ts, ReadAt source before name.toList rest ts ∧ Names (significant ts) name := by
  obtain ⟨first, parts, hfirst, hparts, hname⟩ := h
  rw [hname] at hs ⊢
  have hs₁ : source.toList = before ++ first ++ (parts.flatMap ('.' :: ·) ++ rest) := by simp [hs]
  have hs₂ : source.toList = before ++ first ++ parts.flatMap ('.' :: ·) ++ rest := by simp [hs]
  obtain ⟨t, ht, hk⟩ := readAt_spelled hs₁ (.ident hfirst) (follow_parts hrest parts)
  obtain ⟨ts, hts, htail⟩ := exists_nameTail hparts (String.ofList first) hs₂ hrest
  refine ⟨t :: ts, ht.append hts, ?_⟩
  rw [significant_cons (by rw [hk]; rfl)]
  refine ⟨t, _, _, rfl, hk, ?_⟩
  rw [String.toList_ofList, ← hname, String.ofList_toList] at htail
  exact htail

/-! ## Printed parts -/

theorem renderTight_eq_render {e : TypeExpr} (h : e.isLoose = false) : renderTight e = e.render := by
  rw [renderTight, h]
  rfl

theorem renderTight_eq_group {e : TypeExpr} (h : e.isLoose = true) : renderTight e = "(" ++ e.render ++ ")" := by
  rw [renderTight, h]
  rfl

theorem render_array (e : TypeExpr) : (TypeExpr.array e).render = renderTight e ++ "[]" := by
  rw [TypeExpr.render]
  rfl

/-- Wherever the text `w` stands, its tokens derive these trees. -/
def Printed (c : Category) (level : Nat) (w : List Char) (es : List TypeExpr) (top : Nat) : Prop :=
  ∀ source before rest, source.toList = before ++ w ++ rest → Follow rest →
    ∃ ts, ReadAt source before w rest ts ∧ Derives source NoKey c level (significant ts) es top

/-- Wherever the text of the tree stands, in parentheses if need be, its tokens and any suffixes behind them derive the
tree with these suffixes. -/
def Tight (e : TypeExpr) : Prop :=
  ∀ level source before rest, source.toList = before ++ (renderTight e).toList ++ rest → Follow rest →
    ∃ ts, ReadAt source before (renderTight e).toList rest ts ∧ ∀ n us, Brackets n us →
      Derives source NoKey .suffixed level (significant ts ++ us) [arrayed n e] (e.levels true level n)

/-- The tree is printed as it should be, with and without parentheses. -/
structure Prints (e : TypeExpr) : Prop where
  tight : Tight e
  loose (level : Nat) : Printed .union level e.render.toList [e] (e.levels false level 0)

theorem Tight.suffixed {e : TypeExpr} (h : Tight e) (level : Nat) :
    Printed .suffixed level (renderTight e).toList [e] (e.levels true level 0) := by
  intro source before rest hs hrest
  obtain ⟨ts, hts, hder⟩ := h level source before rest hs hrest
  refine ⟨ts, hts, ?_⟩
  have h₀ := hder 0 [] .none
  rwa [List.append_nil] at h₀

/-- Where no parentheses are needed, both texts are the same. -/
theorem prints_of_tight {e : TypeExpr} (hl : e.isLoose = false) (h : Tight e)
    (hlevels : ∀ level, e.levels false level 0 = e.levels true level 0) : Prints e := by
  refine ⟨h, fun level source before rest hs hrest => ?_⟩
  rw [← renderTight_eq_render hl] at hs ⊢
  obtain ⟨ts, hts, hder⟩ := h.suffixed level source before rest hs hrest
  refine ⟨ts, hts, ?_⟩
  rw [hlevels]
  exact .union (.one hder)

/-- A primary is tight. -/
theorem tight_of_primary {e : TypeExpr} (top : Nat → Nat)
    (h : ∀ level, Printed .primary level (renderTight e).toList [e] (top level))
    (hlevels : ∀ level n, e.levels true level n = max (top level) (level + n)) : Tight e := by
  intro level source before rest hs hrest
  obtain ⟨ts, hts, hder⟩ := h level source before rest hs hrest
  refine ⟨ts, hts, fun n us hu => ?_⟩
  rw [hlevels]
  exact .suffixed hder hu

theorem prints_of_primary {e : TypeExpr} (top : Nat → Nat) (hl : e.isLoose = false)
    (h : ∀ level, Printed .primary level e.render.toList [e] (top level))
    (hlevels : ∀ tight level n, e.levels tight level n = max (top level) (level + n)) : Prints e := by
  refine prints_of_tight hl (tight_of_primary top (fun level => ?_) (hlevels true)) fun level => ?_
  · rw [renderTight_eq_render hl]
    exact h level
  · rw [hlevels, hlevels]

/-! ## Leaves -/

theorem printed_plain {name : String} (h : IsDotted name) (level : Nat) :
    Printed .primary level name.toList [plain name] level := by
  intro source before rest hs hrest
  obtain ⟨ts, hts, hnames⟩ := exists_names h hs hrest
  exact ⟨ts, hts, .plain hnames⟩

theorem isDotted_of_isIdentifier {name : String} (h : Identifier.isIdentifier name.toList = true) : IsDotted name :=
  ⟨name.toList, [], h, by simp, by simp⟩

theorem prints_primitive (q : Primitive) : Prints (.primitive q) := by
  refine prints_of_primary (fun level => level) rfl (fun level => ?_) fun _ level n => ?_
  · have hd : IsDotted q.keyword := isDotted_of_isIdentifier (by cases q <;> decide)
    have h := printed_plain hd level
    rwa [plain_keyword] at h
  · simp only [levels]
    omega

theorem prints_reference {name : String} (h : IsDotted name) (hk : Primitive.ofKeyword? name = none) :
    Prints (.reference name) := by
  refine prints_of_primary (fun level => level) rfl (fun level => ?_) fun _ level n => ?_
  · have hplain : plain name = .reference name := by rw [plain, hk]
    have h := printed_plain h level
    rwa [hplain] at h
  · simp only [levels]
    omega

theorem prints_literal {value : String} {quote : Char} (hq : quote = '"' ∨ quote = '\'')
    (hb : Lexeme.QuotedText quote value.toList) : Prints (.literal ⟨value, quote⟩) := by
  refine prints_of_primary (fun level => level) rfl (fun level => ?_) fun _ level n => ?_
  · intro source before rest hs hrest
    have hw : (TypeExpr.literal ⟨value, quote⟩).render.toList = quote :: (value.toList ++ [quote]) := by
      simp [TypeExpr.render, StringLiteral.render]
    rw [hw] at hs ⊢
    obtain ⟨t, ht, hk⟩ := readAt_spelled hs (.str hq hb) trivial
    rw [String.ofList_toList] at hk
    refine ⟨[t], ht, ?_⟩
    rw [significant_cons (by rw [hk]; rfl)]
    exact .literal hk
  · simp only [levels]
    omega

theorem prints_anyRecord : Prints .anyRecord := by
  refine prints_of_primary (fun level => level) rfl (fun level => ?_) fun _ level n => ?_
  · intro source before rest hs _
    have hw : TypeExpr.anyRecord.render.toList = "Record".toList ++
        [Punct.openAngle, .dot, .dot, .dot, .closeAngle].flatMap Punct.symbol := rfl
    rw [hw] at hs ⊢
    rw [← List.append_assoc] at hs
    have hs₁ : source.toList = before ++ "Record".toList ++
        ([Punct.openAngle, .dot, .dot, .dot, .closeAngle].flatMap Punct.symbol ++ rest) := by simp [hs]
    obtain ⟨names, hnames, hn⟩ :=
      exists_names (isDotted_of_isIdentifier (by decide)) hs₁ (follow_punct .openAngle _)
    obtain ⟨ts, hts, hk⟩ := readAt_puncts (by decide) hs
    obtain ⟨opening, us, rfl, ho, hk⟩ := List.map_eq_cons_iff.1 hk
    have hsig : significant us = us := significant_of_puncts hk
    obtain ⟨t₁, us, rfl, h₁, hk⟩ := List.map_eq_cons_iff.1 hk
    obtain ⟨t₂, us, rfl, h₂, hk⟩ := List.map_eq_cons_iff.1 hk
    obtain ⟨t₃, us, rfl, h₃, hk⟩ := List.map_eq_cons_iff.1 hk
    obtain ⟨closing, us, rfl, hc, hk⟩ := List.map_eq_cons_iff.1 hk
    obtain rfl := List.map_eq_nil_iff.1 hk
    refine ⟨_, hnames.append hts, ?_⟩
    rw [significant_append, significant_punct ho, hsig]
    refine .anyRecord hn ho ?_ fun more => ?_
    · simp [afterAngles?, Token.isPunct, h₁, h₂, h₃, hc]
    · simp [splitKey?, Token.isPunct, TokenKind.isClose, Punct.isClose, TokenKind.nesting, TokenKind.isOpen,
        Punct.isOpen, h₁, h₂, h₃, hc]
  · simp only [levels]
    omega

theorem prints_array {e : TypeExpr} (h : Prints e) : Prints (.array e) := by
  have htight : Tight (.array e) := by
    intro level source before rest hs hrest
    have hw : (renderTight (.array e)).toList =
        (renderTight e).toList ++ [Punct.openBracket, .closeBracket].flatMap Punct.symbol := by
      rw [renderTight_eq_render rfl, render_array, String.toList_append]
      rfl
    rw [hw] at hs ⊢
    have hs₁ : source.toList = before ++ (renderTight e).toList ++
        ([Punct.openBracket, .closeBracket].flatMap Punct.symbol ++ rest) := by simp [hs]
    obtain ⟨ts, hts, hder⟩ := h.tight level source before _ hs₁ (follow_punct .openBracket _)
    rw [← List.append_assoc] at hs
    obtain ⟨us, hus, hk⟩ := readAt_puncts (by decide) hs
    obtain ⟨opening, us, rfl, ho, hu⟩ := List.map_eq_cons_iff.1 hk
    obtain ⟨closing, us, rfl, hc, hu⟩ := List.map_eq_cons_iff.1 hu
    obtain rfl := List.map_eq_nil_iff.1 hu
    refine ⟨_, hts.append hus, fun n vs hv => ?_⟩
    rw [significant_append, significant_of_puncts hk, List.append_assoc]
    exact hder (n + 1) (opening :: closing :: vs) (.pair ho hc hv)
  exact prints_of_tight rfl htight fun level => by simp [levels]

/-! ## Lists of parts -/

/-- The text `sep` is read as the separator of parts of sort `c`. -/
def Separates (c : Category) (sep : List Char) : Prop :=
  (∀ rest, Follow (sep ++ rest)) ∧ ∀ source before rest, source.toList = before ++ sep ++ rest →
    ∃ t, ReadAt source before sep rest [t] ∧ t.kind = .punct c.separator

theorem separates_comma : Separates .union [',', ' '] := by
  refine ⟨fun rest => follow_cons (by decide) _, fun source before rest hs => ?_⟩
  have hs₁ : source.toList = before ++ [','] ++ ([' '] ++ rest) := by simp [hs]
  have hs₂ : source.toList = before ++ [','] ++ [' '] ++ rest := by simp [hs]
  obtain ⟨t, ht, hk⟩ := readAt_punct (x := .comma) hs₁ (by decide)
  exact ⟨t, ht.append (readAt_space hs₂), hk⟩

theorem separates_bar : Separates .suffixed [' ', '|', ' '] := by
  refine ⟨fun rest => follow_cons (by decide) _, fun source before rest hs => ?_⟩
  have hs₁ : source.toList = before ++ [' '] ++ (['|'] ++ [' '] ++ rest) := by simp [hs]
  have hs₂ : source.toList = before ++ [' '] ++ ['|'] ++ ([' '] ++ rest) := by simp [hs]
  have hs₃ : source.toList = before ++ [' '] ++ ['|'] ++ [' '] ++ rest := by simp [hs]
  obtain ⟨t, ht, hk⟩ := readAt_punct (x := .pipe) hs₂ (by decide)
  exact ⟨t, (readAt_space hs₁).append (ht.append (readAt_space hs₃)), hk⟩

theorem printed_several {c : Category} {sep : List Char} (hsep : Separates c sep) {tight : Bool} {level : Nat}
    {text : TypeExpr → List Char} {es : List TypeExpr} (hne : es ≠ [])
    (h : ∀ e ∈ es, Printed c level (text e) [e] (e.levels tight level 0)) :
    Printed (.several c) level (sep.intercalate (es.map text)) es (levelsAll tight level es) := by
  induction es with
  | nil => exact absurd rfl hne
  | cons e es ih =>
    have he := h e List.mem_cons_self
    cases es with
    | nil =>
      intro source before rest hs hrest
      rw [List.map_singleton, List.intercalate_singleton] at hs ⊢
      obtain ⟨ts, hts, hder⟩ := he source before rest hs hrest
      refine ⟨ts, hts, ?_⟩
      rw [levelsAll, levelsAll, Nat.max_zero]
      exact .one hder
    | cons f fs =>
      have hes := ih (by simp) fun g hg => h g (List.mem_cons_of_mem _ hg)
      intro source before rest hs hrest
      rw [List.map_cons, List.map_cons, List.intercalate_cons_cons, ← List.map_cons] at hs ⊢
      generalize sep.intercalate (List.map text (f :: fs)) = w at hs hes ⊢
      have hs₁ : source.toList = before ++ text e ++ (sep ++ (w ++ rest)) := by simp [hs]
      have hs₂ : source.toList = before ++ text e ++ sep ++ (w ++ rest) := by simp [hs]
      have hs₃ : source.toList = before ++ (text e ++ sep) ++ w ++ rest := by simp [hs]
      obtain ⟨ts, hts, hder⟩ := he source before _ hs₁ (hsep.1 _)
      obtain ⟨t, ht, hk⟩ := hsep.2 source _ _ hs₂
      obtain ⟨us, hus, hder'⟩ := hes source _ rest hs₃ hrest
      refine ⟨_, (hts.append ht).append hus, ?_⟩
      rw [significant_append, significant_append, significant_punct hk, List.append_assoc, levelsAll]
      exact .more hder hk hder'

/-! ## Nodes -/

theorem prints_generic {name : String} {es : List TypeExpr} (hd : IsDotted name) (hn : name ≠ "Record")
    (ha : name = "Array" → es.length ≠ 1) (hne : es ≠ []) (h : ∀ e ∈ es, Prints e) :
    Prints (.generic name es) := by
  refine prints_of_primary (fun level => levelsAll false (level + 1) es) rfl (fun level => ?_) fun _ level n => ?_
  · have hw : (TypeExpr.generic name es).render.toList = name.toList ++ (Punct.openAngle.symbol ++
        ([',', ' '].intercalate (es.map fun e => e.render.toList) ++ Punct.closeAngle.symbol)) := by
      simp [TypeExpr.render, TypeExpr.renderAll_eq_map, Punct.symbol, Function.comp_def]
    have hargs := printed_several separates_comma hne fun e he => (h e he).loose (level + 1)
    intro source before rest hs _
    rw [hw] at hs ⊢
    generalize [',', ' '].intercalate (es.map fun e => e.render.toList) = w at hs hargs ⊢
    rw [← List.append_assoc] at hs
    obtain ⟨opening, us, closing, hus, ho, hc, hder⟩ :=
      readAt_between (by decide) (by decide) hs fun before rest hs hrest => hargs source before rest hs hrest
    have hs₁ : source.toList = before ++ name.toList ++
        (Punct.openAngle.symbol ++ (w ++ Punct.closeAngle.symbol) ++ rest) := by simp [hs]
    obtain ⟨names, hnames, hname⟩ := exists_names hd hs₁ (by simpa using follow_punct .openAngle _)
    refine ⟨_, hnames.append hus, ?_⟩
    rw [significant_append, significant_between ho hc, ← applied_eq_generic ha]
    exact .applied hname hn ho hder hc
  · simp only [levels]

theorem prints_union {es : List TypeExpr} (hl : 2 ≤ es.length) (h : ∀ e ∈ es, Prints e) : Prints (.union es) := by
  have hne : es ≠ [] := by
    rintro rfl
    cases hl
  have hjoined : joined es = .union es := by
    unfold joined
    split
    · simp at hl
    · rfl
  have hw : (TypeExpr.union es).render.toList =
      [' ', '|', ' '].intercalate (es.map fun e => (renderTight e).toList) := by
    simp [TypeExpr.render, TypeExpr.renderBranches_eq_map, Function.comp_def]
  have hloose (level : Nat) : Printed .union level (TypeExpr.union es).render.toList [.union es]
      (levelsAll true level es) := by
    intro source before rest hs hrest
    rw [hw] at hs ⊢
    obtain ⟨ts, hts, hder⟩ := printed_several separates_bar hne (fun e he => (h e he).tight.suffixed level)
      source before rest hs hrest
    refine ⟨ts, hts, ?_⟩
    rw [← hjoined]
    exact .union hder
  constructor
  · refine tight_of_primary (fun level => levelsAll true (level + 1) es) (fun level => ?_) fun level n => ?_
    · intro source before rest hs _
      have hg : (renderTight (.union es)).toList =
          Punct.openParen.symbol ++ ((TypeExpr.union es).render.toList ++ Punct.closeParen.symbol) := by
        rw [renderTight_eq_group rfl, String.toList_append, String.toList_append, List.append_assoc]
        rfl
      rw [hg] at hs ⊢
      obtain ⟨opening, us, closing, hus, ho, hc, hder⟩ := readAt_between (by decide) (by decide) hs
        fun before rest hs hrest => hloose (level + 1) source before rest hs hrest
      refine ⟨_, hus, ?_⟩
      rw [significant_between ho hc]
      exact .group ho hder hc
    · simp [levels]
  · intro level
    simpa [levels] using hloose level

/-- A key that is read back: it is stable, and its blanks are collapsed. -/
structure IsCanonicalKey (key : String) : Prop where
  stable : isStableKey key = true
  collapsed : Text.collapse key = key

/-- The key and the value of a record, with a comma between them. -/
theorem readAt_entry {source : String} {key : String} {e : TypeExpr} {level top : Nat} (hkey : IsCanonicalKey key)
    (h : Printed .union level e.render.toList [e] top) {before rest : List Char}
    (hs : source.toList = before ++ (key.toList ++ ([',', ' '] ++ e.render.toList)) ++ rest) (hrest : Follow rest) :
    ∃ ts, ReadAt source before (key.toList ++ ([',', ' '] ++ e.render.toList)) rest ts ∧
      ∃ ks comma us, significant ts = ks ++ comma :: us ∧ isKey 0 ks = true ∧ keyText? source ks = some key ∧
        comma.kind = .punct .comma ∧ Derives source NoKey .union level us [e] top := by
  have hs₁ : source.toList = before ++ key.toList ++ ([',', ' '] ++ e.render.toList ++ rest) := by simp [hs]
  have hs₂ : source.toList = before ++ key.toList ++ [',', ' '] ++ (e.render.toList ++ rest) := by simp [hs]
  have hs₃ : source.toList = before ++ key.toList ++ [',', ' '] ++ e.render.toList ++ rest := by simp [hs]
  obtain ⟨ks, hks, hisKey, htext⟩ := exists_key_of_stable hkey.stable hkey.collapsed
    (show ([',', ' '] ++ e.render.toList ++ rest).head? = some ',' from rfl) (Position.origin.advance before)
  obtain ⟨comma, hcomma, hk⟩ := separates_comma.2 source _ _ hs₂
  obtain ⟨us, hus, hder⟩ := h source _ rest hs₃ hrest
  have hread : ReadAt source before key.toList ([',', ' '] ++ e.render.toList ++ rest) ks := ⟨hs₁, hks⟩
  refine ⟨ks ++ ([comma] ++ us), hread.append (hcomma.append hus), ?_⟩
  refine ⟨significant ks, comma, significant us, ?_, hisKey, htext before source hs₁ rfl, hk, hder⟩
  rw [significant_append, List.singleton_append, significant_punct hk]

theorem prints_record {key : String} {e : TypeExpr} (hkey : IsCanonicalKey key) (h : Prints e) :
    Prints (.record key e) := by
  refine prints_of_primary (fun level => e.levels false (level + 1) 0) rfl (fun level => ?_) fun _ level n => ?_
  · have hw : (TypeExpr.record key e).render.toList = "Record".toList ++ (Punct.openAngle.symbol ++
        (key.toList ++ ([',', ' '] ++ e.render.toList) ++ Punct.closeAngle.symbol)) := by
      simp [TypeExpr.render, Punct.symbol]
    intro source before rest hs _
    rw [hw] at hs ⊢
    rw [← List.append_assoc] at hs
    obtain ⟨opening, ts, closing, hts, ho, hc, ks, comma, us, hsig, hisKey, htext, hcomma, hder⟩ :=
      readAt_between (by decide) (by decide) hs fun before rest hs hrest =>
        readAt_entry hkey (h.loose (level + 1)) hs hrest
    have hs₁ : source.toList = before ++ "Record".toList ++ (Punct.openAngle.symbol ++
        (key.toList ++ ([',', ' '] ++ e.render.toList) ++ Punct.closeAngle.symbol) ++ rest) := by simp [hs]
    obtain ⟨names, hnames, hname⟩ :=
      exists_names (isDotted_of_isIdentifier (by decide)) hs₁ (by simpa using follow_punct .openAngle _)
    refine ⟨_, hnames.append hts, ?_⟩
    rw [significant_append, significant_between ho hc, hsig, List.append_assoc, List.cons_append]
    exact .record hname ho hisKey htext hcomma hder hc
  · simp only [levels]

/-! ## Whole expressions -/

/-- **A well-formed tree with canonical keys is printed as it should be**: by induction on the tree. -/
theorem prints_of_inner {e : TypeExpr} (h : Inner IsCanonicalKey e) : Prints e := by
  induction h with
  | primitive q => exact prints_primitive q
  | literal hq hb => exact prints_literal hq hb
  | reference hd hk => exact prints_reference hd hk
  | array _ ih => exact prints_array ih
  | record hkey _ ih => exact prints_record hkey ih
  | anyRecord => exact prints_anyRecord
  | generic hd hn ha hne _ ih => exact prints_generic hd hn ha hne ih
  | union hl _ ih => exact prints_union hl ih

/-- The tokens of a text that is read whole. -/
theorem ReadAt.rest_ofText {source : String} {ts : List Token} (h : ReadAt source [] source.toList [] ts) :
    (ofText source).rest = significant ts := by
  have htokens := Lexer.tokenize_of_reads h.reads
  rw [String.ofList_toList] at htokens
  rw [Parser.rest_ofText, htokens]

/-- **A printed expression is derived**, with as many levels as are counted. -/
theorem derivesType_render {e : TypeExpr} (h : WellFormed IsCanonicalKey e) :
    DerivesType e.render NoKey (ofText e.render).rest e e.printedLevels := by
  cases h with
  | bare h =>
    obtain ⟨ts, hts, hder⟩ := (prints_of_inner h).loose 1 e.render [] [] (by simp) (by simp [Follow])
    rw [hts.rest_ofText]
    exact .bare hder
  | @optional e h =>
    have hw : (TypeExpr.optional e).render.toList = e.render.toList ++ Punct.question.symbol := by
      simp [TypeExpr.render, Punct.symbol]
    have hs : (TypeExpr.optional e).render.toList = [] ++ e.render.toList ++ (Punct.question.symbol ++ []) := by
      simp [hw]
    have hs₁ : (TypeExpr.optional e).render.toList = [] ++ e.render.toList ++ Punct.question.symbol ++ [] := by
      simp [hw]
    obtain ⟨ts, hts, hder⟩ := (prints_of_inner h).loose 1 _ _ _ hs (follow_punct .question [])
    obtain ⟨question, hq, hk⟩ := readAt_punct hs₁ (by decide)
    have hall := hts.append hq
    rw [← hw] at hall
    rw [hall.rest_ofText, significant_append, significant_punct hk]
    exact .optional hder hk

end Parser

end TypeSchema
