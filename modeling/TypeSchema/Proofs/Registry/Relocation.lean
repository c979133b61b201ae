import TypeSchema.Proofs.Lexing.Places
import TypeSchema.Registry.Extract

/-!
# What is found does not depend on the place

Readers look at the places of tokens only to see which of two tokens comes first, on which line they stand, and whether
there is something between them.  So a relocation of the tokens relocates what is found in them, and changes nothing
else (`scan_map`).  `Registry.bare` is a registry without its spans.
-/

namespace TypeSchema

/-! ## Spans of declarations -/

/-- The warning with its span changed. -/
def Diagnostic.mapSpan (f : Span → Span) (d : Diagnostic) : Diagnostic := { d with span := f d.span }

/-- The field with its span changed. -/
def Field.mapSpan (f : Span → Span) (d : Field) : Field := { d with span := f d.span }

/-- The interface with its spans changed. -/
def Interface.mapSpans (f : Span → Span) (i : Interface) : Interface :=
  { i with fields := i.fields.map (Field.mapSpan f), span := f i.span }

/-- The alias with its span changed. -/
def Alias.mapSpan (f : Span → Span) (a : Alias) : Alias := { a with span := f a.span }

/-- The enum with its span changed. -/
def Enumeration.mapSpan (f : Span → Span) (e : Enumeration) : Enumeration := { e with span := f e.span }

/-- The finding with its spans changed. -/
def Finding.mapSpans (f : Span → Span) : Finding → Finding
  | interface i => .interface (i.mapSpans f)
  | typeAlias a => .typeAlias (a.mapSpan f)
  | enum e => .enum (e.mapSpan f)
  | warning d => .warning (d.mapSpan f)

/-- The table with its declarations changed. -/
def Table.map {α : Type} (f : α → α) (t : Table α) : Table α := ⟨t.entries.map f⟩

/-- The registry with its spans changed. -/
def Registry.mapSpans (f : Span → Span) (r : Registry) : Registry where
  interfaces := r.interfaces.map (Interface.mapSpans f)
  aliases := r.aliases.map (Alias.mapSpan f)
  enums := r.enums.map (Enumeration.mapSpan f)
  diagnostics := r.diagnostics.map (Diagnostic.mapSpan f)

/-- The finding without its spans. -/
def Finding.bare : Finding → Finding := mapSpans fun _ => {}

/-- The registry without its spans. -/
def Registry.bare : Registry → Registry := mapSpans fun _ => {}

@[simp] theorem Finding.bare_mapSpans (f : Span → Span) (x : Finding) : (x.mapSpans f).bare = x.bare := by
  cases x with
  | interface i =>
    simp only [mapSpans, bare, Interface.mapSpans, List.map_map]
    rfl
  | _ => rfl

/-! ## Registries -/

section Registries

open Named (nameOf)

variable {α : Type} [Named α] {f : α → α} (hf : ∀ a, nameOf (f a) = nameOf a)

include hf

theorem Table.names_map (t : Table α) : (t.map f).names = t.names := by
  simp only [names, map, List.map_map]
  exact List.map_congr_left fun a _ => hf a

theorem Table.contains_map (t : Table α) (name : String) : (t.map f).contains name = t.contains name := by
  rw [contains, names_map hf, contains]

theorem Table.insert_map (t : Table α) (a : α) : (t.map f).insert (f a) = (t.insert a).map f := by
  unfold insert
  rw [hf, contains_map hf]
  split
  · simp only [map, List.map_map, Table.mk.injEq]
    refine List.map_congr_left fun b _ => ?_
    simp only [Function.comp_apply, hf]
    split <;> rfl
  · simp [map]

end Registries

namespace Registry

variable (f : Span → Span) (r : Registry)

theorem kindOf?_mapSpans (name : String) : (r.mapSpans f).kindOf? name = r.kindOf? name := by
  have hi := Table.contains_map (f := Interface.mapSpans f) (fun _ => rfl) r.interfaces name
  have ha := Table.contains_map (f := Alias.mapSpan f) (fun _ => rfl) r.aliases name
  have he := Table.contains_map (f := Enumeration.mapSpan f) (fun _ => rfl) r.enums name
  simp only [kindOf?, mapSpans, hi, ha, he]

theorem mapSpans_warn (span : Span) (w : Warning) : (r.warn span w).mapSpans f = (r.mapSpans f).warn (f span) w := by
  simp only [warn, mapSpans, List.map_append, List.map_cons, List.map_nil]
  rfl

theorem mapSpans_warnIf (replaced : Bool) (span : Span) (w : Warning) :
    (r.warnIf replaced span w).mapSpans f = (r.mapSpans f).warnIf replaced (f span) w := by
  unfold warnIf
  split
  · exact mapSpans_warn f r span w
  · rfl

theorem mapSpans_checkCollision (name : String) (kind : DeclarationKind) (span : Span) :
    (r.checkCollision name kind span).mapSpans f = (r.mapSpans f).checkCollision name kind (f span) := by
  unfold checkCollision
  rw [kindOf?_mapSpans]
  split
  · split
    · rfl
    · exact mapSpans_warn f r span _
  · rfl

theorem mapSpans_addInterface (i : Interface) :
    (r.addInterface i).mapSpans f = (r.mapSpans f).addInterface (i.mapSpans f) := by
  have hname (j : Interface) : Named.nameOf (j.mapSpans f) = Named.nameOf j := rfl
  unfold addInterface
  dsimp only
  rw [mapSpans_warnIf, show (i.mapSpans f).name = i.name from rfl, show (i.mapSpans f).span = f i.span from rfl,
    ← mapSpans_checkCollision]
  generalize r.checkCollision i.name .interface i.span = s
  rw [show (s.mapSpans f).interfaces = s.interfaces.map (Interface.mapSpans f) from rfl, Table.insert_map hname,
    Table.contains_map hname]
  rfl

theorem mapSpans_addAlias (a : Alias) :
    (r.addAlias a).mapSpans f = (r.mapSpans f).addAlias (a.mapSpan f) := by
  have hname (b : Alias) : Named.nameOf (b.mapSpan f) = Named.nameOf b := rfl
  unfold addAlias
  dsimp only
  rw [mapSpans_warnIf, show (a.mapSpan f).name = a.name from rfl, show (a.mapSpan f).span = f a.span from rfl,
    ← mapSpans_checkCollision]
  generalize r.checkCollision a.name .typeAlias a.span = s
  rw [show (s.mapSpans f).aliases = s.aliases.map (Alias.mapSpan f) from rfl, Table.insert_map hname,
    Table.contains_map hname]
  rfl

theorem mapSpans_addEnum (e : Enumeration) :
    (r.addEnum e).mapSpans f = (r.mapSpans f).addEnum (e.mapSpan f) := by
  have hname (d : Enumeration) : Named.nameOf (d.mapSpan f) = Named.nameOf d := rfl
  unfold addEnum
  dsimp only
  rw [mapSpans_warnIf, show (e.mapSpan f).name = e.name from rfl, show (e.mapSpan f).span = f e.span from rfl,
    ← mapSpans_checkCollision]
  generalize r.checkCollision e.name .enum e.span = s
  rw [show (s.mapSpans f).enums = s.enums.map (Enumeration.mapSpan f) from rfl, Table.insert_map hname,
    Table.contains_map hname]
  rfl

theorem mapSpans_add (x : Finding) : (r.add x).mapSpans f = (r.mapSpans f).add (x.mapSpans f) := by
  cases x with
  | interface i => exact mapSpans_addInterface f r i
  | typeAlias a => exact mapSpans_addAlias f r a
  | enum e => exact mapSpans_addEnum f r e
  | warning d => exact mapSpans_warn f r d.span d.warning

/-- **Adding findings goes along with changing spans.** -/
theorem mapSpans_addAll (found : List Finding) :
    (r.addAll found).mapSpans f = (r.mapSpans f).addAll (found.map (Finding.mapSpans f)) := by
  induction found generalizing r with
  | nil => rfl
  | cons x found ih =>
    show ((r.add x).addAll found).mapSpans f = _
    rw [ih, mapSpans_add]
    rfl

/-- What is built from the same findings, spans aside, is the same, spans aside. -/
theorem bare_addAll_congr {found found' : List Finding} (h : found.map Finding.bare = found'.map Finding.bare) :
    (r.addAll found).bare = (r.addAll found').bare := by
  unfold bare Finding.bare at *
  rw [mapSpans_addAll, mapSpans_addAll, h]

end Registry

namespace Extract

variable (r : Relocation)

/-! ## Cutting tokens -/

/-- Both parts of a cut, relocated. -/
abbrev mapCut (cut : List Token × List Token) : List Token × List Token := (cut.1.map r.token, cut.2.map r.token)

theorem splitClosed?_map (opening close : Punct) (depth : Nat) (ts : List Token) :
    splitClosed? opening close depth (ts.map r.token) = (splitClosed? opening close depth ts).map (mapCut r) := by
  fun_induction splitClosed? opening close depth ts with
  | case1 => rfl
  | case2 depth t ts ho ih =>
    simp only [List.map_cons, splitClosed?, Relocation.isPunct_token, ho, if_true, ih, Option.map_map]
    rfl
  | case3 t ts ho hc =>
    simp only [List.map_cons, splitClosed?, Relocation.isPunct_token, ho, hc, if_true]
    rfl
  | case4 t ts ho hc depth ih =>
    simp only [List.map_cons, splitClosed?, Relocation.isPunct_token, ho, hc, if_true, ih, Option.map_map]
    rfl
  | case5 depth t ts ho hc ih =>
    simp only [List.map_cons, splitClosed?, Relocation.isPunct_token, ho, hc, ih, Option.map_map]
    rfl

theorem endsExpression_token (previous t : Token) :
    endsExpression (r.token previous) (r.token t) = endsExpression previous t := by
  simp only [endsExpression, Relocation.kind_token, Relocation.span_token, Relocation.span, r.line_lt_iff]

theorem splitExpression_map (previous : Token) (depth : Nat) (ts : List Token) :
    splitExpression (r.token previous) depth (ts.map r.token) = mapCut r (splitExpression previous depth ts) := by
  induction ts generalizing previous depth with
  | nil => rfl
  | cons t ts ih =>
    rw [List.map_cons, splitExpression, splitExpression, endsExpression_token, Relocation.kind_token, ih]
    split <;> rfl

theorem expression_map (first : Token) (ts : List Token) :
    expression (r.token first) (ts.map r.token) = mapCut r (expression first ts) :=
  splitExpression_map r first (first.kind.nesting 0) ts

theorem splitEnumMember_map (depth : Nat) (ts : List Token) :
    splitEnumMember depth (ts.map r.token) = mapCut r (splitEnumMember depth ts) := by
  induction ts generalizing depth with
  | nil => rfl
  | cons t ts ih =>
    rw [List.map_cons, splitEnumMember, splitEnumMember, Relocation.kind_token, ih,
      show endsEnumMember (r.token t) = endsEnumMember t from rfl]
    split <;> rfl

/-! ## Text of tokens -/

theorem spell_map (ts : List Token) : spell (ts.map r.token) = spell ts := by
  fun_induction spell ts with
  | case1 => rfl
  | case2 => rfl
  | case3 t u us ih =>
    rw [List.map_cons] at ih
    simp only [List.map_cons, spell, Relocation.text_token, Relocation.span_token, Relocation.span, r.offset_lt_iff, ih]

theorem filter_isDoc_map (ts : List Token) :
    (ts.map r.token).filter (fun t => !isDoc t) = (ts.filter fun t => !isDoc t).map r.token := by
  rw [List.filter_map]
  rfl

theorem typeText?_map (ts : List Token) : typeText? (ts.map r.token) = typeText? ts := by
  unfold typeText?
  rw [filter_isDoc_map, spell_map]

/-! ## Members -/

/-- A member that was read, relocated. -/
def mapMember : Except Diagnostic Field → Except Diagnostic Field
  | .ok f => .ok (f.mapSpan r.span)
  | .error d => .error (d.mapSpan r.span)

theorem memberStart_map (t : Token) (ts : List Token) :
    memberStart (r.token t) (ts.map r.token) = (r.token (memberStart t ts).1, (memberStart t ts).2.map r.token) := by
  cases ts with
  | nil => rfl
  | cons u us =>
    rw [List.map_cons, memberStart, memberStart, Relocation.isIdent_token,
      show memberName? (r.token u) = memberName? u from rfl]
    split <;> rfl

theorem takeQuestion_map (ts : List Token) :
    takeQuestion (ts.map r.token) = ((takeQuestion ts).1, (takeQuestion ts).2.map r.token) := by
  cases ts with
  | nil => rfl
  | cons t ts =>
    rw [List.map_cons, takeQuestion, takeQuestion, Relocation.isPunct_token]
    split <;> rfl

theorem withoutColon_map (name owner : String) (ts : List Token) :
    withoutColon name owner (ts.map r.token) = withoutColon name owner ts := by
  cases ts <;> rfl

theorem memberAt_map (owner : String) (description : Option String) (t : Token) (ts : List Token) :
    memberAt owner description (r.token t) (ts.map r.token) =
      (mapMember r (memberAt owner description t ts).1, (memberAt owner description t ts).2.map r.token) := by
  unfold memberAt
  rw [memberStart_map]
  dsimp only
  rw [takeQuestion_map]
  dsimp only
  rw [expression_map, withoutColon_map]
  cases (takeQuestion (memberStart t ts).2).2 with
  | nil => rfl
  | cons colon body =>
    rw [List.map_cons]
    dsimp only
    rw [Relocation.isPunct_token, expression_map, typeText?_map]
    split
    · cases typeText? (expression colon body).1 <;> rfl
    · rfl

theorem members_map (owner : String) (description : Option String) (ts : List Token) :
    members owner description (ts.map r.token) = (members owner description ts).map (mapMember r) := by
  fun_induction members owner description ts with
  | case1 => rw [List.map_nil, members, List.map_nil]
  | case2 description t ts text hk ih =>
    rw [List.map_cons, members]
    simp only [Relocation.kind_token, hk, ih]
  | case3 description t ts hk ih | case4 description t ts hk ih =>
    rw [List.map_cons, members]
    simp only [Relocation.kind_token, hk, ih]
  | case5 description t ts _ hk member ih | case6 description t ts _ _ hk member ih =>
    rw [List.map_cons, members]
    simp only [Relocation.kind_token, hk, memberAt_map, List.map_cons]
    rw [ih]
  | case7 description t ts hk ih =>
    rw [List.map_cons, members]
    simp only [Relocation.kind_token, hk, expression_map, List.map_cons]
    rw [ih]
    rfl
  | case8 description t ts hdoc hsemicolon hcomma hident hstr hbracket ih =>
    rw [List.map_cons, members]
    split
    · rename_i text hk
      exact (hdoc text hk).elim
    · rename_i hk
      exact (hsemicolon hk).elim
    · rename_i hk
      exact (hcomma hk).elim
    · rename_i name hk
      exact (hident name hk).elim
    · rename_i value quote hk
      exact (hstr value quote hk).elim
    · rename_i hk
      exact (hbracket hk).elim
    · rw [expression_map, ih]
      rfl

/-- An enum member that was read, relocated. -/
def mapStep (step : Option String × Option Diagnostic) : Option String × Option Diagnostic :=
  (step.1, step.2.map (Diagnostic.mapSpan r.span))

theorem enumMember_map (owner : String) (t : Token) (behind : List Token) :
    enumMember owner (r.token t) (behind.map r.token) = mapStep r (enumMember owner t behind) := by
  have hkinds : (behind.map r.token).map Token.kind = behind.map Token.kind := by
    rw [List.map_map]
    rfl
  unfold enumMember
  rw [hkinds, show memberName? (r.token t) = memberName? t from rfl]
  split
  · rfl
  · split <;> rfl

theorem enumMembers_map (owner : String) (ts : List Token) :
    enumMembers owner (ts.map r.token) = (enumMembers owner ts).map (mapStep r) := by
  fun_induction enumMembers owner ts with
  | case1 => rw [List.map_nil, enumMembers, List.map_nil]
  | case2 t ts he ih => rw [List.map_cons, enumMembers, if_pos (by exact he), ih]
  | case3 t ts he split ih =>
    rw [List.map_cons, enumMembers, if_neg (by exact he), Relocation.kind_token, splitEnumMember_map]
    dsimp only
    rw [ih, enumMember_map]
    rfl

/-! ## Declarations -/

/-- What a reader has found, relocated. -/
def mapReading (reading : Reading) : Reading :=
  { reading with found := reading.found.map (Finding.mapSpans r.span), rest := reading.rest.map r.token }

theorem afterBlock_map (ts : List Token) : afterBlock (ts.map r.token) = (afterBlock ts).map r.token := by
  unfold afterBlock
  rw [splitClosed?_map]
  cases splitClosed? .openBrace .closeBrace 0 ts <;> rfl

theorem unnamedBlock_map (kind : DeclarationKind) (keyword : Token) (ts : List Token) :
    unnamedBlock kind (r.token keyword) (ts.map r.token) = mapReading r (unnamedBlock kind keyword ts) := by
  cases ts with
  | nil => rfl
  | cons t body =>
    rw [List.map_cons]
    unfold unnamedBlock
    dsimp only
    rw [Relocation.isPunct_token, afterBlock_map]
    split <;> rfl

theorem dropWhile_map (p : Token → Bool) (hp : ∀ t, p (r.token t) = p t) (ts : List Token) :
    (ts.map r.token).dropWhile p = (ts.dropWhile p).map r.token := by
  induction ts with
  | nil => rfl
  | cons t ts ih =>
    rw [List.map_cons, List.dropWhile_cons, List.dropWhile_cons, hp, ih]
    split <;> rfl

theorem afterGeneric_map (ts : List Token) : afterGeneric (ts.map r.token) = (afterGeneric ts).map r.token := by
  unfold afterGeneric
  rw [splitClosed?_map]
  cases splitClosed? .openAngle .closeAngle 0 ts with
  | none => rfl
  | some cut =>
    dsimp only [Option.map_some, mapCut]
    rw [dropWhile_map r _ fun _ => rfl]
    cases cut.2.dropWhile fun t => !t.isPunct .openBrace with
    | nil => rfl
    | cons t body => exact afterBlock_map r body

/-- A name that was read, relocated. -/
def mapName : Except (List Token) (String × List Token) → Except (List Token) (String × List Token)
  | .ok (name, rest) => .ok (name, rest.map r.token)
  | .error rest => .error (rest.map r.token)

theorem dottedTail_map (name : String) (ts : List Token) :
    dottedTail name (ts.map r.token) = mapName r (dottedTail name ts) := by
  fun_induction dottedTail name ts with
  | case1 => rfl
  | case2 name t h | case3 name t h =>
    simp only [List.map_cons, List.map_nil, dottedTail, Relocation.isPunct_token, h]
    rfl
  | case4 name t u us h part hu ih =>
    simp only [List.map_cons, dottedTail, Relocation.isPunct_token, Relocation.kind_token, h, hu, if_true, ih]
  | case5 name t u us h hu =>
    simp only [List.map_cons, dottedTail, Relocation.isPunct_token, Relocation.kind_token, h, if_true]
    rfl
  | case6 name t u us h =>
    simp only [List.map_cons, dottedTail, Relocation.isPunct_token, h]
    rfl

theorem dottedName_map (ts : List Token) : dottedName (ts.map r.token) = mapName r (dottedName ts) := by
  cases ts with
  | nil => rfl
  | cons t ts =>
    rw [List.map_cons, dottedName, dottedName, Relocation.kind_token]
    split
    · exact dottedTail_map r _ ts
    · rfl

/-- The end of a clause, relocated. -/
def mapEnd : ClauseEnd → ClauseEnd
  | .read rest => .read (rest.map r.token)
  | .malformed rest => .malformed (rest.map r.token)
  | .openArguments => .openArguments

/-- A clause, relocated. -/
def mapClause (clause : Clause) : Clause :=
  { clause with found := clause.found.map (Finding.mapSpans r.span), finish := mapEnd r clause.finish }

theorem span_headD_map (rest : List Token) (stop : Span) :
    ((rest.map r.token).headD (.eof (r.span stop))).span = r.span (rest.headD (.eof stop)).span := by
  cases rest <;> rfl

theorem extendsClause_map (stop : Span) (owner : String) (ts : List Token) :
    extendsClause (r.span stop) owner (ts.map r.token) = mapClause r (extendsClause stop owner ts) := by
  generalize hn : ts.length = n
  induction n using Nat.strongRecOn generalizing ts with
  | ind n ih =>
    rw [extendsClause_eq, extendsClause_eq stop, dottedName_map]
    cases hd : dottedName ts with
    | error rest =>
      dsimp only [mapName]
      rw [span_headD_map]
      rfl
    | ok name =>
      obtain ⟨base, rest⟩ := name
      have hlength := (rest_dottedName hd).length_le
      cases rest with
      | nil => rfl
      | cons t rest =>
        rw [List.length_cons] at hlength
        simp only [mapName, List.map_cons, splitClosed?_map]
        rw [Relocation.isPunct_token, Relocation.isPunct_token]
        split
        · cases hs : splitClosed? .openAngle .closeAngle 0 rest with
          | none => rfl
          | some cut =>
            obtain ⟨inside, after⟩ := cut
            have hafter := (after_splitClosed? hs).length_le
            cases after with
            | nil => rfl
            | cons u after =>
              rw [List.length_cons] at hafter
              simp only [Option.map_some, mapCut, List.map_cons]
              rw [Relocation.isPunct_token, ih after.length (by omega) after rfl]
              split <;> rfl
        · rw [ih rest.length (by omega) rest rfl]
          split <;> rfl

/-- A body that was read, relocated. -/
def mapBody : Except Reading (List Token × List Token) → Except Reading (List Token × List Token)
  | .ok cut => .ok (mapCut r cut)
  | .error reading => .error (mapReading r reading)

theorem body_map (kind : DeclarationKind) (keyword : Token) (name : String) (ts : List Token) :
    body kind (r.token keyword) name (ts.map r.token) = mapBody r (body kind keyword name ts) := by
  cases ts with
  | nil => rfl
  | cons t inner =>
    rw [List.map_cons]
    unfold body
    dsimp only
    rw [Relocation.isPunct_token, splitClosed?_map]
    split
    · cases splitClosed? .openBrace .closeBrace 0 inner <;> rfl
    · rfl

theorem interfaceBody_map (keyword : Token) (name : String) (bases : List String) (ts : List Token) :
    interfaceBody (r.token keyword) name bases (ts.map r.token) =
      mapReading r (interfaceBody keyword name bases ts) := by
  unfold interfaceBody
  rw [body_map]
  cases body .interface keyword name ts with
  | error reading => rfl
  | ok cut =>
    simp only [mapBody, mapCut, mapReading, members_map, List.map_append, List.filterMap_map, List.map_filterMap,
      Reading.mk.injEq, and_true]
    congr 1
    · refine congrArg (List.filterMap · _) (funext ?_)
      rintro (d | f) <;> rfl
    · simp only [List.map_cons, List.map_nil, Finding.mapSpans, Interface.mapSpans, List.map_filterMap]
      congr 3
      refine congrArg (List.filterMap · _) (funext ?_)
      rintro (d | f) <;> rfl

theorem enumNamed_map (keyword : Token) (name : String) (ts : List Token) :
    enumNamed (r.token keyword) name (ts.map r.token) = mapReading r (enumNamed keyword name ts) := by
  unfold enumNamed
  rw [body_map]
  cases body .enum keyword name ts with
  | error reading => rfl
  | ok cut =>
    simp only [mapBody, mapCut, mapReading, enumMembers_map, List.map_append, List.filterMap_map, List.map_filterMap,
      Reading.mk.injEq, and_true]
    congr 1
    refine congrArg (List.filterMap · _) (funext ?_)
    rintro ⟨value, d | d⟩ <;> rfl

theorem interfaceNamed_map (stop : Span) (keyword nameToken : Token) (name : String) (ts : List Token) :
    interfaceNamed (r.span stop) (r.token keyword) (r.token nameToken) name (ts.map r.token) =
      mapReading r (interfaceNamed stop keyword nameToken name ts) := by
  cases ts with
  | nil => exact interfaceBody_map r keyword name [] []
  | cons t behind =>
    rw [List.map_cons]
    unfold interfaceNamed
    dsimp only
    rw [Relocation.isPunct_token, Relocation.isIdent_token, afterGeneric_map, extendsClause_map]
    split
    · rfl
    · split
      · generalize extendsClause stop name behind = clause
        obtain ⟨bases, found, finish⟩ := clause
        cases finish with
        | read rest =>
          simp only [mapClause, mapEnd, interfaceBody_map, mapReading, List.map_append]
        | malformed rest => rfl
        | openArguments => rfl
      · exact interfaceBody_map r keyword name [] (t :: behind)

theorem endsWithDot_map (ts : List Token) : endsWithDot (ts.map r.token) = endsWithDot ts := by
  unfold endsWithDot
  rw [List.getLast?_map]
  cases ts.getLast? <;> rfl

theorem aliasNamed_map (keyword : Token) (name : String) (ts : List Token) :
    aliasNamed (r.token keyword) name (ts.map r.token) = mapReading r (aliasNamed keyword name ts) := by
  cases ts with
  | nil => rfl
  | cons t behind =>
    rw [List.map_cons]
    unfold aliasNamed
    dsimp only
    rw [Relocation.isPunct_token, Relocation.isPunct_token, expression_map]
    dsimp only [mapCut]
    rw [typeText?_map, endsWithDot_map]
    split
    · cases typeText? (expression t behind).1 <;> rfl
    · split <;> rfl

theorem declaration_map (stop : Span) (kind : DeclarationKind) (keyword : Token) (ts : List Token) :
    declaration (r.span stop) kind (r.token keyword) (ts.map r.token) =
      mapReading r (declaration stop kind keyword ts) := by
  cases ts with
  | nil => rfl
  | cons t behind =>
    rw [List.map_cons]
    unfold declaration
    dsimp only
    rw [Relocation.kind_token]
    cases kind with
    | interface =>
      cases t.kind.ident? with
      | some name => exact interfaceNamed_map r stop keyword t name behind
      | none => exact unnamedBlock_map r .interface keyword (t :: behind)
    | typeAlias =>
      cases t.kind.ident? with
      | some name => exact aliasNamed_map r keyword name behind
      | none => rfl
    | enum =>
      cases t.kind.ident? with
      | some name => exact enumNamed_map r keyword name behind
      | none => exact unnamedBlock_map r .enum keyword (t :: behind)

/-- **What is found in relocated tokens** is what is found in the tokens, relocated. -/
theorem scan_map (stop : Span) (afterDot : Bool) (ts : List Token) :
    scan (r.span stop) afterDot (ts.map r.token) = (scan stop afterDot ts).map (Finding.mapSpans r.span) := by
  fun_induction scan stop afterDot ts with
  | case1 => rw [List.map_nil, scan, List.map_nil]
  | case2 afterDot t ts hk ih =>
    have hk' : keywordKind? afterDot (r.token t) = none := hk
    rw [List.map_cons, scan, hk']
    exact ih
  | case3 afterDot t ts kind hk reading ih =>
    have hk' : keywordKind? afterDot (r.token t) = some kind := hk
    rw [List.map_cons, scan, hk']
    dsimp only
    rw [declaration_map, List.map_append, ← ih]
    rfl

end Extract

end TypeSchema
