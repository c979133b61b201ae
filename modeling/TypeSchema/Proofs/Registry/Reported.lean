import TypeSchema.Proofs.Registry.Composition
import TypeSchema.Proofs.Registry.Visits

/-!
# Nothing is dropped without a warning

What is found behind a keyword and a name is a declaration of that name or consists of warnings that name it; `Outcome`
has one case for each.  From it follows what the registry gets at every keyword that a walk visits, and what it gets
from the members of a body (`extract_reports`).
-/

namespace TypeSchema

open Named (nameOf)

/-! ## Warnings about a declaration -/

/-- The declaration that is refused with the warning, or whose base is. -/
def Warning.declaration? : Warning → Option String
  | noBody _ name | openBody _ name | genericInterface name | genericAlias name | malformedExtends name
  | genericBase _ name | noEquals name | emptyAlias name => some name
  | _ => none

/-- The text of the warning has the name in backquotes. -/
def Diagnostic.Quotes (d : Diagnostic) (name : String) : Prop :=
  ("`" ++ name ++ "`").toList <:+: d.message.toList

theorem isInfix_of_quoted {left right : String} (hl : "`".toList <:+ left.toList) (hr : "`".toList <+: right.toList)
    (name : String) : ("`" ++ name ++ "`").toList <:+: (left ++ name ++ right).toList := by
  obtain ⟨a, ha⟩ := hl
  obtain ⟨b, hb⟩ := hr
  refine ⟨a, b, ?_⟩
  simp only [String.toList_append, ← ha, ← hb, List.append_assoc]

/-- **A warning about a declaration names it.** -/
theorem Diagnostic.quotes_of_declaration? {d : Diagnostic} {name : String} (h : d.warning.declaration? = some name) :
    d.Quotes name := by
  obtain ⟨span, w⟩ := d
  cases w <;> cases h
  case noBody kind => exact isInfix_of_quoted (by cases kind <;> decide) (by decide) name
  case openBody kind => exact isInfix_of_quoted (by cases kind <;> decide) (by decide) name
  case genericBase base =>
    have hleft : "`".toList <:+ ("generic base `" ++ base ++ "` of interface `").toList := by
      rw [String.toList_append]
      exact List.IsSuffix.trans (by decide) (List.suffix_append _ _)
    exact isInfix_of_quoted hleft (by decide) name
  all_goals exact isInfix_of_quoted (by decide) (by decide) name

theorem Warning.quotes_singleton {w : Warning} {name : String} (h : w.declaration? = some name) (span : Span) :
    ∀ d ∈ [Diagnostic.mk span w], d.Quotes name :=
  List.forall_mem_singleton.2 (Diagnostic.quotes_of_declaration? h)

/-! ## What a registry gets -/

/-- The kind, the name and the place of what is declared. -/
def Finding.heading? : Finding → Option (DeclarationKind × String × Span)
  | interface i => some (.interface, i.name, i.span)
  | typeAlias a => some (.typeAlias, a.name, a.span)
  | enum e => some (.enum, e.name, e.span)
  | warning _ => none

namespace Registry

/-- The names that are declared as a kind. -/
def namesOf (r : Registry) : DeclarationKind → List String
  | .interface => r.interfaces.names
  | .typeAlias => r.aliases.names
  | .enum => r.enums.names

/-- The registry finds the declaration under its name, or has the warning. -/
def Keeps (r : Registry) : Finding → Prop
  | .interface i => r.interfaces.get? i.name = some i
  | .typeAlias a => r.aliases.get? a.name = some a
  | .enum e => r.enums.get? e.name = some e
  | .warning d => d ∈ r.diagnostics

variable {r : Registry} {x : Finding} {found : List Finding}

theorem addAll_append (r : Registry) (found found' : List Finding) :
    r.addAll (found ++ found') = (r.addAll found).addAll found' := List.foldl_append

theorem keeps_add (r : Registry) (x : Finding) : (r.add x).Keeps x := by
  cases x with
  | interface i =>
    rw [Keeps, add, addInterface, interfaces_warnIf]
    exact Table.get?_insert _ i
  | typeAlias a =>
    rw [Keeps, add, addAlias, aliases_warnIf]
    exact Table.get?_insert _ a
  | enum e =>
    rw [Keeps, add, addEnum, enums_warnIf]
    exact Table.get?_insert _ e
  | warning d => exact List.mem_append_right r.diagnostics (List.mem_singleton.2 rfl)

theorem diagnostics_warnIf {ds : List Diagnostic} (h : ds <+: r.diagnostics) (replaced : Bool) (span : Span)
    (w : Warning) : ds <+: (r.warnIf replaced span w).diagnostics := by
  unfold warnIf
  split
  · exact h.trans (List.prefix_append _ _)
  · exact h

theorem diagnostics_checkCollision (r : Registry) (name : String) (kind : DeclarationKind) (span : Span) :
    r.diagnostics <+: (r.checkCollision name kind span).diagnostics := by
  unfold checkCollision
  split
  · split
    · exact List.prefix_refl _
    · exact List.prefix_append _ _
  · exact List.prefix_refl _

/-- Warnings are added behind those that are there. -/
theorem diagnostics_prefix_add (r : Registry) (x : Finding) : r.diagnostics <+: (r.add x).diagnostics := by
  have hcollision := diagnostics_checkCollision r
  cases x with
  | interface i =>
    apply diagnostics_warnIf
    exact hcollision i.name .interface i.span
  | typeAlias a =>
    apply diagnostics_warnIf
    exact hcollision a.name .typeAlias a.span
  | enum e =>
    apply diagnostics_warnIf
    exact hcollision e.name .enum e.span
  | warning d => exact List.prefix_append _ _

theorem diagnostics_prefix_addAll (r : Registry) (found : List Finding) :
    r.diagnostics <+: (r.addAll found).diagnostics := by
  induction found generalizing r with
  | nil => exact List.prefix_refl _
  | cons x found ih => exact (diagnostics_prefix_add r x).trans (ih (r.add x))

/-- A warning that is found is one of those that are added. -/
theorem mem_drop_diagnostics {d : Diagnostic} (h : .warning d ∈ found) :
    d ∈ (r.addAll found).diagnostics.drop r.diagnostics.length := by
  induction found generalizing r with
  | nil => cases h
  | cons x found ih =>
    show d ∈ ((r.add x).addAll found).diagnostics.drop r.diagnostics.length
    rcases List.mem_cons.1 h with rfl | h
    · obtain ⟨more, hmore⟩ := diagnostics_prefix_addAll (r.add (.warning d)) found
      rw [← hmore]
      simp [add, warn]
    · have hlength := (diagnostics_prefix_add r x).length_le
      exact (List.drop_sublist_drop_left _ hlength).subset (ih h)

/-- Adding `found` puts a declaration into the table of its kind under its name, or adds a warning that names it. -/
def Accounts (r : Registry) (found : List Finding) (kind : DeclarationKind) (name : String) (span : Span) : Prop :=
  (∃ x ∈ found, x.heading? = some (kind, name, span) ∧ (r.addAll found).Keeps x) ∨
    ∃ d ∈ (r.addAll found).diagnostics.drop r.diagnostics.length, d.Quotes name

theorem accounts_concat (front : List Finding) {kind : DeclarationKind} {name : String} {span : Span}
    (hx : x.heading? = some (kind, name, span)) : r.Accounts (front ++ [x]) kind name span := by
  refine .inl ⟨x, List.mem_append_right front (List.mem_singleton.2 rfl), hx, ?_⟩
  rw [addAll_append]
  exact keeps_add _ x

theorem mem_namesOf_addAll {kind : DeclarationKind} {name : String} {span : Span} (h : x ∈ found)
    (hx : x.heading? = some (kind, name, span)) : name ∈ (r.addAll found).namesOf kind := by
  have hpicked {α : Type} [Named α] (pick : Finding → Option α) {a : α} (ha : pick x = some a) (t : Table α) :
      nameOf a ∈ (t.insertAll (found.filterMap pick)).names := by
    rw [← Table.contains_iff, contains_insertAll]
    exact .inr ⟨a, List.mem_filterMap.2 ⟨x, h, ha⟩, rfl⟩
  cases x with
  | interface i =>
    cases hx
    rw [namesOf, interfaces_addAll]
    exact hpicked Finding.interface? rfl r.interfaces
  | typeAlias a =>
    cases hx
    rw [namesOf, aliases_addAll]
    exact hpicked Finding.typeAlias? rfl r.aliases
  | enum e =>
    cases hx
    rw [namesOf, enums_addAll]
    exact hpicked Finding.enum? rfl r.enums
  | warning d => cases hx

end Registry

namespace Extract

/-! ## What is found behind a name -/

/-- The warnings about members of an interface that are skipped. -/
def refusals (read : List (Except Diagnostic Field)) : List Finding :=
  read.filterMap fun
    | .error d => some (.warning d)
    | .ok _ => none

/-- The warnings about members of an enum. -/
def complaints (read : List (Option String × Option Diagnostic)) : List Finding :=
  read.filterMap fun step => step.2.map .warning

/-- What is found at a keyword with a name and the tokens `behind` after it: only warnings that name it, or the
declaration with its members, each of which is taken in or warned about. -/
inductive Outcome (keyword : Token) (name : String) (behind : List Token) : DeclarationKind → List Finding → Prop
  | refused {kind : DeclarationKind} {ds : List Diagnostic} : ds ≠ [] → (∀ d ∈ ds, d.Quotes name) →
      Outcome keyword name behind kind (ds.map Finding.warning)
  | typeAlias {a : Alias} : a.name = name → a.span = keyword.span →
      Outcome keyword name behind .typeAlias [.typeAlias a]
  | interface {i : Interface} {ds : List Diagnostic} {rest inside after : List Token} : i.name = name →
      i.span = keyword.span → rest <:+ behind → body .interface keyword name rest = .ok (inside, after) →
      i.fields = (members name none inside).filterMap Except.toOption → Outcome keyword name behind .interface
        (ds.map Finding.warning ++ (refusals (members name none inside) ++ [Finding.interface i]))
  | enum {e : Enumeration} {inside after : List Token} : e.name = name → e.span = keyword.span →
      body .enum keyword name behind = .ok (inside, after) → e.values = (enumMembers name inside).filterMap Prod.fst →
      Outcome keyword name behind .enum (complaints (enumMembers name inside) ++ [Finding.enum e])

section

variable {keyword nameToken : Token} {name : String} {behind : List Token} {kind : DeclarationKind}

theorem outcome_warn {w : Warning} (hw : w.declaration? = some name) :
    Outcome keyword name behind kind [warn keyword.span w] :=
  .refused (List.cons_ne_nil _ _) (Warning.quotes_singleton hw keyword.span)

theorem exists_of_body_error {ts : List Token} {reading : Reading} (h : body kind keyword name ts = .error reading) :
    ∃ w, reading.found = [warn keyword.span w] ∧ w.declaration? = some name := by
  unfold body at h
  split at h
  · cases h
    exact ⟨_, rfl, rfl⟩
  · split at h
    · split at h
      · cases h
      · cases h
        exact ⟨_, rfl, rfl⟩
    · cases h
      exact ⟨_, rfl, rfl⟩

/-- The warnings of an `extends` clause name the interface, and there are some if the clause is not read. -/
theorem exists_of_extendsClause (stop : Span) (owner : String) (ts : List Token) :
    ∃ ds : List Diagnostic, (extendsClause stop owner ts).found = ds.map .warning ∧ (∀ d ∈ ds, d.Quotes owner) ∧
      (ds = [] → ∃ rest, (extendsClause stop owner ts).finish = .read rest) := by
  fun_induction extendsClause stop owner ts with
  | case1 => exact ⟨[_], rfl, Warning.quotes_singleton rfl _, fun h => absurd h (List.cons_ne_nil _ _)⟩
  | case2 => exact ⟨[], rfl, List.forall_mem_nil _, fun _ => ⟨_, rfl⟩⟩
  | case3 => exact ⟨[_], rfl, Warning.quotes_singleton rfl _, fun h => absurd h (List.cons_ne_nil _ _)⟩
  | case4 => exact ⟨[_], rfl, Warning.quotes_singleton rfl _, fun h => absurd h (List.cons_ne_nil _ _)⟩
  | case5 ts base t rest _ _ ignored inside u after _ _ others ih =>
    obtain ⟨ds, hfound, hquotes, -⟩ := ih
    refine ⟨⟨t.span, .genericBase base owner⟩ :: ds, ?_, ?_, fun h => absurd h (List.cons_ne_nil _ _)⟩
    · rw [List.map_cons, ← hfound]
      rfl
    · exact List.forall_mem_cons.2 ⟨Diagnostic.quotes_of_declaration? rfl, hquotes⟩
  | case6 => exact ⟨[_], rfl, Warning.quotes_singleton rfl _, fun h => absurd h (List.cons_ne_nil _ _)⟩
  | case7 ts base t rest _ _ _ others ih => exact ih
  | case8 => exact ⟨[], rfl, List.forall_mem_nil _, fun _ => ⟨_, rfl⟩⟩

theorem outcome_interfaceBody (ds : List Diagnostic) (hds : ∀ d ∈ ds, d.Quotes name) {rest : List Token}
    (hrest : rest <:+ behind) (bases : List String) :
    Outcome keyword name behind .interface
      (ds.map Finding.warning ++ (interfaceBody keyword name bases rest).found) := by
  unfold interfaceBody
  split
  · rename_i reading hb
    obtain ⟨w, hfound, hw⟩ := exists_of_body_error hb
    have hquotes : ∀ d ∈ ds ++ [Diagnostic.mk keyword.span w], d.Quotes name :=
      List.forall_mem_append.2 ⟨hds, Warning.quotes_singleton hw keyword.span⟩
    have happ : ds.map Finding.warning ++ [warn keyword.span w] =
        (ds ++ [Diagnostic.mk keyword.span w]).map .warning := by
      rw [List.map_append]
      rfl
    rw [hfound, happ]
    exact .refused (List.append_ne_nil_of_right_ne_nil _ (List.cons_ne_nil _ _)) hquotes
  · rename_i inside after hb
    exact .interface rfl rfl hrest hb rfl

theorem outcome_interfaceNamed (stop : Span) :
    Outcome keyword name behind .interface (interfaceNamed stop keyword nameToken name behind).found := by
  have hplain : Outcome keyword name behind .interface (interfaceBody keyword name [] behind).found :=
    outcome_interfaceBody [] (List.forall_mem_nil _) (List.suffix_refl behind) []
  unfold interfaceNamed
  split
  · exact hplain
  · rename_i t us
    split
    · exact outcome_warn rfl
    · split
      · obtain ⟨ds, hfound, hquotes, hread⟩ := exists_of_extendsClause stop name us
        have hclause := rest_extendsClause stop name us
        dsimp only
        split
        · rename_i rest hr
          rw [hr] at hclause
          rw [hfound]
          exact outcome_interfaceBody ds hquotes (hclause.trans (List.suffix_cons t us)) _
        · rename_i rest hr
          rw [hfound]
          refine .refused (fun hnil => ?_) hquotes
          obtain ⟨rest', hr'⟩ := hread hnil
          cases hr.symm.trans hr'
        · rename_i hr
          rw [hfound]
          refine .refused (fun hnil => ?_) hquotes
          obtain ⟨rest', hr'⟩ := hread hnil
          cases hr.symm.trans hr'
      · exact hplain

theorem typeText?_ne_empty {ts : List Token} {type : String} (h : typeText? ts = some type) : type ≠ "" := by
  unfold typeText? at h
  dsimp only at h
  split at h
  · cases h
  · rename_i hempty
    cases h
    intro hnil
    rw [hnil] at hempty
    exact hempty rfl

theorem outcome_aliasNamed : Outcome keyword name behind .typeAlias (aliasNamed keyword name behind).found := by
  unfold aliasNamed
  dsimp only
  split
  · exact outcome_warn rfl
  · split
    · split
      · exact .typeAlias rfl rfl
      · exact outcome_warn rfl
    · split
      · exact outcome_warn rfl
      · exact outcome_warn rfl

theorem outcome_enumNamed : Outcome keyword name behind .enum (enumNamed keyword name behind).found := by
  unfold enumNamed
  split
  · rename_i reading hb
    obtain ⟨w, hfound, hw⟩ := exists_of_body_error hb
    rw [hfound]
    exact outcome_warn hw
  · rename_i inside after hb
    exact .enum rfl rfl hb rfl

/-- **Behind a keyword and a name a declaration of that name is found, or warnings that name it.** -/
theorem outcome_declaration (stop : Span) (kind : DeclarationKind) (keyword : Token) (hn : nameToken.kind = .ident name)
    (behind : List Token) :
    Outcome keyword name behind kind (declaration stop kind keyword (nameToken :: behind)).found := by
  rw [declaration_named stop kind keyword hn]
  cases kind with
  | interface => exact outcome_interfaceNamed stop
  | typeAlias => exact outcome_aliasNamed
  | enum => exact outcome_enumNamed

/-- What is found behind a name accounts for it in every registry. -/
theorem Outcome.accounts {found : List Finding} (h : Outcome keyword name behind kind found) (r : Registry) :
    r.Accounts found kind name keyword.span := by
  cases h with
  | @refused _ ds hne hquotes =>
    obtain ⟨d, hd⟩ := List.exists_mem_of_ne_nil ds hne
    exact .inr ⟨d, Registry.mem_drop_diagnostics (List.mem_map_of_mem hd), hquotes d hd⟩
  | typeAlias hname hspan => exact Registry.accounts_concat [] (by rw [Finding.heading?, hname, hspan])
  | interface hname hspan =>
    rw [← List.append_assoc]
    exact Registry.accounts_concat _ (by rw [Finding.heading?, hname, hspan])
  | enum hname hspan => exact Registry.accounts_concat _ (by rw [Finding.heading?, hname, hspan])

theorem warning_of_mem_refusals {x : Finding} {read : List (Except Diagnostic Field)} (h : x ∈ refusals read) :
    ∃ d, x = .warning d := by
  obtain ⟨member, -, hm⟩ := List.mem_filterMap.1 h
  cases member with
  | error d =>
    cases hm
    exact ⟨d, rfl⟩
  | ok => cases hm

theorem warning_of_mem_complaints {x : Finding} {read : List (Option String × Option Diagnostic)}
    (h : x ∈ complaints read) : ∃ d, x = .warning d := by
  obtain ⟨step, -, hs⟩ := List.mem_filterMap.1 h
  obtain ⟨d, -, rfl⟩ := Option.map_eq_some_iff.1 hs
  exact ⟨d, rfl⟩

/-- An interface that is found has the fields of its body, and right before it stand the warnings about the others. -/
theorem Outcome.of_interface {found : List Finding} (h : Outcome keyword name behind kind found) {i : Interface}
    (hi : .interface i ∈ found) :
    ∃ rest inside after front, rest <:+ behind ∧ body .interface keyword i.name rest = .ok (inside, after) ∧
      found = front ++ (refusals (members i.name none inside) ++ [Finding.interface i]) ∧
      i.fields = (members i.name none inside).filterMap Except.toOption := by
  cases h with
  | refused =>
    obtain ⟨d, -, hd⟩ := List.mem_map.1 hi
    cases hd
  | typeAlias => cases List.mem_singleton.1 hi
  | interface hname _ hrest hb hfields =>
    rcases List.mem_append.1 hi with hi | hi
    · obtain ⟨d, -, hd⟩ := List.mem_map.1 hi
      cases hd
    · rcases List.mem_append.1 hi with hi | hi
      · obtain ⟨d, hd⟩ := warning_of_mem_refusals hi
        cases hd
      · cases List.mem_singleton.1 hi
        subst hname
        exact ⟨_, _, _, _, hrest, hb, rfl, hfields⟩
  | enum =>
    rcases List.mem_append.1 hi with hi | hi
    · obtain ⟨d, hd⟩ := warning_of_mem_complaints hi
      cases hd
    · cases List.mem_singleton.1 hi

/-- An enum that is found has the values of its body, and right before it stand the warnings about its members. -/
theorem Outcome.of_enum {found : List Finding} (h : Outcome keyword name behind kind found) {e : Enumeration}
    (he : .enum e ∈ found) :
    ∃ inside after, body .enum keyword e.name behind = .ok (inside, after) ∧
      found = complaints (enumMembers e.name inside) ++ [Finding.enum e] ∧
      e.values = (enumMembers e.name inside).filterMap Prod.fst := by
  cases h with
  | refused =>
    obtain ⟨d, -, hd⟩ := List.mem_map.1 he
    cases hd
  | typeAlias => cases List.mem_singleton.1 he
  | interface =>
    rcases List.mem_append.1 he with he | he
    · obtain ⟨d, -, hd⟩ := List.mem_map.1 he
      cases hd
    · rcases List.mem_append.1 he with he | he
      · obtain ⟨d, hd⟩ := warning_of_mem_refusals he
        cases hd
      · cases List.mem_singleton.1 he
  | enum hname _ hb hvalues =>
    rcases List.mem_append.1 he with he | he
    · obtain ⟨d, hd⟩ := warning_of_mem_complaints he
      cases hd
    · cases List.mem_singleton.1 he
      subst hname
      exact ⟨_, _, hb, rfl, hvalues⟩

/-- A declaration is found only behind a name. -/
theorem exists_name_of_mem {stop : Span} {us : List Token} {x : Finding}
    (h : x ∈ (declaration stop kind keyword us).found) (hx : ∀ d, x ≠ .warning d) :
    ∃ nameToken behind name, us = nameToken :: behind ∧ nameToken.kind = .ident name := by
  unfold declaration at h
  split at h
  · cases h
  · rename_i t behind
    split at h
    · rename_i hn
      exact ⟨t, behind, _, rfl, eq_ident_of_ident? hn⟩
    · rename_i hn
      exact ⟨t, behind, _, rfl, eq_ident_of_ident? hn⟩
    · rename_i hn
      exact ⟨t, behind, _, rfl, eq_ident_of_ident? hn⟩
    · cases h
    · unfold unnamedBlock at h
      dsimp only at h
      split at h
      · exact absurd (List.mem_singleton.1 h) (hx _)
      · cases h

end

/-! ## Turns over a body -/

/-- Whether the members of an interface are apart here: at a documentation comment or a separator. -/
def separatesMembers (t : Token) : Bool :=
  match t.kind with
  | .docComment _ | .punct .semicolon | .punct .comma => true
  | _ => false

section

variable {owner : String} {t : Token}

theorem members_of_separates (description : Option String) (h : separatesMembers t = true) (ts : List Token) :
    ∃ description', members owner description (t :: ts) = members owner description' ts := by
  unfold separatesMembers at h
  split at h
  · rename_i text hk
    exact ⟨some text, by rw [members, hk]⟩
  · rename_i hk
    exact ⟨description, by rw [members, hk]⟩
  · rename_i hk
    exact ⟨description, by rw [members, hk]⟩
  · cases h

/-- **Every other turn reads one field or gives one warning.** -/
theorem members_of_not_separates (description : Option String) (h : separatesMembers t = false) (ts : List Token) :
    ∃ member rest, rest <:+ ts ∧ members owner description (t :: ts) = member :: members owner none rest := by
  unfold separatesMembers at h
  rw [members]
  split
  · rename_i hk
    rw [hk] at h
    cases h
  · rename_i hk
    rw [hk] at h
    cases h
  · rename_i hk
    rw [hk] at h
    cases h
  · exact ⟨_, _, rest_memberAt owner description t ts, rfl⟩
  · exact ⟨_, _, rest_memberAt owner description t ts, rfl⟩
  · exact ⟨_, _, rest_expression t ts, rfl⟩
  · exact ⟨_, _, rest_expression t ts, rfl⟩

theorem enumMember_isSome (owner : String) (t : Token) (behind : List Token) :
    (enumMember owner t behind).1.isSome = true ∨ (enumMember owner t behind).2.isSome = true := by
  unfold enumMember
  split
  · exact .inr rfl
  · split
    · exact .inl rfl
    · exact .inl rfl
    · exact .inl rfl

/-- **Every turn that starts with an enum member reads a value or gives a warning.** -/
theorem enumMembers_of_not_ends (h : endsEnumMember t = false) (ts : List Token) :
    ∃ step rest, rest <:+ ts ∧ enumMembers owner (t :: ts) = step :: enumMembers owner rest ∧
      (step.1.isSome = true ∨ step.2.isSome = true) := by
  have hturn : enumMembers owner (t :: ts) = enumMember owner t (splitEnumMember (t.kind.nesting 0) ts).1 ::
      enumMembers owner (splitEnumMember (t.kind.nesting 0) ts).2 := by
    rw [enumMembers, h]
    rfl
  exact ⟨_, _, rest_splitEnumMember (t.kind.nesting 0) ts, hturn, enumMember_isSome owner t _⟩

end

/-! ## The whole source -/

/-- The tokens stand between braces that match. -/
def IsBody (ts inside : List Token) : Prop :=
  ∃ before opening closing after, ts = before ++ opening :: (inside ++ closing :: after) ∧
    opening.isPunct .openBrace = true ∧
    splitClosed? .openBrace .closeBrace 0 (inside ++ closing :: after) = some (inside, after)

theorem isBody_of_body {kind : DeclarationKind} {keyword : Token} {name : String} {ts rest inside after : List Token}
    (h : body kind keyword name rest = .ok (inside, after)) (hrest : rest <:+ ts) : IsBody ts inside := by
  obtain ⟨opening, closing, rfl, hopening, hsplit⟩ := exists_of_body_ok h
  obtain ⟨before, rfl⟩ := hrest
  exact ⟨before, opening, closing, after, rfl, hopening, hsplit⟩

/-- A walk over the tokens of the source gets to the place between `before` and `rest`. -/
def VisitsIn (source : String) (found : List Finding) (before rest : List Token) : Prop :=
  Visits (tokenizeSignificant source).stop (tokenizeSignificant source).body found before rest

section

variable {source : String} {found : List Finding} {before us : List Token} {keyword : Token} {kind : DeclarationKind}

theorem keywordKind?_of_isIdent (h : keyword.isIdent kind.keyword = true) : keywordKind? false keyword = some kind := by
  rw [Token.isIdent, beq_iff_eq] at h
  cases kind <;> simp [keywordKind?, Token.isIdent, h, DeclarationKind.keyword]

theorem findings_of_visits (h : VisitsIn source found before (keyword :: us))
    (hk : keywordKind? (endsWithDot before) keyword = some kind) :
    ∃ later, findings source =
      found ++ ((declaration (tokenizeSignificant source).stop kind keyword us).found ++ later) := by
  have hscan := scan_of_visits h
  rw [scan, hk] at hscan
  exact ⟨_, hscan⟩

theorem rest_of_visits (h : VisitsIn source found before (keyword :: us)) :
    us <:+ (tokenizeSignificant source).body := by
  have happ : before ++ keyword :: us = (tokenizeSignificant source).body := h.append
  rw [← happ]
  exact (List.suffix_cons keyword us).trans (List.suffix_append before _)

theorem exists_outcome {x : Finding} (hx : x ∈ findings source) (hd : ∀ d, x ≠ .warning d) :
    ∃ front found back kind keyword name behind, findings source = front ++ (found ++ back) ∧ x ∈ found ∧
      Outcome keyword name behind kind found ∧ behind <:+ (tokenizeSignificant source).body := by
  obtain ⟨front, before, keyword, us, kind, hvisits, hk, hmem⟩ := exists_visits .start hx
  obtain ⟨nameToken, behind, name, rfl, hn⟩ := exists_name_of_mem hmem hd
  obtain ⟨back, hfindings⟩ := findings_of_visits hvisits hk
  have hbehind := (List.suffix_cons nameToken behind).trans (rest_of_visits hvisits)
  exact ⟨front, _, back, kind, keyword, name, behind, hfindings, hmem, outcome_declaration _ kind keyword hn behind,
    hbehind⟩

end

theorem forall_mem_insertAll {α : Type} [Named α] {t : Table α} {p : α → Prop} (h : ∀ b ∈ t.entries, p b)
    {as : List α} (ha : ∀ a ∈ as, p a) : ∀ b ∈ (t.insertAll as).entries, p b := by
  induction as generalizing t with
  | nil => exact h
  | cons a as ih =>
    rw [Table.insertAll_cons]
    have ht := Registry.forall_mem_insert h (ha a List.mem_cons_self)
    exact ih ht fun b hb => ha b (List.mem_cons_of_mem a hb)

/-- No declaration and no member of a source is dropped without a warning. -/
structure Reports (source : String) : Prop where
  /-- A keyword that is visited, with a name behind it and no dot before it, adds a declaration of that name with its
  own place, or a warning that names it.  So in the end the name is declared or there is such a warning. -/
  named : ∀ {found : List Finding} {before behind : List Token} {kind : DeclarationKind} {keyword nameToken : Token}
    {name : String}, VisitsIn source found before (keyword :: nameToken :: behind) → endsWithDot before = false →
    keyword.isIdent kind.keyword = true → nameToken.kind = .ident name →
    (({} : Registry).addAll found).Accounts
      (declaration (tokenizeSignificant source).stop kind keyword (nameToken :: behind)).found kind name keyword.span ∧
    (name ∈ (Registry.extract source).namesOf kind ∨ ∃ d ∈ (Registry.extract source).diagnostics, d.Quotes name)
  /-- An interface has those members of its body as fields that are not warned about right before it. -/
  interfaces : ∀ {i : Interface}, .interface i ∈ findings source → ∃ inside front back,
    IsBody (tokenizeSignificant source).body inside ∧
    findings source = front ++ (refusals (members i.name none inside) ++ Finding.interface i :: back) ∧
    i.fields = (members i.name none inside).filterMap Except.toOption
  /-- A turn over such a body reads one field or gives one warning, but at comments and separators. -/
  member : ∀ (owner : String) (description : Option String) (t : Token) (ts : List Token),
    if separatesMembers t then ∃ description', members owner description (t :: ts) = members owner description' ts
    else ∃ member rest, rest <:+ ts ∧ members owner description (t :: ts) = member :: members owner none rest
  /-- An enum has the values of its body, and the warnings about it stand right before it. -/
  enums : ∀ {e : Enumeration}, .enum e ∈ findings source → ∃ inside front back,
    IsBody (tokenizeSignificant source).body inside ∧
    findings source = front ++ (complaints (enumMembers e.name inside) ++ Finding.enum e :: back) ∧
    e.values = (enumMembers e.name inside).filterMap Prod.fst
  /-- A turn over such a body reads a value or gives a warning or both, but at comments and commas. -/
  enumMember : ∀ (owner : String) (t : Token) (ts : List Token),
    if endsEnumMember t then enumMembers owner (t :: ts) = enumMembers owner ts
    else ∃ step rest, rest <:+ ts ∧ enumMembers owner (t :: ts) = step :: enumMembers owner rest ∧
      (step.1.isSome = true ∨ step.2.isSome = true)
  /-- Every alias and every field has a type. -/
  types : (∀ a ∈ (Registry.extract source).aliases.entries, a.type ≠ "") ∧
    ∀ i ∈ (Registry.extract source).interfaces.entries, ∀ f ∈ i.fields, f.type ≠ ""

/-- **Nothing that is declared is dropped without a warning.** -/
theorem extract_reports (source : String) : Reports source where
  named := by
    intro found before behind kind keyword nameToken name hvisits hdot hword hn
    have houtcome := outcome_declaration (tokenizeSignificant source).stop kind keyword hn behind
    have hk : keywordKind? (endsWithDot before) keyword = some kind := by rw [hdot, keywordKind?_of_isIdent hword]
    obtain ⟨later, hfindings⟩ := findings_of_visits hvisits hk
    have hextract : Registry.extract source = (Registry.addAll (Registry.addAll {} found)
        (declaration (tokenizeSignificant source).stop kind keyword (nameToken :: behind)).found).addAll later := by
      rw [Registry.extract, hfindings, Registry.addAll_append, Registry.addAll_append]
    refine ⟨houtcome.accounts _, ?_⟩
    rcases houtcome.accounts (Registry.addAll {} found) with ⟨x, hx, hheading, -⟩ | ⟨d, hd, hquotes⟩
    · refine .inl (Registry.mem_namesOf_addAll ?_ hheading)
      rw [hfindings]
      exact List.mem_append_right found (List.mem_append_left later hx)
    · refine .inr ⟨d, ?_, hquotes⟩
      rw [hextract]
      exact (Registry.diagnostics_prefix_addAll _ later).subset (List.mem_of_mem_drop hd)
  interfaces := by
    intro i hi
    obtain ⟨front, found, back, kind, keyword, name, behind, hfindings, hmem, houtcome, hbehind⟩ :=
      exists_outcome hi fun d hd => by cases hd
    obtain ⟨rest, inside, after, warnings, hrest, hbody, rfl, hfields⟩ := houtcome.of_interface hmem
    refine ⟨inside, front ++ warnings, back, isBody_of_body hbody (hrest.trans hbehind), ?_, hfields⟩
    rw [hfindings]
    simp
  member := by
    intro owner description t ts
    split
    · rename_i h
      exact members_of_separates description h ts
    · rename_i h
      exact members_of_not_separates description (Bool.not_eq_true _ ▸ h) ts
  enums := by
    intro e he
    obtain ⟨front, found, back, kind, keyword, name, behind, hfindings, hmem, houtcome, hbehind⟩ :=
      exists_outcome he fun d hd => by cases hd
    obtain ⟨inside, after, hbody, rfl, hvalues⟩ := houtcome.of_enum hmem
    refine ⟨inside, front, back, isBody_of_body hbody hbehind, ?_, hvalues⟩
    rw [hfindings]
    simp
  enumMember := by
    intro owner t ts
    split
    · rename_i h
      rw [enumMembers, h]
      rfl
    · rename_i h
      exact enumMembers_of_not_ends (Bool.not_eq_true _ ▸ h) ts
  types := by
    constructor
    · rw [Registry.extract, Registry.aliases_addAll]
      refine forall_mem_insertAll (List.forall_mem_nil _) fun a ha => ?_
      obtain ⟨x, hx, hpick⟩ := List.mem_filterMap.1 ha
      cases x <;> cases hpick
      obtain ⟨inside, -, htype⟩ := exists_aliasRange (foundIn_of_mem_scan hx)
      exact typeText?_ne_empty htype
    · rw [Registry.extract, Registry.interfaces_addAll]
      refine forall_mem_insertAll (List.forall_mem_nil _) fun i hi f hf => ?_
      obtain ⟨x, hx, hpick⟩ := List.mem_filterMap.1 hi
      cases x <;> cases hpick
      obtain ⟨inside, -, htype⟩ := exists_fieldRange (foundIn_of_mem_scan hx) hf
      exact typeText?_ne_empty htype

/-- A source with an interface that is given up because the arguments of its base are not closed. -/
def openBase : String := "interface A extends B<C \x7b x: D \x7d"

theorem extract_reports_openBase : (Registry.extract openBase).namesOf .interface = [] ∧
    ∃ d ∈ (Registry.extract openBase).diagnostics, d.Quotes "A" := by
  have hbody : (tokenizeSignificant openBase).body = ⟨.ident "interface", ⟨0, 9, 1, 1⟩, "interface"⟩ ::
      ⟨.ident "A", ⟨10, 11, 1, 11⟩, "A"⟩ :: (tokenizeSignificant openBase).body.drop 2 := by cbv
  have hnames : (Registry.extract openBase).namesOf .interface = [] := by cbv
  have hvisits : VisitsIn openBase [] [] (tokenizeSignificant openBase).body := .start
  have hword : Token.isIdent ⟨.ident "interface", ⟨0, 9, 1, 1⟩, "interface"⟩ DeclarationKind.interface.keyword = true :=
    rfl
  rw [hbody] at hvisits
  refine ⟨hnames, ?_⟩
  rcases ((extract_reports openBase).named hvisits rfl hword rfl).2 with h | h
  · rw [hnames] at h
    cases h
  · exact h

end Extract

end TypeSchema
