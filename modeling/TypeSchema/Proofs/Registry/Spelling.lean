import TypeSchema.Proofs.Lexing.Run
import TypeSchema.Proofs.Registry.Names
import TypeSchema.Registry.Extract

/-!
# What stands in a registry

Readers of declarations go on at some of the tokens that they were given, so all names and values that are found come
from tokens of the source (`isSpelled_of_mem_scan`).  In the registry of a source, names are identifiers, and neither
the values of enums nor the names of fields have line feeds (`isSpelled_extract`).
-/

namespace TypeSchema

/-! ## Spelled declarations -/

/-- The name is an identifier, and no name of a field has a line feed. -/
structure Interface.IsSpelled (i : Interface) : Prop where
  name : Identifier.isIdentifier i.name.toList = true
  fields : ∀ f ∈ i.fields, '\n' ∉ f.name.toList

/-- The name is an identifier. -/
def Alias.IsSpelled (a : Alias) : Prop := Identifier.isIdentifier a.name.toList = true

/-- The name is an identifier, and no value has a line feed. -/
structure Enumeration.IsSpelled (e : Enumeration) : Prop where
  name : Identifier.isIdentifier e.name.toList = true
  values : ∀ value ∈ e.values, '\n' ∉ value.toList

/-- The declaration that was found is spelled so. -/
def Finding.IsSpelled : Finding → Prop
  | interface i => i.IsSpelled
  | typeAlias a => a.IsSpelled
  | enum e => e.IsSpelled
  | warning _ => True

namespace Extract

theorem newline_not_mem_memberName {t : Token} (h : t.IsSpelled) {name : String} (hn : memberName? t = some name) :
    '\n' ∉ name.toList := by
  unfold memberName? at hn
  split at hn
  · rename_i hk
    obtain rfl := Option.some.inj hn
    exact Identifier.newline_not_mem_of_isIdentifier (h.isIdentifier hk)
  · rename_i hk
    obtain rfl := Option.some.inj hn
    exact Lexeme.newline_not_mem_quotedText (h.quotedText hk).2
  · cases hn

theorem memberStart_mem (t : Token) (ts : List Token) : (memberStart t ts).1 ∈ t :: ts := by
  unfold memberStart
  split
  · simp
  · split
    · simp
    · simp

theorem newline_not_mem_memberAt {owner : String} {description : Option String} {t : Token} {ts : List Token}
    (h : ∀ u ∈ t :: ts, u.IsSpelled) {f : Field} (hf : (memberAt owner description t ts).1 = .ok f) :
    '\n' ∉ f.name.toList := by
  have hname : '\n' ∉ ((memberName? (memberStart t ts).1).getD "").toList := by
    cases hn : memberName? (memberStart t ts).1 with
    | none => decide
    | some name => exact newline_not_mem_memberName (h _ (memberStart_mem t ts)) hn
  unfold memberAt at hf
  dsimp only at hf
  split at hf
  · cases hf
  · split at hf
    · split at hf
      · cases hf
        exact hname
      · cases hf
    · cases hf

theorem newline_not_mem_members {owner : String} {description : Option String} {ts : List Token}
    (h : ∀ t ∈ ts, t.IsSpelled) {f : Field} (hf : .ok f ∈ members owner description ts) : '\n' ∉ f.name.toList := by
  have htail {t : Token} {ts rest : List Token} (h : ∀ u ∈ t :: ts, u.IsSpelled) (hr : rest <:+ ts) :
      ∀ u ∈ rest, u.IsSpelled := fun u hu => h u (List.mem_cons_of_mem _ (hr.subset hu))
  fun_induction members owner description ts with
  | case1 => cases hf
  | case2 description t ts text _ ih => exact ih (htail h (List.suffix_refl _)) hf
  | case3 description t ts _ ih | case4 description t ts _ ih => exact ih (htail h (List.suffix_refl _)) hf
  | case5 description t ts _ _ member ih | case6 description t ts _ _ _ member ih =>
    rcases List.mem_cons.1 hf with hf | hf
    · exact newline_not_mem_memberAt h hf.symm
    · exact ih (htail h (rest_memberAt owner description t ts)) hf
  | case7 description t ts _ ih | case8 description t ts found _ _ _ _ _ ih =>
    rcases List.mem_cons.1 hf with hf | hf
    · cases hf
    · exact ih (htail h (rest_expression t ts)) hf

theorem newline_not_mem_enumMember {owner : String} {t : Token} {behind : List Token} (ht : t.IsSpelled)
    (hb : ∀ u ∈ behind, u.IsSpelled) {value : String} (hv : (enumMember owner t behind).1 = some value) :
    '\n' ∉ value.toList := by
  unfold enumMember at hv
  split at hv
  · cases hv
  · rename_i member hm
    have hmember := newline_not_mem_memberName ht hm
    split at hv
    · obtain rfl := Option.some.inj hv
      exact hmember
    · rename_i v quote hk
      obtain rfl := Option.some.inj hv
      have hstr : .str v quote ∈ behind.map Token.kind := by
        rw [hk]
        simp
      obtain ⟨u, hu, hku⟩ := List.mem_map.1 hstr
      exact Lexeme.newline_not_mem_quotedText ((hb u hu).quotedText hku).2
    · obtain rfl := Option.some.inj hv
      exact hmember

theorem inside_splitEnumMember (depth : Nat) (ts : List Token) : (splitEnumMember depth ts).1 ⊆ ts := by
  fun_induction splitEnumMember depth ts with
  | case1 => simp
  | case2 => simp
  | case3 depth t ts _ inside after hs ih =>
    rw [hs] at ih
    exact List.cons_subset_cons t ih

theorem newline_not_mem_enumMembers {owner : String} {ts : List Token} (h : ∀ t ∈ ts, t.IsSpelled)
    {step : Option String × Option Diagnostic} (hs : step ∈ enumMembers owner ts) {value : String}
    (hv : step.1 = some value) : '\n' ∉ value.toList := by
  fun_induction enumMembers owner ts with
  | case1 => cases hs
  | case2 t ts _ ih => exact ih (fun u hu => h u (List.mem_cons_of_mem t hu)) hs
  | case3 t ts _ split ih =>
    rcases List.mem_cons.1 hs with rfl | hs
    · refine newline_not_mem_enumMember (h t List.mem_cons_self) (fun u hu => ?_) hv
      exact h u (List.mem_cons_of_mem t (inside_splitEnumMember _ _ hu))
    · exact ih (fun u hu => h u (List.mem_cons_of_mem t ((rest_splitEnumMember _ _).subset hu))) hs

theorem isSpelled_warn (span : Span) (w : Warning) : ∀ f ∈ [warn span w], f.IsSpelled := by
  intro f hf
  rw [List.mem_singleton.1 hf]
  trivial

theorem isSpelled_of_body_error {kind : DeclarationKind} {keyword : Token} {name : String} {ts : List Token}
    {reading : Reading} (h : body kind keyword name ts = .error reading) : ∀ f ∈ reading.found, f.IsSpelled := by
  unfold body at h
  split at h
  · cases h
    exact isSpelled_warn _ _
  · split at h
    · split at h
      · cases h
      · cases h
        exact isSpelled_warn _ _
    · cases h
      exact isSpelled_warn _ _

theorem isSpelled_interfaceBody {keyword : Token} {name : String} {bases : List String} {ts : List Token}
    (hn : Identifier.isIdentifier name.toList = true) (h : ∀ t ∈ ts, t.IsSpelled) :
    ∀ f ∈ (interfaceBody keyword name bases ts).found, f.IsSpelled := by
  unfold interfaceBody
  split
  · rename_i reading hb
    exact isSpelled_of_body_error hb
  · rename_i inside after hb
    intro f hf
    rcases List.mem_append.1 hf with hf | hf
    · obtain ⟨member, -, hm⟩ := List.mem_filterMap.1 hf
      cases member with
      | error d =>
        cases hm
        trivial
      | ok => cases hm
    · rw [List.mem_singleton.1 hf]
      refine ⟨hn, fun field hfield => ?_⟩
      obtain ⟨member, hmem, hm⟩ := List.mem_filterMap.1 hfield
      cases member with
      | error d => cases hm
      | ok field' =>
        obtain rfl := Option.some.inj hm
        exact newline_not_mem_members (fun t ht => h t ((rest_body hb).1 ht)) hmem

theorem isSpelled_extendsClause (stop : Span) (owner : String) (ts : List Token) :
    ∀ f ∈ (extendsClause stop owner ts).found, f.IsSpelled := by
  fun_induction extendsClause stop owner ts with
  | case1 => exact isSpelled_warn _ _
  | case2 => simp
  | case3 | case4 | case6 => exact isSpelled_warn _ _
  | case5 ts base t rest h _ ignored inside u after h' _ others ih =>
    intro f hf
    rcases List.mem_cons.1 hf with rfl | hf
    · trivial
    · exact ih f hf
  | case7 ts base t rest h _ _ others ih => exact ih
  | case8 => simp

theorem isSpelled_interfaceNamed {stop : Span} {keyword nameToken : Token} {name : String} {ts : List Token}
    (hn : Identifier.isIdentifier name.toList = true) (h : ∀ t ∈ ts, t.IsSpelled) :
    ∀ f ∈ (interfaceNamed stop keyword nameToken name ts).found, f.IsSpelled := by
  unfold interfaceNamed
  split
  · exact isSpelled_interfaceBody hn h
  · rename_i t behind
    split
    · exact isSpelled_warn _ _
    · split
      · have hclause := isSpelled_extendsClause stop name behind
        have hrest := rest_extendsClause stop name behind
        dsimp only
        split
        · rename_i rest hr
          rw [hr] at hrest
          intro f hf
          rcases List.mem_append.1 hf with hf | hf
          · exact hclause f hf
          · exact isSpelled_interfaceBody hn (fun u hu => h u (List.mem_cons_of_mem t (hrest.subset hu))) f hf
        · exact hclause
        · exact hclause
      · exact isSpelled_interfaceBody hn h

theorem isSpelled_aliasNamed {keyword : Token} {name : String} (hn : Identifier.isIdentifier name.toList = true)
    (ts : List Token) : ∀ f ∈ (aliasNamed keyword name ts).found, f.IsSpelled := by
  unfold aliasNamed
  dsimp only
  split
  · exact isSpelled_warn _ _
  · split
    · split
      · intro f hf
        rw [List.mem_singleton.1 hf]
        exact hn
      · exact isSpelled_warn _ _
    · split
      · exact isSpelled_warn _ _
      · exact isSpelled_warn _ _

theorem isSpelled_enumNamed {keyword : Token} {name : String} {ts : List Token}
    (hn : Identifier.isIdentifier name.toList = true) (h : ∀ t ∈ ts, t.IsSpelled) :
    ∀ f ∈ (enumNamed keyword name ts).found, f.IsSpelled := by
  unfold enumNamed
  split
  · rename_i reading hb
    exact isSpelled_of_body_error hb
  · rename_i inside after hb
    intro f hf
    rcases List.mem_append.1 hf with hf | hf
    · obtain ⟨step, -, hs⟩ := List.mem_filterMap.1 hf
      obtain ⟨d, -, rfl⟩ := Option.map_eq_some_iff.1 hs
      trivial
    · rw [List.mem_singleton.1 hf]
      refine ⟨hn, fun value hvalue => ?_⟩
      obtain ⟨step, hstep, hv⟩ := List.mem_filterMap.1 hvalue
      exact newline_not_mem_enumMembers (fun t ht => h t ((rest_body hb).1 ht)) hstep hv

theorem isSpelled_unnamedBlock (kind : DeclarationKind) (keyword : Token) (ts : List Token) :
    ∀ f ∈ (unnamedBlock kind keyword ts).found, f.IsSpelled := by
  unfold unnamedBlock
  split
  · split
    · exact isSpelled_warn _ _
    · simp
  · simp

theorem eq_ident_of_ident? {kind : TokenKind} {name : String} (h : kind.ident? = some name) : kind = .ident name := by
  cases kind with
  | ident n =>
    obtain rfl := Option.some.inj h
    rfl
  | _ => cases h

theorem isSpelled_declaration (stop : Span) (kind : DeclarationKind) (keyword : Token) {ts : List Token}
    (h : ∀ t ∈ ts, t.IsSpelled) : ∀ f ∈ (declaration stop kind keyword ts).found, f.IsSpelled := by
  unfold declaration
  split
  · simp
  · rename_i t behind
    have hbehind : ∀ u ∈ behind, u.IsSpelled := fun u hu => h u (List.mem_cons_of_mem t hu)
    have hname {name : String} (hk : t.kind.ident? = some name) : Identifier.isIdentifier name.toList = true :=
      (h t List.mem_cons_self).isIdentifier (eq_ident_of_ident? hk)
    split
    · rename_i hk
      exact isSpelled_interfaceNamed (hname hk) hbehind
    · rename_i hk
      exact isSpelled_aliasNamed (hname hk) behind
    · rename_i hk
      exact isSpelled_enumNamed (hname hk) hbehind
    · simp
    · exact isSpelled_unnamedBlock _ keyword _

/-- **What is found among tokens of a text is spelled as they are.** -/
theorem isSpelled_of_mem_scan {stop : Span} {afterDot : Bool} {ts : List Token} (h : ∀ t ∈ ts, t.IsSpelled) :
    ∀ f ∈ scan stop afterDot ts, f.IsSpelled := by
  fun_induction scan stop afterDot ts with
  | case1 => simp
  | case2 afterDot t ts _ ih => exact ih fun u hu => h u (List.mem_cons_of_mem t hu)
  | case3 afterDot t ts kind _ reading ih =>
    have hts : ∀ u ∈ ts, u.IsSpelled := fun u hu => h u (List.mem_cons_of_mem t hu)
    intro f hf
    rcases List.mem_append.1 hf with hf | hf
    · exact isSpelled_declaration stop kind t hts f hf
    · exact ih (fun u hu => hts u ((rest_declaration stop kind t ts).subset hu)) f hf

end Extract

/-! ## Spelled registries -/

namespace Registry

/-- All declarations of the registry are spelled as tokens of a text are. -/
structure IsSpelled (r : Registry) : Prop where
  interfaces : ∀ i ∈ r.interfaces.entries, i.IsSpelled
  aliases : ∀ a ∈ r.aliases.entries, a.IsSpelled
  enums : ∀ e ∈ r.enums.entries, e.IsSpelled

theorem mem_insert {α : Type} [Named α] {t : Table α} {a b : α} (h : b ∈ (t.insert a).entries) :
    b = a ∨ b ∈ t.entries := by
  unfold Table.insert at h
  split at h
  · obtain ⟨c, hc, rfl⟩ := List.mem_map.1 h
    split
    · exact .inl rfl
    · exact .inr hc
  · rcases List.mem_append.1 h with h | h
    · exact .inr h
    · exact .inl (List.mem_singleton.1 h)

/-- What holds of all entries of a table and of one more holds of all entries with that one added. -/
theorem forall_mem_insert {α : Type} [Named α] {t : Table α} {p : α → Prop} (h : ∀ b ∈ t.entries, p b) {a : α}
    (ha : p a) : ∀ b ∈ (t.insert a).entries, p b := by
  intro b hb
  rcases mem_insert hb with rfl | hb
  · exact ha
  · exact h b hb

theorem IsSpelled.add {r : Registry} (h : r.IsSpelled) {f : Finding} (hf : f.IsSpelled) : (r.add f).IsSpelled := by
  cases f with
  | interface i =>
    have hi := forall_mem_insert h.interfaces hf
    constructor
    · simpa [Registry.add, addInterface] using hi
    · simpa [Registry.add, addInterface] using h.aliases
    · simpa [Registry.add, addInterface] using h.enums
  | typeAlias a =>
    have ha := forall_mem_insert h.aliases hf
    constructor
    · simpa [Registry.add, addAlias] using h.interfaces
    · simpa [Registry.add, addAlias] using ha
    · simpa [Registry.add, addAlias] using h.enums
  | enum e =>
    have he := forall_mem_insert h.enums hf
    constructor
    · simpa [Registry.add, addEnum] using h.interfaces
    · simpa [Registry.add, addEnum] using h.aliases
    · simpa [Registry.add, addEnum] using he
  | warning d => exact ⟨h.interfaces, h.aliases, h.enums⟩

theorem IsSpelled.addAll {r : Registry} (h : r.IsSpelled) {found : List Finding} (hf : ∀ f ∈ found, f.IsSpelled) :
    (r.addAll found).IsSpelled := by
  induction found generalizing r with
  | nil => exact h
  | cons f found ih =>
    exact ih (h.add (hf f List.mem_cons_self)) fun g hg => hf g (List.mem_cons_of_mem f hg)

/-- **The registry of a source is spelled as the tokens of the source are.** -/
theorem isSpelled_extract (source : String) : (extract source).IsSpelled := by
  have hempty : ({} : Registry).IsSpelled := ⟨by simp, by simp, by simp⟩
  refine hempty.addAll (Extract.isSpelled_of_mem_scan fun t ht => ?_)
  exact (Lexer.reads_tokenize source).spells t (List.mem_filter.1 ht).1

/-- What a name of a spelled registry stands for has an identifier for its name. -/
theorem IsSpelled.isIdentifier {r : Registry} (h : r.IsSpelled) {name : String} (hn : r.contains name = true) :
    Identifier.isIdentifier name.toList = true := by
  rcases contains_iff.1 hn with hn | hn | hn
  · obtain ⟨i, hi, rfl⟩ := List.mem_map.1 hn
    exact (h.interfaces i hi).name
  · obtain ⟨a, ha, rfl⟩ := List.mem_map.1 hn
    exact h.aliases a ha
  · obtain ⟨e, he, rfl⟩ := List.mem_map.1 hn
    exact (h.enums e he).name

end Registry

end TypeSchema
