import TypeSchema.Proofs.Registry.Spelling
import TypeSchema.Proofs.TypeExpr.WellFormed
import TypeSchema.Validator.Convert

/-!
# What stands in a validator

`IsSpelled` says of a validator what its code relies on: names of schemas are identifiers, literals may stand between
their quotes, and neither values of enums nor names of fields have line feeds.  Free text may be anything.

The validators of well-formed expressions are so spelled (`isSpelled_lower`), hence those of all texts
(`isSpelled_ofText`) and of the declarations of a spelled registry (`isSpelled_ofInterface`, `isSpelled_ofEnum`).
-/

namespace TypeSchema

namespace Validator

/-- The validator is spelled so that its code can be read. -/
inductive IsSpelled : Validator → Prop
  | primitive (p : Primitive) : IsSpelled (.primitive p)
  | literal {value : String} {quote : Char} : quote = '"' ∨ quote = '\'' → Lexeme.QuotedText quote value.toList →
      IsSpelled (.literal ⟨value, quote⟩)
  | array {v : Validator} : IsSpelled v → IsSpelled (.array v)
  | record {v : Validator} : IsSpelled v → IsSpelled (.record v)
  | union {vs : List Validator} : (∀ v ∈ vs, IsSpelled v) → IsSpelled (.union vs)
  | enum {values : List String} : (∀ value ∈ values, '\n' ∉ value.toList) → IsSpelled (.enum values)
  | object {bases : List String} {fields : List (String × Validator)} :
      (∀ base ∈ bases, Identifier.isIdentifier base.toList = true) → (∀ f ∈ fields, '\n' ∉ f.1.toList) →
      (∀ f ∈ fields, IsSpelled f.2) → IsSpelled (.object bases fields)
  | reference {name : String} : Identifier.isIdentifier name.toList = true → IsSpelled (.reference name)
  | unresolved (e : String) : IsSpelled (.unresolved e)
  | optional {v : Validator} : IsSpelled v → IsSpelled (.optional v)
  | described {v : Validator} : IsSpelled v → (text : String) → IsSpelled (.described v text)

theorem IsSpelled.orAbsentIf {v : Validator} (h : v.IsSpelled) (absent : Bool) : (v.orAbsentIf absent).IsSpelled := by
  unfold Validator.orAbsentIf Validator.orAbsent
  split
  · split
    · exact h
    · exact .optional h
  · exact h

section Conversion

variable {known : String → Bool} (hknown : ∀ name, known name = true → Identifier.isIdentifier name.toList = true)

/-- The branch that stands for a union is one of them. -/
theorem lowerSole_cases (known : String → Bool) (es : List TypeExpr) :
    lowerSole known es = .primitive .never ∨ ∃ e ∈ es, lowerSole known es = lower known false e := by
  induction es with
  | nil => exact .inl rfl
  | cons e es ih =>
    rw [lowerSole]
    split
    · rcases ih with h | ⟨f, hf, h⟩
      · exact .inl h
      · exact .inr ⟨f, List.mem_cons_of_mem e hf, h⟩
    · exact .inr ⟨e, List.mem_cons_self, rfl⟩

include hknown

/-- **Well-formed expressions have spelled validators.** -/
theorem isSpelled_lower {p : String → Prop} {e : TypeExpr} (h : TypeExpr.Inner p e) (strip : Bool) :
    (lower known strip e).IsSpelled := by
  induction h generalizing strip with
  | primitive q => exact .primitive q
  | literal hq hb => exact .literal hq hb
  | @reference name =>
    rw [lower]
    split
    · rename_i hk
      exact .reference (hknown name hk)
    · exact .unresolved name
  | array _ ih =>
    rw [lower]
    exact .array ((ih true).orAbsentIf _)
  | record _ _ ih =>
    rw [lower]
    exact .record ((ih true).orAbsentIf _)
  | anyRecord => exact .record (.primitive .any)
  | generic => exact .unresolved _
  | @union es _ _ ih =>
    have hconvert {e : TypeExpr} (he : e ∈ es) : (convert known e false).IsSpelled := (ih e he true).orAbsentIf _
    have hall : (Validator.union (lowerAll known es)).IsSpelled := by
      refine .union fun v hv => ?_
      rw [lowerAll_eq_map] at hv
      obtain ⟨e, he, rfl⟩ := List.mem_map.1 hv
      exact hconvert he
    rw [lower]
    split
    · split
      · exact hall
      · rcases lowerSole_cases known es with hs | ⟨e, he, hs⟩
        · rw [hs]
          exact .primitive .never
        · rw [hs]
          exact ih e he false
      · refine .union fun v hv => ?_
        rw [lowerPresent_eq_map] at hv
        obtain ⟨e, he, rfl⟩ := List.mem_map.1 hv
        exact hconvert (List.mem_filter.1 he).1
    · exact hall

theorem isSpelled_convert {p : String → Prop} {e : TypeExpr} (h : TypeExpr.WellFormed p e) (optional : Bool) :
    (convert known e optional).IsSpelled := by
  unfold convert
  cases h with
  | bare h => exact (isSpelled_lower hknown h true).orAbsentIf _
  | optional h =>
    rw [lower]
    exact (isSpelled_lower hknown h true).orAbsentIf _

end Conversion

section Declarations

variable {r : Registry} (hr : r.IsSpelled)

include hr

/-- **Every text has a spelled validator.** -/
theorem isSpelled_ofText (text : String) (optional : Bool) : (ofText r text optional).IsSpelled := by
  unfold ofText
  split
  · rename_i e he
    exact isSpelled_convert (fun name hn => hr.isIdentifier hn) (TypeExpr.wellFormed_of_parse he) optional
  · exact (IsSpelled.unresolved _).orAbsentIf optional

theorem isSpelled_ofField (f : Field) : (ofField r f).IsSpelled := by
  have htype := isSpelled_ofText hr f.type f.optional
  unfold ofField
  dsimp only
  split
  · exact .described htype _
  · exact htype

theorem isSpelled_ofInterface {i : Interface} (hi : i.IsSpelled) : (ofInterface r i).IsSpelled := by
  refine .object (fun base hb => ?_) (fun f hf => ?_) fun f hf => ?_
  · have hbase := (List.mem_filter.1 hb).2
    obtain ⟨j, hj, rfl⟩ := List.mem_map.1 (Table.contains_iff.1 hbase)
    exact (hr.interfaces j hj).name
  · obtain ⟨field, hfield, rfl⟩ := List.mem_map.1 hf
    exact hi.fields field hfield
  · obtain ⟨field, -, rfl⟩ := List.mem_map.1 hf
    exact isSpelled_ofField hr field

end Declarations

theorem isSpelled_ofEnum {e : Enumeration} (he : e.IsSpelled) : (ofEnum e).IsSpelled := .enum he.values

end Validator

end TypeSchema
