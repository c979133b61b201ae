import TypeSchema.Validator.Convert

/-!
# What a converted validator refers to

`RefersOnly p` says that a validator refers to names of `p` only; it holds of a validator iff it holds of its parts
(`refersOnly_array` and its siblings).

* `refersOnly_convert`: a converted expression refers to known names only;
* `refersOnly_ofInterface`: a converted interface refers to the names of its registry only, its bases included.
-/

namespace TypeSchema

namespace Validator

attribute [local simp] walk walkAll walkFields ownReferences

/-- The validator refers to names of `p` only, bases included. -/
def RefersOnly (p : String → Prop) (v : Validator) : Prop := ∀ name ∈ v.references, p name

theorem walkAll_eq_flatMap (vs : List Validator) : walkAll vs = vs.flatMap walk := by
  induction vs with
  | nil => rfl
  | cons v vs ih => simp [ih]

theorem walkFields_eq_flatMap (fields : List (String × Validator)) :
    walkFields fields = fields.flatMap fun f => f.2.walk := by
  induction fields with
  | nil => rfl
  | cons f fields ih =>
    obtain ⟨name, v⟩ := f
    simp [ih]

theorem mem_references {v : Validator} {name : String} :
    name ∈ v.references ↔ ∃ w ∈ v.walk, name ∈ w.ownReferences := by
  simp [references]

/-! ## The parts of a validator -/

section Parts

variable {p : String → Prop}

theorem refersOnly_iff {v : Validator} : v.RefersOnly p ↔ ∀ w ∈ v.walk, ∀ name ∈ w.ownReferences, p name := by
  constructor
  · intro h w hw name hn
    exact h name (mem_references.2 ⟨w, hw, hn⟩)
  · intro h name hn
    obtain ⟨w, hw, hn⟩ := mem_references.1 hn
    exact h w hw name hn

@[simp] theorem refersOnly_primitive (q : Primitive) : (primitive q).RefersOnly p := by
  simp [refersOnly_iff]

@[simp] theorem refersOnly_literal (l : StringLiteral) : (literal l).RefersOnly p := by
  simp [refersOnly_iff]

@[simp] theorem refersOnly_enum (values : List String) : (enum values).RefersOnly p := by
  simp [refersOnly_iff]

@[simp] theorem refersOnly_unresolved (e : String) : (unresolved e).RefersOnly p := by
  simp [refersOnly_iff]

@[simp] theorem refersOnly_reference {name : String} : (reference name).RefersOnly p ↔ p name := by
  simp [refersOnly_iff]

@[simp] theorem refersOnly_array {v : Validator} : (array v).RefersOnly p ↔ v.RefersOnly p := by
  simp [refersOnly_iff]

@[simp] theorem refersOnly_record {v : Validator} : (record v).RefersOnly p ↔ v.RefersOnly p := by
  simp [refersOnly_iff]

@[simp] theorem refersOnly_optional {v : Validator} : (optional v).RefersOnly p ↔ v.RefersOnly p := by
  simp [refersOnly_iff]

@[simp] theorem refersOnly_described {v : Validator} {text : String} :
    (described v text).RefersOnly p ↔ v.RefersOnly p := by
  simp [refersOnly_iff]

@[simp] theorem refersOnly_union {vs : List Validator} :
    (union vs).RefersOnly p ↔ ∀ v ∈ vs, v.RefersOnly p := by
  simp only [refersOnly_iff, walk, walkAll_eq_flatMap, List.mem_cons, List.mem_flatMap]
  constructor
  · intro h v hv w hw
    exact h w (.inr ⟨v, hv, hw⟩)
  · rintro h w (rfl | ⟨v, hv, hw⟩)
    · simp
    · exact h v hv w hw

@[simp] theorem refersOnly_object {bases : List String} {fields : List (String × Validator)} :
    (object bases fields).RefersOnly p ↔ (∀ base ∈ bases, p base) ∧ ∀ f ∈ fields, f.2.RefersOnly p := by
  simp only [refersOnly_iff, walk, walkFields_eq_flatMap, List.mem_cons, List.mem_flatMap]
  constructor
  · intro h
    exact ⟨h _ (.inl rfl), fun f hf w hw => h w (.inr ⟨f, hf, hw⟩)⟩
  · rintro ⟨hb, hf⟩ w (rfl | ⟨f, hm, hw⟩)
    · exact hb
    · exact hf f hm w hw

@[simp] theorem refersOnly_orAbsent {v : Validator} : v.orAbsent.RefersOnly p ↔ v.RefersOnly p := by
  unfold orAbsent
  split <;> simp

@[simp] theorem refersOnly_orAbsentIf {v : Validator} {absent : Bool} :
    (v.orAbsentIf absent).RefersOnly p ↔ v.RefersOnly p := by
  unfold orAbsentIf
  split <;> simp

end Parts

/-! ## Converted expressions -/

section Lower

variable (known : String → Bool)

mutual

theorem refersOnly_lower (strip : Bool) : ∀ e : TypeExpr, (lower known strip e).RefersOnly (known · = true)
  | .primitive p => by simp [lower]
  | .literal l => by simp [lower]
  | .anyRecord => by simp [lower]
  | .generic name es => by simp [lower]
  | .reference name => by
    unfold lower
    split
    · rename_i h
      simpa using h
    · simp
  | .array e => by simpa [lower] using refersOnly_lower true e
  | .record key e => by simpa [lower] using refersOnly_lower true e
  | .optional e => by
    unfold lower
    split
    · exact refersOnly_lower true e
    · simpa using refersOnly_lower true e
  | .union es => by
    unfold lower
    split
    · split
      · simpa using refersOnly_lowerAll es
      · exact refersOnly_lowerSole es
      · simpa using refersOnly_lowerPresent es
    · simpa using refersOnly_lowerAll es

theorem refersOnly_lowerAll : ∀ es : List TypeExpr, ∀ v ∈ lowerAll known es, v.RefersOnly (known · = true)
  | [] => by simp [lowerAll]
  | e :: es => by simpa [lowerAll] using ⟨refersOnly_lower true e, refersOnly_lowerAll es⟩

theorem refersOnly_lowerPresent : ∀ es : List TypeExpr, ∀ v ∈ lowerPresent known es, v.RefersOnly (known · = true)
  | [] => by simp [lowerPresent]
  | e :: es => by
    unfold lowerPresent
    split
    · exact refersOnly_lowerPresent es
    · simpa using ⟨refersOnly_lower true e, refersOnly_lowerPresent es⟩

theorem refersOnly_lowerSole : ∀ es : List TypeExpr, (lowerSole known es).RefersOnly (known · = true)
  | [] => by simp [lowerSole]
  | e :: es => by
    unfold lowerSole
    split
    · exact refersOnly_lowerSole es
    · exact refersOnly_lower false e

end

/-- A converted expression refers to known names only. -/
theorem refersOnly_convert (e : TypeExpr) (optional : Bool) :
    (convert known e optional).RefersOnly (known · = true) := by
  simpa [convert] using refersOnly_lower known true e

end Lower

/-! ## Converted declarations -/

section Declarations

variable (r : Registry)

theorem refersOnly_ofText (text : String) (optional : Bool) :
    (ofText r text optional).RefersOnly (r.contains · = true) := by
  unfold ofText
  split
  · exact refersOnly_convert _ _ _
  · simp

theorem refersOnly_ofField (f : Field) : (ofField r f).RefersOnly (r.contains · = true) := by
  have h := refersOnly_ofText r f.type f.optional
  unfold ofField
  dsimp only
  split
  · simpa using h
  · exact h

/-- Bases that are no interfaces are left out, so all that remain are names of the registry. -/
theorem refersOnly_ofInterface (i : Interface) : (ofInterface r i).RefersOnly (r.contains · = true) := by
  simp only [ofInterface, refersOnly_object]
  constructor
  · intro base hb
    have hc := (List.mem_filter.1 hb).2
    simp [Registry.contains, Registry.kindOf?, hc]
  · intro f hf
    obtain ⟨g, -, rfl⟩ := List.mem_map.1 hf
    exact refersOnly_ofField r g

theorem refersOnly_ofAlias (a : Alias) : (ofAlias r a).RefersOnly (r.contains · = true) := refersOnly_ofText r _ _

theorem refersOnly_ofEnum (e : Enumeration) : (ofEnum e).RefersOnly (r.contains · = true) := refersOnly_enum _

end Declarations

end Validator

end TypeSchema
