import Mathlib
import TypeSchema.Proofs.TypeExpr.WellFormed
import TypeSchema.Proofs.Validator.Conversion
import TypeSchema.Proofs.Validator.Unresolved

/-!
# Normal forms of converted validators

A converted expression is `Normal`: no optional validator stands right inside another one, every union has two branches
or more, and there are no remarks, enumerations or objects, which only declarations have.  Unions may only be as narrow
as those of the expression, and the parser gives none with fewer than two branches (`hasWideUnions_of_parse`).

* `normal_convert`: conversion gives normal forms, by induction on the expression;
* `Normal.node`: what stands anywhere in a normal form.
-/

namespace TypeSchema

namespace TypeExpr

mutual

/-- Whether all unions in an expression have two branches or more. -/
def hasWideUnions : TypeExpr → Bool
  | primitive _ | literal _ | reference _ | anyRecord => true
  | array e | record _ e | optional e => e.hasWideUnions
  | generic _ es => haveWideUnions es
  | union es => decide (2 ≤ es.length) && haveWideUnions es

/-- Whether all unions in a list of expressions have two branches or more. -/
def haveWideUnions : List TypeExpr → Bool
  | [] => true
  | e :: es => e.hasWideUnions && haveWideUnions es

end

theorem haveWideUnions_iff {es : List TypeExpr} : haveWideUnions es = true ↔ ∀ e ∈ es, e.hasWideUnions = true := by
  induction es with
  | nil => simp [haveWideUnions]
  | cons e es ih => rw [haveWideUnions, Bool.and_eq_true, ih, List.forall_mem_cons]

theorem hasWideUnions_union {es : List TypeExpr} :
    (union es).hasWideUnions = true ↔ 2 ≤ es.length ∧ ∀ e ∈ es, e.hasWideUnions = true := by
  rw [hasWideUnions, Bool.and_eq_true, decide_eq_true_eq, haveWideUnions_iff]

theorem Inner.hasWideUnions {p : String → Prop} {e : TypeExpr} (h : Inner p e) : e.hasWideUnions = true := by
  induction h with
  | primitive | literal | reference | anyRecord => rfl
  | array _ ih | record _ _ ih => exact ih
  | generic _ _ _ _ _ ih => exact haveWideUnions_iff.2 ih
  | union hlen _ ih => exact hasWideUnions_union.2 ⟨hlen, ih⟩

/-- **All unions that texts have are wide.** -/
theorem hasWideUnions_of_parse {source : String} {e : TypeExpr} (h : parse source = .ok e) :
    e.hasWideUnions = true := by
  cases wellFormed_of_parse h with
  | bare hinner => exact hinner.hasWideUnions
  | optional hinner => exact hinner.hasWideUnions

end TypeExpr

namespace Validator

open TypeExpr (present)

/-! ## Normal forms -/

/-- The normal forms, among them the optional ones if `absent`. -/
inductive Normal : Bool → Validator → Prop
  | primitive (absent : Bool) (p : Primitive) : Normal absent (.primitive p)
  | literal (absent : Bool) (l : StringLiteral) : Normal absent (.literal l)
  | reference (absent : Bool) (name : String) : Normal absent (.reference name)
  | unresolved (absent : Bool) (e : String) : Normal absent (.unresolved e)
  | array (absent : Bool) {v : Validator} : Normal true v → Normal absent (.array v)
  | record (absent : Bool) {v : Validator} : Normal true v → Normal absent (.record v)
  | union (absent : Bool) {vs : List Validator} : 2 ≤ vs.length → (∀ v ∈ vs, Normal true v) → Normal absent (.union vs)
  | optional {v : Validator} : Normal false v → Normal true (.optional v)

/-- What may stand somewhere in a normal form. -/
structure NormalNode (w : Validator) : Prop where
  once (v : Validator) : w ≠ .optional (.optional v)
  wide {vs : List Validator} : w = .union vs → 2 ≤ vs.length
  noRemark (v : Validator) (text : String) : w ≠ .described v text
  noEnum (values : List String) : w ≠ .enum values
  noObject (bases : List String) (fields : List (String × Validator)) : w ≠ .object bases fields

section Normal

variable {absent : Bool} {v w : Validator}

theorem Normal.self (h : Normal absent v) : NormalNode v := by
  cases h with
  | optional h =>
    refine ⟨fun u hu => ?_, by simp, by simp, by simp, by simp⟩
    cases hu
    cases h
  | union _ hlen =>
    refine ⟨by simp, fun hvs => ?_, by simp, by simp, by simp⟩
    cases hvs
    exact hlen
  | _ => exact ⟨by simp, by simp, by simp, by simp, by simp⟩

/-- **Everything in a normal form is as it may be.** -/
theorem Normal.node (h : Normal absent v) (hw : Within w v) : NormalNode w := by
  induction hw generalizing absent with
  | self => exact h.self
  | array _ ih =>
    cases h with
    | array _ h => exact ih h
  | record _ ih =>
    cases h with
    | record _ h => exact ih h
  | branch hv _ ih =>
    cases h with
    | union _ _ h => exact ih (h _ hv)
  | field => cases h
  | optional _ ih =>
    cases h with
    | optional h => exact ih h
  | described => cases h

theorem Normal.orAbsent (h : Normal true v) : Normal true v.orAbsent := by
  cases h with
  | primitive _ p => exact .optional (.primitive _ p)
  | literal _ l => exact .optional (.literal _ l)
  | reference _ name => exact .optional (.reference _ name)
  | unresolved _ e => exact .optional (.unresolved _ e)
  | array _ h => exact .optional (.array _ h)
  | record _ h => exact .optional (.record _ h)
  | union _ hlen h => exact .optional (.union _ hlen h)
  | optional h => exact .optional h

theorem Normal.orAbsentIf (h : Normal true v) (allowed : Bool) : Normal true (v.orAbsentIf allowed) := by
  cases allowed with
  | false => exact h
  | true => exact h.orAbsent

end Normal

/-! ## Conversion -/

section Conversion

variable (known : String → Bool)

theorem normal_union_map {es : List TypeExpr} (hlen : 2 ≤ es.length)
    (h : ∀ e ∈ es, Normal true (convert known e false)) : Normal true (union (es.map (convert known · false))) := by
  refine .union true (by rwa [List.length_map]) fun v hv => ?_
  obtain ⟨e, he, rfl⟩ := List.mem_map.1 hv
  exact h e he

/-- A union is normal if its branches are, converted and as they are. -/
theorem normal_convert_union {es : List TypeExpr} (hlen : 2 ≤ es.length)
    (h : ∀ e ∈ es, Normal true (convert known e false) ∧ Normal true (lower known false e)) :
    Normal true (convert known (.union es) false) := by
  have hpresent : ∀ e ∈ present es, Normal true (convert known e false) := fun e he =>
    (h e (TypeExpr.mem_present.1 he).1).1
  match hp : present es with
  | [] =>
    rw [convert_union_absent known hp]
    exact normal_union_map known hlen fun e he => (h e he).1
  | [k] =>
    have hk : k ∈ es := (TypeExpr.mem_present.1 (by simp [hp])).1
    rw [convert_union_sole known hp]
    exact (h k hk).2.orAbsentIf _
  | k :: l :: ks =>
    have hseveral : 2 ≤ (present es).length := by simp [hp]
    rw [convert_union_several known hseveral]
    exact (normal_union_map known hseveral hpresent).orAbsentIf _

/-- An expression is normal both as it is converted and as the sole branch of a union. -/
theorem normal_convert_and_lower : ∀ e : TypeExpr, e.hasWideUnions = true →
    Normal true (convert known e false) ∧ Normal true (lower known false e)
  | .primitive p, _ => ⟨.primitive true p, .primitive true p⟩
  | .literal l, _ => ⟨.literal true l, .literal true l⟩
  | .anyRecord, _ => ⟨.record true (.primitive true .any), .record true (.primitive true .any)⟩
  | .generic _ _, _ => ⟨.unresolved true _, .unresolved true _⟩
  | .reference name, _ => by
    have hname : Normal true (convert known (.reference name) false) := by
      rw [convert_reference]
      split
      · exact .reference true name
      · exact .unresolved true name
    exact ⟨hname, hname⟩
  | .array e, h => by
    have he := (normal_convert_and_lower e h).1
    exact ⟨.array true he, .array true he⟩
  | .record key e, h => by
    have he := (normal_convert_and_lower e h).1
    exact ⟨.record true he, .record true he⟩
  | .optional e, h => by
    have he := (normal_convert_and_lower e h).1.orAbsent
    rw [lower_of_not_union known rfl, convert_optional]
    exact ⟨he, he⟩
  | .union es, h => by
    obtain ⟨hlen, hes⟩ := TypeExpr.hasWideUnions_union.1 h
    have hbranches (e : TypeExpr) (he : e ∈ es) := normal_convert_and_lower e (hes e he)
    refine ⟨normal_convert_union known hlen hbranches, ?_⟩
    rw [lower_union]
    exact normal_union_map known hlen fun e he => (hbranches e he).1

theorem normal_convert {e : TypeExpr} (h : e.hasWideUnions = true) (optional : Bool) :
    Normal true (convert known e optional) := by
  rw [convert_eq_orAbsentIf]
  exact (normal_convert_and_lower known e h).1.orAbsentIf optional

end Conversion

/-- **Converted expressions are in normal form**: if all unions of an expression have two branches or more, as those of
texts have, then nowhere in its validator does an optional one stand right inside another, all unions have two branches
or more, and there are no remarks, enumerations or objects. -/
theorem normalNode_of_within_convert :
    (∀ source e, TypeExpr.parse source = .ok e → e.hasWideUnions = true) ∧
      ∀ (registry : Registry) (e : TypeExpr) (optional : Bool), e.hasWideUnions = true →
        ∀ w, Within w (convert registry.contains e optional) → NormalNode w := by
  refine ⟨fun _ _ h => TypeExpr.hasWideUnions_of_parse h, fun registry e optional h w hw => ?_⟩
  exact (normal_convert registry.contains h optional).node hw

/-- Absence is said by a question mark, by the flag and by branches on two levels. -/
theorem normalNode_of_within_convert_signals :
    let e : TypeExpr := .optional (.union
      [.array (.union [.primitive .string, .primitive .null]), .primitive .undefined, .primitive .null])
    TypeExpr.parse "((string | null)[] | undefined | null)?" = .ok e ∧
      Within (.optional (.primitive .string)) (convert (Registry.contains {}) e true) ∧
      NormalNode (convert (Registry.contains {}) e true) := by
  refine ⟨by cbv, ?_, ?_⟩
  · exact .optional (.array .self)
  · exact normalNode_of_within_convert.2 {} _ true (by decide) _ .self

end Validator

end TypeSchema
