import TypeSchema.Proofs.Validator.Conversion
import TypeSchema.Proofs.Validator.Passing

/-!
# Conversion keeps the meaning

`Admits known schemas e x` reads a type expression directly: which values, or absence, it admits, where `known` names
have the schemas that `schemas` gives.  What passes in the validator of an expression is what the expression admits
(`passes_convert_iff`), if no union has a union as a branch (`IsFlat`): the only present branch of a union is converted
without a look at what it says itself about absence, and only a union could say so.
-/

namespace TypeSchema

namespace TypeExpr

/-- The values that an expression admits. -/
inductive Admits (known : String → Bool) (schemas : Validator.Schemas) : TypeExpr → Option Json → Prop
  | primitive {p : Primitive} {x : Option Json} : Validator.acceptsPrimitive p x = true →
      Admits known schemas (.primitive p) x
  /-- A literal admits the string that its text stands for. -/
  | literal (l : StringLiteral) : Admits known schemas (.literal l) (some (.string (Text.unescape l.value)))
  /-- A known name admits what passes in its schema. -/
  | reference {name : String} {v : Validator} {x : Option Json} : known name = true → schemas name = some v →
      v.Passes schemas x → Admits known schemas (.reference name) x
  | unknown {name : String} (x : Option Json) : known name = false → Admits known schemas (.reference name) x
  | generic (name : String) (es : List TypeExpr) (x : Option Json) : Admits known schemas (.generic name es) x
  | array {e : TypeExpr} {items : List Json} : (∀ item ∈ items, Admits known schemas e (some item)) →
      Admits known schemas (.array e) (some (.array items))
  | record {key : String} {e : TypeExpr} {members : List (String × Json)} :
      (∀ m ∈ Json.settle members, Admits known schemas e (some m.2)) →
      Admits known schemas (.record key e) (some (.object members))
  | anyRecord (members : List (String × Json)) : Admits known schemas .anyRecord (some (.object members))
  | absent (e : TypeExpr) : Admits known schemas (.optional e) none
  | optional {e : TypeExpr} {x : Option Json} : Admits known schemas e x → Admits known schemas (.optional e) x
  /-- A union admits what a present branch admits. -/
  | branch {es : List TypeExpr} {e : TypeExpr} {x : Option Json} : e ∈ es → e.isAbsent = false →
      Admits known schemas e x → Admits known schemas (.union es) x
  /-- A branch for absence beside a present one admits absence. -/
  | absentBranch {es : List TypeExpr} {e f : TypeExpr} : e ∈ es → e.isAbsent = false → f ∈ es → f.isAbsent = true →
      Admits known schemas (.union es) none
  /-- Without present branches, a union admits what some branch admits. -/
  | onlyAbsent {es : List TypeExpr} {e : TypeExpr} {x : Option Json} : (∀ f ∈ es, f.isAbsent = true) → e ∈ es →
      Admits known schemas e x → Admits known schemas (.union es) x

/-- No union in the expression has a union as a branch. -/
inductive IsFlat : TypeExpr → Prop
  | primitive (p : Primitive) : IsFlat (.primitive p)
  | literal (l : StringLiteral) : IsFlat (.literal l)
  | reference (name : String) : IsFlat (.reference name)
  | array {e : TypeExpr} : IsFlat e → IsFlat (.array e)
  | record {key : String} {e : TypeExpr} : IsFlat e → IsFlat (.record key e)
  | anyRecord : IsFlat .anyRecord
  | generic {name : String} {es : List TypeExpr} : (∀ e ∈ es, IsFlat e) → IsFlat (.generic name es)
  | union {es : List TypeExpr} : (∀ e ∈ es, e.isUnion = false) → (∀ e ∈ es, IsFlat e) → IsFlat (.union es)
  | optional {e : TypeExpr} : IsFlat e → IsFlat (.optional e)

section Unions

variable {known : String → Bool} {schemas : Validator.Schemas} {es : List TypeExpr} {x : Option Json}

theorem admits_union_absent (h : present es = []) :
    Admits known schemas (.union es) x ↔ ∃ e ∈ es, Admits known schemas e x := by
  have hall := present_eq_nil_iff.1 h
  constructor
  · intro h
    cases h with
    | branch he _ hx => exact ⟨_, he, hx⟩
    | absentBranch he hp => simp [hall _ he] at hp
    | onlyAbsent _ he hx => exact ⟨_, he, hx⟩
  · rintro ⟨e, he, hx⟩
    exact .onlyAbsent hall he hx

theorem admits_union_present (h : present es ≠ []) :
    Admits known schemas (.union es) x ↔
      (x = none ∧ es.any isAbsent = true) ∨ ∃ e ∈ present es, Admits known schemas e x := by
  obtain ⟨k, hk⟩ := List.exists_mem_of_ne_nil _ h
  obtain ⟨hkes, hkp⟩ := mem_present.1 hk
  constructor
  · intro h
    cases h with
    | branch he hp hx => exact .inr ⟨_, mem_present.2 ⟨he, hp⟩, hx⟩
    | absentBranch _ _ hf ha => exact .inl ⟨rfl, List.any_eq_true.2 ⟨_, hf, ha⟩⟩
    | onlyAbsent hall _ _ => simp [hall k hkes] at hkp
  · rintro (⟨rfl, hany⟩ | ⟨e, he, hx⟩)
    · obtain ⟨f, hf, ha⟩ := List.any_eq_true.1 hany
      exact .absentBranch hkes hkp hf ha
    · obtain ⟨hees, hp⟩ := mem_present.1 he
      exact .branch hees hp hx

end Unions

end TypeExpr

namespace Validator

open TypeExpr (Admits IsFlat present)

variable {known : String → Bool} {schemas : Schemas}

theorem passes_union_map {es : List TypeExpr} {x : Option Json} :
    Passes schemas (union (es.map (convert known · false))) x ↔
      ∃ e ∈ es, Passes schemas (convert known e false) x := by
  rw [passes_iff]
  constructor
  · rintro ⟨v, hv, hx⟩
    obtain ⟨e, he, rfl⟩ := List.mem_map.1 hv
    exact ⟨e, he, hx⟩
  · rintro ⟨e, he, hx⟩
    exact ⟨_, List.mem_map_of_mem he, hx⟩

/-- A union, by the number of its present branches. -/
theorem passes_convert_union {es : List TypeExpr} (hflat : ∀ e ∈ es, e.isUnion = false)
    (ih : ∀ e ∈ es, ∀ x, Passes schemas (convert known e false) x ↔ Admits known schemas e x) (x : Option Json) :
    Passes schemas (convert known (.union es) false) x ↔ Admits known schemas (.union es) x := by
  have hpresent : (∃ e ∈ present es, Passes schemas (convert known e false) x) ↔
      ∃ e ∈ present es, Admits known schemas e x :=
    exists_congr fun e => and_congr_right fun he => ih e (TypeExpr.mem_present.1 he).1 x
  match hp : present es with
  | [] =>
    rw [convert_union_absent known hp, passes_union_map, TypeExpr.admits_union_absent hp]
    exact exists_congr fun e => and_congr_right fun he => ih e he x
  | [k] =>
    have hk : k.isUnion = false := hflat k (TypeExpr.mem_present.1 (by simp [hp])).1
    rw [convert_union_sole known hp, lower_of_not_union known hk, passes_orAbsentIf,
      TypeExpr.admits_union_present (by simp [hp]), ← hpresent, hp]
    simp
  | k :: l :: ks =>
    rw [convert_union_several known (by simp [hp]), passes_orAbsentIf, passes_union_map,
      TypeExpr.admits_union_present (by simp [hp]), hpresent]

/-- **Conversion keeps the meaning**: what passes in the validator of a flat expression is what the expression
admits. -/
theorem passes_convert_iff {e : TypeExpr} (h : IsFlat e) (x : Option Json) :
    Passes schemas (convert known e false) x ↔ Admits known schemas e x := by
  induction h generalizing x with
  | primitive p =>
    rw [convert_primitive, passes_iff]
    constructor
    · exact .primitive
    · intro h
      cases h with
      | primitive h => exact h
  | literal l =>
    rw [convert_literal, passes_iff]
    constructor
    · rintro rfl
      exact .literal l
    · intro h
      cases h with
      | literal => rfl
  | reference name =>
    rw [convert_reference]
    cases hk : known name with
    | false =>
      have hpass : Passes schemas (.unresolved name) x := passes_iff.2 trivial
      exact iff_of_true hpass (.unknown x hk)
    | true =>
      rw [if_pos rfl, passes_iff]
      constructor
      · rintro ⟨v, hv, hx⟩
        exact .reference hk hv hx
      · intro h
        cases h with
        | reference _ hv hx => exact ⟨_, hv, hx⟩
        | unknown _ hn => rw [hk] at hn; cases hn
  | array _ ih =>
    rw [convert_array, passes_iff]
    constructor
    · rintro ⟨items, rfl, hitems⟩
      exact .array fun item hm => (ih _).1 (hitems item hm)
    · intro h
      cases h with
      | array hitems => exact ⟨_, rfl, fun item hm => (ih _).2 (hitems item hm)⟩
  | record _ ih =>
    rw [convert_record, passes_iff]
    constructor
    · rintro ⟨members, rfl, hmembers⟩
      exact .record fun m hm => (ih _).1 (hmembers m hm)
    · intro h
      cases h with
      | record hmembers => exact ⟨_, rfl, fun m hm => (ih _).2 (hmembers m hm)⟩
  | anyRecord =>
    rw [convert_anyRecord, passes_iff]
    constructor
    · rintro ⟨members, rfl, -⟩
      exact .anyRecord members
    · intro h
      cases h with
      | anyRecord members => exact ⟨members, rfl, fun m _ => passes_iff.2 rfl⟩
  | generic =>
    rw [convert_generic]
    exact iff_of_true (passes_iff.2 trivial) (.generic _ _ x)
  | union hflat _ ih => exact passes_convert_union hflat ih x
  | @optional e _ ih =>
    rw [convert_optional, passes_orAbsent, ih]
    constructor
    · rintro (rfl | hx)
      · exact .absent e
      · exact .optional hx
    · intro h
      cases h with
      | absent => exact .inl rfl
      | optional hx => exact .inr hx

/-- An array of a declared type or `null`: an array of strings and absence pass, and `null` itself does not. -/
theorem passes_convert_iff_array :
    let e : TypeExpr := .union [.array (.reference "Id"), .primitive .null]
    let schemas : Schemas := fun name => if name = "Id" then some (.primitive .string) else none
    IsFlat e ∧ Passes schemas (convert (· == "Id") e false) (some (.array [.string "a", .string "b"])) ∧
      Passes schemas (convert (· == "Id") e false) none ∧
      ¬Passes schemas (convert (· == "Id") e false) (some .null) := by
  intro e schemas
  have hflat : IsFlat e := .union (by decide) (List.forall_mem_cons.2
    ⟨.array (.reference "Id"), List.forall_mem_singleton.2 (.primitive .null)⟩)
  refine ⟨hflat, (passes_convert_iff hflat _).2 ?_, (passes_convert_iff hflat _).2 ?_, fun h => ?_⟩
  · have hid (s : String) : Admits (· == "Id") schemas (.reference "Id") (some (.string s)) :=
      .reference rfl rfl (passes_iff.2 rfl)
    refine .branch List.mem_cons_self rfl (.array (List.forall_mem_cons.2 ⟨hid "a", ?_⟩))
    exact List.forall_mem_singleton.2 (hid "b")
  · exact .absentBranch List.mem_cons_self rfl (List.mem_cons_of_mem _ List.mem_cons_self) rfl
  · have hnull : Admits (· == "Id") schemas (.union [.array (.reference "Id"), .primitive .null]) (some .null) :=
      (passes_convert_iff hflat _).1 h
    cases hnull with
    | branch he hp hx =>
      rcases List.mem_cons.1 he with rfl | he
      · cases hx
      · obtain rfl := List.mem_singleton.1 he
        cases hp
    | onlyAbsent hall _ _ => exact absurd (hall _ List.mem_cons_self) (by decide)

end Validator

end TypeSchema
