import TypeSchema.Validator.Convert

/-!
# What expressions are converted to

Equations for `convert`, one for each form of an expression, so that no other proof has to open `lower`.  A union has
three forms, by the number of its present branches, those that are not only for absence:

* `convert_union_absent`: with none of them, all branches are converted;
* `convert_union_sole`: a single one stands for the union; it is lowered as it is, with what it says itself about
  absence left in place;
* `convert_union_several`: otherwise the present ones are converted.
-/

namespace TypeSchema

/-- The branches that are not only for absence. -/
def TypeExpr.present (es : List TypeExpr) : List TypeExpr := es.filter fun e => !e.isAbsent

namespace TypeExpr

variable {es : List TypeExpr}

theorem exists_of_isUnion {e : TypeExpr} (h : e.isUnion = true) : ∃ es, e = .union es := by
  cases e with
  | union es => exact ⟨es, rfl⟩
  | _ => cases h

theorem mem_present {e : TypeExpr} : e ∈ present es ↔ e ∈ es ∧ e.isAbsent = false := by
  simp [present, List.mem_filter]

theorem present_eq_nil_iff : present es = [] ↔ ∀ e ∈ es, e.isAbsent = true := by
  simp [present, List.filter_eq_nil_iff]

theorem present_eq_self_iff : present es = es ↔ ∀ e ∈ es, e.isAbsent = false := by
  simp [present, List.filter_eq_self]

theorem isOptional_union_absent (h : present es = []) : (TypeExpr.union es).isOptional = false := by
  have hall : es.all isAbsent = true := List.all_eq_true.2 (present_eq_nil_iff.1 h)
  simp [isOptional, hall]

theorem isOptional_union_present (h : present es ≠ []) : (TypeExpr.union es).isOptional = es.any isAbsent := by
  have hall : es.all isAbsent = false := by
    rw [Bool.eq_false_iff]
    intro hall
    exact h (present_eq_nil_iff.2 (List.all_eq_true.1 hall))
  simp [isOptional, hall]

/-- Beside present branches, a branch for absence is one that is left out. -/
theorem any_isAbsent_eq_false_iff : es.any isAbsent = false ↔ present es = es := by
  rw [present_eq_self_iff, List.any_eq_false]
  simp

end TypeExpr

namespace Validator

open TypeExpr (present)

/-! ## Absence is allowed once -/

section Absence

variable (v : Validator)

theorem isOptional_orAbsent : v.orAbsent.isOptional = true := by
  unfold orAbsent
  split
  · assumption
  · rfl

theorem orAbsent_of_isOptional {v : Validator} (h : v.isOptional = true) : v.orAbsent = v := if_pos h

theorem orAbsent_orAbsent : v.orAbsent.orAbsent = v.orAbsent := orAbsent_of_isOptional v.isOptional_orAbsent

theorem orAbsentIf_orAbsent (absent : Bool) : (v.orAbsentIf absent).orAbsent = v.orAbsent := by
  cases absent with
  | false => rfl
  | true => exact v.orAbsent_orAbsent

theorem orAbsentIf_or (absent absent' : Bool) :
    v.orAbsentIf (absent || absent') = (v.orAbsentIf absent').orAbsentIf absent := by
  cases absent with
  | false => rfl
  | true => exact (v.orAbsentIf_orAbsent absent').symm

end Absence

/-! ## Equations of the conversion -/

section Equations

variable (known : String → Bool)

/-- The flag allows absence besides what the expression says. -/
theorem convert_eq_orAbsentIf (e : TypeExpr) (optional : Bool) :
    convert known e optional = (convert known e false).orAbsentIf optional := by
  rw [convert, convert, Bool.false_or, orAbsentIf_or]

theorem convert_optional (e : TypeExpr) (optional : Bool) :
    convert known (.optional e) optional = (convert known e false).orAbsent := by
  have hflag : (optional || (TypeExpr.optional e).isOptional) = true := by simp [TypeExpr.isOptional]
  rw [convert, hflag, convert, orAbsentIf_orAbsent, lower]
  rfl

theorem convert_primitive (p : Primitive) : convert known (.primitive p) false = .primitive p := rfl

theorem convert_literal (l : StringLiteral) : convert known (.literal l) false = .literal l := rfl

theorem convert_reference (name : String) :
    convert known (.reference name) false = if known name then .reference name else .unresolved name := rfl

theorem convert_array (e : TypeExpr) : convert known (.array e) false = .array (convert known e false) := rfl

theorem convert_record (key : String) (e : TypeExpr) :
    convert known (.record key e) false = .record (convert known e false) := rfl

theorem convert_anyRecord : convert known .anyRecord false = .record (.primitive .any) := rfl

theorem convert_generic (name : String) (es : List TypeExpr) :
    convert known (.generic name es) false = .unresolved (TypeExpr.generic name es).render := rfl

/-! ## Unions -/

theorem lower_union (es : List TypeExpr) :
    lower known false (.union es) = .union (es.map (convert known · false)) := by
  rw [lower, lowerAll_eq_map]
  rfl

/-- Only a union is lowered to something else than it is converted to. -/
theorem lower_of_not_union {e : TypeExpr} (h : e.isUnion = false) : lower known false e = convert known e false := by
  cases e with
  | union es => cases h
  | optional e =>
    rw [convert_optional, convert, orAbsentIf_orAbsent, lower]
    rfl
  | _ => rfl

variable {es : List TypeExpr}

theorem presentBranches_eq_length : presentBranches es = (present es).length := List.countP_eq_length_filter

theorem lowerSole_eq {k : TypeExpr} {ks : List TypeExpr} (h : present es = k :: ks) :
    lowerSole known es = lower known false k := by
  induction es with
  | nil => cases h
  | cons e es ih =>
    rw [lowerSole]
    by_cases he : e.isAbsent
    · rw [if_pos he]
      exact ih (by rw [← h, present, present, List.filter_cons_of_neg (by simp [he])])
    · rw [present, List.filter_cons_of_pos (by simp [he])] at h
      rw [if_neg he, (List.cons.inj h).1]

theorem convert_union_absent (h : present es = []) :
    convert known (.union es) false = .union (es.map (convert known · false)) := by
  have hnone : presentBranches es = 0 := by rw [presentBranches_eq_length, h, List.length_nil]
  rw [convert, TypeExpr.isOptional_union_absent h, lower, if_pos rfl, hnone, lowerAll_eq_map]
  rfl

theorem convert_union_sole {k : TypeExpr} (h : present es = [k]) :
    convert known (.union es) false = (lower known false k).orAbsentIf (es.any TypeExpr.isAbsent) := by
  have hsole : presentBranches es = 1 := by rw [presentBranches_eq_length, h, List.length_singleton]
  have hne : present es ≠ [] := by simp [h]
  rw [convert, TypeExpr.isOptional_union_present hne, lower, if_pos rfl, hsole]
  rw [lowerSole_eq known h, Bool.false_or]
  rfl

theorem convert_union_several (h : 2 ≤ (present es).length) :
    convert known (.union es) false =
      (union ((present es).map (convert known · false))).orAbsentIf (es.any TypeExpr.isAbsent) := by
  have hne : present es ≠ [] := by
    intro hnil
    simp [hnil] at h
  obtain ⟨n, hn⟩ : ∃ n, presentBranches es = n + 2 := ⟨presentBranches es - 2, by rw [presentBranches_eq_length]; omega⟩
  rw [convert, TypeExpr.isOptional_union_present hne, lower, if_pos rfl, hn]
  rw [lowerPresent_eq_map, Bool.false_or]
  rfl

end Equations

end Validator

end TypeSchema
