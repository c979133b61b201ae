import Mathlib
import TypeSchema.Proofs.TypeExpr.WellFormed
import TypeSchema.Proofs.Validator.Conversion
import TypeSchema.Validator.Accept

/-!
# The ways to say that a value may be absent

A question mark, the flag and a branch `undefined` beside an expression all say that the value may be absent.  The
first two always agree, and it never matters where the branch stands, but an expression with a question mark loses what
it says itself about absence, and a sole branch keeps it (`convert_signals_iff`).  So all agree for an expression iff
it is `Uniform`: among the expressions that texts have, the exceptions are the unions with a branch for absence beside
another one (`uniform_iff_of_wellFormed`).  There the difference shows: `(string | null) | undefined` lets `null` pass,
`(string | null)?` does not (`signals_differ_null`).
-/

namespace TypeSchema

namespace Validator

open TypeExpr (present exists_of_isUnion Inner WellFormed)

/-! ## Sizes -/

/-- A validator is no branch of its own. -/
theorem orAbsent_ne_of_mem {v : Validator} {vs : List Validator} (h : v ∈ vs) : v.orAbsent ≠ optional (union vs) := by
  intro he
  have hlt := List.sizeOf_lt_of_mem h
  have hsize := congrArg sizeOf he
  unfold orAbsent at hsize
  split at hsize
  · simp only [optional.sizeOf_spec, union.sizeOf_spec] at hsize
    omega
  · simp only [optional.sizeOf_spec, union.sizeOf_spec] at hsize
    omega

theorem union_orAbsentIf_not_mem (vs : List Validator) (absent : Bool) : (union vs).orAbsentIf absent ∉ vs := by
  intro h
  have hlt := List.sizeOf_lt_of_mem h
  cases absent with
  | false =>
    simp only [orAbsentIf, Bool.false_eq_true, if_false, union.sizeOf_spec] at hlt
    omega
  | true =>
    simp only [orAbsentIf, orAbsent, isOptional, Bool.false_eq_true, if_true, if_false, union.sizeOf_spec,
      optional.sizeOf_spec] at hlt
    omega

section Signals

variable (known : String → Bool)

/-! ## A sole branch and a question mark -/

/-- Beside branches for absence, wherever they stand, a sole branch is lowered as it is. -/
theorem convert_beside_absent {es : List TypeExpr} {k : TypeExpr} (h : present es = [k])
    (ha : es.any TypeExpr.isAbsent = true) (optional : Bool) :
    convert known (.union es) optional = (lower known false k).orAbsent := by
  rw [convert_eq_orAbsentIf, convert_union_sole known h, ha]
  cases optional with
  | false => rfl
  | true => exact orAbsent_orAbsent _

/-- The expressions for which leaving out what they say themselves about absence changes nothing: all but the unions
with a branch for absence beside a present one, and with one branch only.  Such a union, too, is uniform if its only
present branch is a union that is converted to the same branches. -/
def Uniform : TypeExpr → Prop
  | .union es => present es = [] ∨ (present es = es ∧ es.length ≠ 1) ∨
      ∃ ks, present es = [.union ks] ∧ ks.map (convert known · false) = es.map (convert known · false)
  | _ => True

theorem uniform_of_not_union {e : TypeExpr} (h : e.isUnion = false) : Uniform known e := by
  cases e with
  | union es => cases h
  | _ => trivial

/-- A branch of `es` that is no union cannot be lowered to the union of `es`, of which it is a part. -/
theorem lower_orAbsent_eq_iff {es : List TypeExpr} {k : TypeExpr} (hk : k ∈ es) :
    (lower known false k).orAbsent = optional (union (es.map (convert known · false))) ↔
      ∃ ks, k = .union ks ∧ ks.map (convert known · false) = es.map (convert known · false) := by
  cases hu : k.isUnion with
  | false =>
    rw [lower_of_not_union known hu]
    refine iff_of_false (orAbsent_ne_of_mem (List.mem_map_of_mem hk)) ?_
    rintro ⟨ks, rfl, -⟩
    cases hu
  | true =>
    obtain ⟨ks, rfl⟩ := exists_of_isUnion hu
    rw [lower_union]
    constructor
    · intro h
      exact ⟨ks, rfl, union.inj (optional.inj h)⟩
    · rintro ⟨ks', hks, hmap⟩
      rw [TypeExpr.union.inj hks, hmap]
      rfl

theorem map_present_eq_iff {es : List TypeExpr} :
    (present es).map (convert known · false) = es.map (convert known · false) ↔ present es = es := by
  constructor
  · intro h
    have hlen := congrArg List.length h
    rw [List.length_map, List.length_map] at hlen
    exact List.filter_sublist.eq_of_length hlen
  · intro h
    rw [h]

/-- **A sole branch is converted as with a question mark iff it is uniform.** -/
theorem lower_orAbsent_iff_uniform (e : TypeExpr) :
    (lower known false e).orAbsent = (convert known e false).orAbsent ↔ Uniform known e := by
  cases hu : e.isUnion with
  | false =>
    exact iff_of_true (by rw [lower_of_not_union known hu]) (uniform_of_not_union known hu)
  | true =>
    obtain ⟨es, rfl⟩ := exists_of_isUnion hu
    rw [lower_union, Uniform]
    match hp : present es with
    | [] =>
      rw [convert_union_absent known hp]
      exact iff_of_true rfl (.inl rfl)
    | [k] =>
      have hk : k ∈ es := (TypeExpr.mem_present.1 (by simp [hp])).1
      rw [convert_union_sole known hp, orAbsentIf_orAbsent, eq_comm]
      refine (lower_orAbsent_eq_iff known hk).trans ?_
      constructor
      · rintro ⟨ks, rfl, hmap⟩
        exact .inr (.inr ⟨ks, rfl, hmap⟩)
      · rintro (hnil | ⟨hself, hlen⟩ | ⟨ks, hks, hmap⟩)
        · cases hnil
        · simp [← hself] at hlen
        · exact ⟨ks, (List.cons.inj hks).1, hmap⟩
    | k :: l :: ks =>
      rw [convert_union_several known (by simp [hp]), orAbsentIf_orAbsent, ← hp]
      change optional (union _) = optional (union _) ↔ _
      rw [optional.injEq, union.injEq, eq_comm, map_present_eq_iff]
      constructor
      · intro hself
        refine .inr (.inl ⟨hself, ?_⟩)
        rw [← hself, hp]
        simp
      · rintro (hnil | ⟨hself, -⟩ | ⟨ls, hls, -⟩)
        · simp [hp] at hnil
        · exact hself
        · simp [hp] at hls

/-- **Which ways to say that a value may be absent agree**: a branch `undefined` before or behind the expression, and a
question mark, the flag and what the flag adds to the validator; the former with the latter iff the expression is
uniform. -/
theorem convert_signals_iff {e : TypeExpr} (he : e.isAbsent = false) (optional : Bool) :
    convert known (.union [e, .primitive .undefined]) optional =
      convert known (.union [.primitive .undefined, e]) optional ∧
    convert known (.optional e) optional = convert known e true ∧
    convert known e true = (convert known e false).orAbsent ∧
    (convert known (.union [e, .primitive .undefined]) optional = convert known (.optional e) optional ↔
      Uniform known e) := by
  have hu : (TypeExpr.primitive .undefined).isAbsent = true := rfl
  have hfirst : present [e, .primitive .undefined] = [e] := by simp [present, he, hu]
  have hlast : present [.primitive .undefined, e] = [e] := by simp [present, he, hu]
  have hflag : convert known e true = (convert known e false).orAbsent := convert_eq_orAbsentIf known e true
  rw [convert_beside_absent known hfirst (by simp [hu]), convert_beside_absent known hlast (by simp [hu]),
    convert_optional, hflag]
  exact ⟨rfl, rfl, rfl, lower_orAbsent_iff_uniform known e⟩

/-- A union without a branch for absence, whatever is inside of its branches, and one with such a branch beside a union
that has one, too. -/
theorem convert_signals_iff_nested :
    let known : String → Bool := fun _ => false
    let e : TypeExpr := .union [.literal ⟨"a", '"'⟩, .array (.union [.primitive .string, .primitive .null])]
    let f : TypeExpr := .union [.primitive .null, .union [.primitive .string, .primitive .null]]
    e.isAbsent = false ∧ f.isAbsent = false ∧
      convert known (.union [e, .primitive .undefined]) true = convert known (.optional e) true ∧
      convert known (.union [f, .primitive .undefined]) true ≠ convert known (.optional f) true := by
  intro known e f
  refine ⟨rfl, rfl, (convert_signals_iff known (e := e) rfl true).2.2.2.2 ?_, fun h => ?_⟩
  · exact .inr (.inl ⟨rfl, by decide⟩)
  · rcases (convert_signals_iff known (e := f) rfl true).2.2.2.1 h with hnil | ⟨hself, -⟩ | ⟨ks, hks, hmap⟩
    · cases hnil
    · exact absurd (congrArg List.length hself) (by decide)
    · cases hks
      cases hmap

/-- `null` passes in the one and not in the other, though both are the same union with one more word for "may be
absent". -/
theorem signals_differ_null :
    let known : String → Bool := fun _ => false
    let e : TypeExpr := .union [.primitive .string, .primitive .null]
    TypeExpr.parse "(string | null) | undefined" = .ok (.union [e, .primitive .undefined]) ∧
      TypeExpr.parse "(string | null)?" = .ok (.optional e) ∧
      convert known (.union [e, .primitive .undefined]) false = .optional (.union [.primitive .string, .primitive .null]) ∧
      convert known (.optional e) false = .optional (.primitive .string) ∧
      (convert known (.union [e, .primitive .undefined]) false).accepts (fun _ => none) (some .null) = true ∧
      (convert known (.optional e) false).accepts (fun _ => none) (some .null) = false := by
  exact ⟨by cbv, by cbv, rfl, rfl, rfl, rfl⟩

/-! ## Expressions that texts have -/

variable {p : String → Prop}

theorem isOptional_lower_of_inner {e : TypeExpr} (h : Inner p e) : (lower known false e).isOptional = false := by
  cases h with
  | reference =>
    rw [lower]
    split
    · rfl
    · rfl
  | union => rw [lower_union]; rfl
  | _ => rfl

theorem convert_of_isAbsent {e : TypeExpr} (h : e.isAbsent = true) :
    ∃ q, convert known e false = .primitive q := by
  cases e with
  | primitive q => exact ⟨q, rfl⟩
  | _ => cases h

theorem any_isAbsent_of_sole {es : List TypeExpr} {k : TypeExpr} (hlen : 2 ≤ es.length) (h : present es = [k]) :
    es.any TypeExpr.isAbsent = true := by
  rw [← Bool.not_eq_false]
  intro hany
  rw [TypeExpr.any_isAbsent_eq_false_iff.1 hany] at h
  simp [h] at hlen

/-- A branch that is converted to what the whole union is converted to is its only present one, with absence allowed. -/
theorem convert_eq_orAbsent_of_mem {ks : List TypeExpr} {b : TypeExpr} (hlen : 2 ≤ ks.length) (hb : b ∈ ks)
    (h : convert known b false = convert known (.union ks) false) :
    convert known b false = (lower known false b).orAbsent := by
  match hp : present ks with
  | [] =>
    have hself : convert known b false ∈ ks.map (convert known · false) := List.mem_map_of_mem hb
    rw [h, convert_union_absent known hp] at hself
    exact absurd hself (union_orAbsentIf_not_mem _ false)
  | [k] =>
    rw [convert_union_sole known hp, any_isAbsent_of_sole hlen hp] at h
    change _ = (lower known false k).orAbsent at h
    have hab : b.isAbsent = false := by
      rw [← Bool.not_eq_true]
      intro hab
      obtain ⟨q, hq⟩ := convert_of_isAbsent known hab
      have hopt := (lower known false k).isOptional_orAbsent
      rw [hq] at h
      rw [← h] at hopt
      cases hopt
    have hbk : b ∈ [k] := hp ▸ TypeExpr.mem_present.2 ⟨hb, hab⟩
    obtain rfl := List.mem_singleton.1 hbk
    exact h
  | k :: l :: ls =>
    rw [convert_union_several known (by simp [hp])] at h
    cases hab : b.isAbsent with
    | true =>
      obtain ⟨q, hq⟩ := convert_of_isAbsent known hab
      rw [hq] at h
      cases habsent : ks.any TypeExpr.isAbsent with
      | false => rw [habsent] at h; cases h
      | true => rw [habsent] at h; cases h
    | false =>
      have hself : convert known b false ∈ (present ks).map (convert known · false) :=
        List.mem_map_of_mem (TypeExpr.mem_present.2 ⟨hb, hab⟩)
      rw [h] at hself
      exact absurd hself (union_orAbsentIf_not_mem _ _)

/-- In a text, only a union with a sole present branch can allow absence and still be converted as it is lowered. -/
theorem exists_sole_of_convert_eq_orAbsent {e : TypeExpr} (he : Inner p e)
    (h : convert known e false = (lower known false e).orAbsent) :
    ∃ es ks, e = .union es ∧ present es = [.union ks] ∧
      ks.map (convert known · false) = es.map (convert known · false) := by
  have hopt : (convert known e false).isOptional = true := by
    rw [h]
    exact isOptional_orAbsent _
  cases hu : e.isUnion with
  | false =>
    rw [← lower_of_not_union known hu, isOptional_lower_of_inner known he] at hopt
    cases hopt
  | true =>
    obtain ⟨es, rfl⟩ := exists_of_isUnion hu
    have huniform : Uniform known (.union es) := by
      rw [← lower_orAbsent_iff_uniform, h]
      exact (orAbsent_orAbsent _).symm
    rcases huniform with hnil | ⟨hall, -⟩ | ⟨ks, hks, hmap⟩
    · rw [convert_union_absent known hnil] at hopt
      cases hopt
    · have hseveral : 2 ≤ (present es).length := by
        rw [hall]
        exact he.of_union.1
      rw [convert_union_several known hseveral, TypeExpr.any_isAbsent_eq_false_iff.2 hall] at hopt
      cases hopt
    · exact ⟨es, ks, rfl, hks, hmap⟩

/-- In a text, the only present branch of a union is not converted to the same branches as the union. -/
theorem map_ne_of_sole {es ks : List TypeExpr} (h : Inner p (.union es)) (hs : present es = [.union ks]) :
    ks.map (convert known · false) ≠ es.map (convert known · false) := by
  intro hmap
  have hmem : TypeExpr.union ks ∈ es := (TypeExpr.mem_present.1 (by simp [hs])).1
  have hks := (h.of_union.2 _ hmem).of_union
  -- one of the branches `ks` has the validator of their union: it is again a union with a sole branch, and smaller
  have hself : convert known (.union ks) false ∈ ks.map (convert known · false) := by
    rw [hmap]
    exact List.mem_map_of_mem hmem
  obtain ⟨b, hb, hbk⟩ := List.mem_map.1 hself
  have hsole := convert_eq_orAbsent_of_mem known hks.1 hb hbk
  obtain ⟨ls, ms, rfl, hms, hmap'⟩ := exists_sole_of_convert_eq_orAbsent known (hks.2 b hb) hsole
  exact map_ne_of_sole (hks.2 _ hb) hms hmap'
termination_by sizeOf es
decreasing_by
  have h₁ := List.sizeOf_lt_of_mem hmem
  have h₂ := List.sizeOf_lt_of_mem hb
  simp only [TypeExpr.union.sizeOf_spec] at h₁ h₂
  omega

/-- **Of the expressions that texts have, only the unions with a branch for absence beside another one are not
uniform.** -/
theorem uniform_iff_of_wellFormed {e : TypeExpr} (h : WellFormed p e) :
    Uniform known e ↔ ¬(e.isUnion = true ∧ e.isOptional = true) := by
  cases hu : e.isUnion with
  | false =>
    exact iff_of_true (uniform_of_not_union known hu) (by simp)
  | true =>
    obtain ⟨es, rfl⟩ := exists_of_isUnion hu
    have hinner : Inner p (.union es) := by
      cases h with
      | bare h => exact h
    have hlen := hinner.of_union.1
    simp only [eq_self, true_and, Bool.not_eq_true, Uniform]
    constructor
    · rintro (hnil | ⟨hall, -⟩ | ⟨ks, hks, hmap⟩)
      · exact TypeExpr.isOptional_union_absent hnil
      · have hne : present es ≠ [] := by
          rw [hall]
          rintro rfl
          cases hlen
        rw [TypeExpr.isOptional_union_present hne]
        exact TypeExpr.any_isAbsent_eq_false_iff.2 hall
      · exact absurd hmap (map_ne_of_sole known hinner hks)
    · intro hopt
      by_cases hne : present es = []
      · exact .inl hne
      · rw [TypeExpr.isOptional_union_present hne, TypeExpr.any_isAbsent_eq_false_iff] at hopt
        exact .inr (.inl ⟨hopt, by omega⟩)

end Signals

end Validator

end TypeSchema
